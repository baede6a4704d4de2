import Mathlib.Data.Nat.Notation
import Mathlib.Logic.Relation

/-! # Programs beside hardware that moves on its own

A program owns registers of type `C`, which change only when it stores into them, and samples a
status of type `V`, which the hardware changes behind its back. A `Hardware` says which moves of the
status are possible under which registers; between two accesses of a program it may make any number
of them. `Runs` is the big-step meaning of a program, and `Ensures` its weakest precondition: an
assertion about every timing of the hardware, computed along the program text. `Stores` only bounds
what a program can ever write. Nothing here knows what the registers or the status are.
-/

/-- A program that ends with a result `a` or fails with a code `e`. -/
inductive Program (C V ε α : Type) where
  | done (a : α)
  | fail (e : ε)
  | sample (k : V → Program C V ε α)
  | fetch (k : C → Program C V ε α)
  | store (f : C → C) (next : Program C V ε α)

namespace Program

variable {C V ε α β : Type}

/-- Sequencing; a failure ends the whole program. -/
def bind : Program C V ε α → (α → Program C V ε β) → Program C V ε β
  | done a, next => next a
  | fail e, _ => fail e
  | sample k, next => sample fun v => (k v).bind next
  | fetch k, next => fetch fun c => (k c).bind next
  | store f p, next => store f (p.bind next)

instance : Monad (Program C V ε) where
  pure := done
  bind := bind

theorem bind_bind {γ : Type} (p : Program C V ε α) (f : α → Program C V ε β)
    (g : β → Program C V ε γ) : (p.bind f).bind g = p.bind fun a => (f a).bind g := by
  induction p with
  | done a => rfl
  | fail e => rfl
  | sample k ih => exact congrArg sample (funext ih)
  | fetch k ih => exact congrArg fetch (funext ih)
  | store w p ih => exact congrArg (store w) ih

theorem bind_done (p : Program C V ε α) : p.bind done = p := by
  induction p with
  | done a => rfl
  | fail e => rfl
  | sample k ih => exact congrArg sample (funext ih)
  | fetch k ih => exact congrArg fetch (funext ih)
  | store w p ih => exact congrArg (store w) ih

instance : LawfulMonad (Program C V ε) :=
  LawfulMonad.mk' _ bind_done (fun _ _ => rfl) bind_bind

/-- Run a program to its end and hand over its failure as a value. -/
def attempt : Program C V ε α → Program C V ε (Except ε α)
  | done a => done (.ok a)
  | fail e => done (.error e)
  | sample k => sample fun v => (k v).attempt
  | fetch k => fetch fun c => (k c).attempt
  | store f p => store f p.attempt

/-- Fail with `code` where a check finds something wrong. -/
def failIf (wrong : Prop) [Decidable wrong] (code : ε) : Program C V ε Unit :=
  if wrong then fail code else done ()

/-- Read a register field. -/
def look (g : C → α) : Program C V ε α := fetch fun c => done (g c)

/-- Read a status field. -/
def see (g : V → α) : Program C V ε α := sample fun v => done (g v)

def write (f : C → C) : Program C V ε Unit := store f (done ())

/-- Sample the status at most `n` times, and leave early when it satisfies `cond`. -/
def spin (cond : V → Bool) : ℕ → Program C V ε Unit
  | 0 => done ()
  | n + 1 => sample fun v => if cond v then done () else spin cond n

/-- A bounded poll: spin, sample once more, and fail if the condition does not hold then. -/
def wait (n : ℕ) (cond : V → Bool) (code : ε) : Program C V ε Unit := do
  spin cond n
  failIf (¬ (← see cond)) code

end Program

/-- Which moves of the status are possible under given registers. -/
structure Hardware (C V : Type) where
  Move : Type
  apply : C → V → Move → Option V

namespace Hardware

variable {C V : Type} (hw : Hardware C V)

/-- `w` is reached from `v` by any number of moves while the registers hold `c`. -/
def Reach (c : C) : V → V → Prop :=
  Relation.ReflTransGen fun v w => ∃ move, hw.apply c v move = some w

/-- No move leaves `P`. -/
def Stable (P : C → V → Prop) : Prop :=
  ∀ c v move w, P c v → hw.apply c v move = some w → P c w

variable {hw} {c : C} {u v w : V}

theorem Reach.refl : hw.Reach c v v := Relation.ReflTransGen.refl

theorem Reach.trans (first : hw.Reach c u v) (second : hw.Reach c v w) : hw.Reach c u w :=
  Relation.ReflTransGen.trans first second

/-- Moves made one after the other. -/
def moves (hw : Hardware C V) (c : C) (v : V) (list : List hw.Move) : Option V :=
  list.foldlM (hw.apply c) v

theorem Reach.single (move : hw.Move) (moved : hw.apply c v move = some w) : hw.Reach c v w :=
  Relation.ReflTransGen.single ⟨move, moved⟩

theorem Stable.reach {P : C → V → Prop} (stable : hw.Stable P) (held : P c v)
    (reach : hw.Reach c v w) : P c w := by
  induction reach with
  | refl => exact held
  | tail _ last ih =>
    obtain ⟨move, moved⟩ := last
    exact stable c _ move _ ih moved

theorem Reach.of_moves {list : List hw.Move} (moved : hw.moves c v list = some w) :
    hw.Reach c v w := by
  induction list generalizing v with
  | nil =>
    cases moved
    exact .refl
  | cons move rest ih =>
    obtain ⟨u, first, last⟩ := Option.bind_eq_some_iff.mp moved
    exact (Reach.single _ first).trans (ih last)

end Hardware

/-- What a program may rely on where it stores, and what it owes after every store. -/
structure Contract (C V : Type) where
  hardware : Hardware C V
  permits : C → Prop
  keeps : C → V → Prop

/-- The contract of a program that is only asked for its result. -/
def Hardware.plain {C V : Type} (hw : Hardware C V) : Contract C V where
  hardware := hw
  permits _ := True
  keeps _ _ := True

namespace Program

variable {C V ε α β : Type}

/-- The weakest precondition of a program for a postcondition on its outcome: whatever the hardware
does in between, every store keeps what the contract asks for and the outcome satisfies `Q`. -/
def Ensures (k : Contract C V) :
    Program C V ε α → (Except ε α → C → V → Prop) → C → V → Prop
  | done a, Q, c, v => Q (.ok a) c v
  | fail e, Q, c, v => Q (.error e) c v
  | sample next, Q, c, v => ∀ w, k.hardware.Reach c v w → (next w).Ensures k Q c w
  | fetch next, Q, c, v => (next c).Ensures k Q c v
  | store f next, Q, c, v => ∀ w, k.hardware.Reach c v w → k.permits c →
      k.keeps (f c) w ∧ next.Ensures k Q (f c) w

/-- Every store of the program satisfies `P` and every result `R`, whatever it reads. -/
def Stores (P : (C → C) → Prop) : Program C V ε α → (α → Prop) → Prop
  | done a, R => R a
  | fail _, _ => True
  | sample next, R => ∀ v, (next v).Stores P R
  | fetch next, R => ∀ c, (next c).Stores P R
  | store f next, R => P f ∧ next.Stores P R

/-- The meaning of a program: an outcome and the registers and status it leaves. -/
inductive Runs (hw : Hardware C V) :
    Program C V ε α → C → V → Except ε α → C → V → Prop where
  | done {a c v} : Runs hw (done a) c v (.ok a) c v
  | fail {e c v} : Runs hw (fail e) c v (.error e) c v
  | sample {next c v w out c' v'} (moves : hw.Reach c v w) (rest : Runs hw (next w) c w out c' v') :
      Runs hw (sample next) c v out c' v'
  | fetch {next c v out c' v'} (rest : Runs hw (next c) c v out c' v') :
      Runs hw (fetch next) c v out c' v'
  | store {f next c v w out c' v'} (moves : hw.Reach c v w)
      (rest : Runs hw next (f c) w out c' v') : Runs hw (store f next) c v out c' v'

/-- Execute a program on a schedule: the moves of the hardware before each sample and each store. -/
def replay (hw : Hardware C V) :
    Program C V ε α → List (List hw.Move) → C → V → Option (Except ε α × C × V)
  | done a, _, c, v => some (.ok a, c, v)
  | fail e, _, c, v => some (.error e, c, v)
  | sample next, schedule, c, v => do
    let w ← hw.moves c v (schedule.headD [])
    (next w).replay hw schedule.tail c w
  | fetch next, schedule, c, v => (next c).replay hw schedule c v
  | store f next, schedule, c, v => do
    let w ← hw.moves c v (schedule.headD [])
    next.replay hw schedule.tail (f c) w

theorem Runs.of_replay {hw : Hardware C V} {p : Program C V ε α} {schedule : List (List hw.Move)}
    {c c' : C} {v v' : V} {out : Except ε α}
    (replayed : p.replay hw schedule c v = some (out, c', v')) : p.Runs hw c v out c' v' := by
  induction p generalizing schedule c v with
  | done a =>
    cases replayed
    exact .done
  | fail e =>
    cases replayed
    exact .fail
  | sample next ih =>
    obtain ⟨w, moved, rest⟩ := Option.bind_eq_some_iff.mp replayed
    exact .sample (.of_moves moved) (ih w rest)
  | fetch next ih => exact .fetch (ih c replayed)
  | store f next ih =>
    obtain ⟨w, moved, rest⟩ := Option.bind_eq_some_iff.mp replayed
    exact .store (.of_moves moved) (ih rest)

/-- Hardware with more moves allows the same runs. -/
theorem Runs.mono {hw hw' : Hardware C V} (wider : ∀ c v w, hw.Reach c v w → hw'.Reach c v w)
    {p : Program C V ε α} {c c' : C} {v v' : V} {out : Except ε α} (run : p.Runs hw c v out c' v') :
    p.Runs hw' c v out c' v' := by
  induction run with
  | done => exact .done
  | fail => exact .fail
  | sample moves _ ih => exact .sample (wider _ _ _ moves) ih
  | fetch _ ih => exact .fetch ih
  | store moves _ ih => exact .store (wider _ _ _ moves) ih

section Ensures

variable {k : Contract C V} {Q R : Except ε α → C → V → Prop} {c : C} {v w : V}

@[simp] theorem ensures_pure {a : α} : (pure a : Program C V ε α).Ensures k Q c v ↔ Q (.ok a) c v :=
  Iff.rfl

@[simp] theorem ensures_bind {p : Program C V ε α} {next : α → Program C V ε β}
    {Q : Except ε β → C → V → Prop} :
    (p >>= next).Ensures k Q c v ↔ p.Ensures k (fun
      | .ok a => (next a).Ensures k Q
      | .error e => Q (.error e)) c v := by
  change (p.bind next).Ensures k Q c v ↔ _
  induction p generalizing c v with
  | done a => rfl
  | fail e => rfl
  | sample f ih => exact forall₂_congr fun w _ => ih w
  | fetch f ih => exact ih c
  | store f p ih => exact forall₃_congr fun w _ _ => and_congr_right fun _ => ih

@[simp] theorem ensures_map {p : Program C V ε α} {g : α → β} {Q : Except ε β → C → V → Prop} :
    (g <$> p).Ensures k Q c v ↔ p.Ensures k (fun
      | .ok a => Q (.ok (g a))
      | .error e => Q (.error e)) c v := by
  rw [← bind_pure_comp]
  exact ensures_bind

@[simp] theorem ensures_attempt {p : Program C V ε α}
    {Q : Except ε (Except ε α) → C → V → Prop} :
    p.attempt.Ensures k Q c v ↔ p.Ensures k (fun out => Q (.ok out)) c v := by
  induction p generalizing c v with
  | done a => rfl
  | fail e => rfl
  | sample f ih => exact forall₂_congr fun w _ => ih w
  | fetch f ih => exact ih c
  | store f p ih => exact forall₃_congr fun w _ _ => and_congr_right fun _ => ih

@[simp] theorem ensures_fail {e : ε} : (fail e : Program C V ε α).Ensures k Q c v ↔ Q (.error e) c v :=
  Iff.rfl

@[simp] theorem ensures_failIf {wrong : Prop} [Decidable wrong] {code : ε}
    {Q : Except ε Unit → C → V → Prop} : (failIf wrong code : Program C V ε Unit).Ensures k Q c v ↔
      (wrong → Q (.error code) c v) ∧ (¬ wrong → Q (.ok ()) c v) := by
  unfold failIf
  split <;> simp_all [Ensures]

@[simp] theorem ensures_ite {cond : Prop} [Decidable cond] {p q : Program C V ε α} :
    (if cond then p else q).Ensures k Q c v ↔
      (cond → p.Ensures k Q c v) ∧ (¬ cond → q.Ensures k Q c v) := by
  split <;> simp_all

@[simp] theorem ensures_look {g : C → α} :
    (look g : Program C V ε α).Ensures k Q c v ↔ Q (.ok (g c)) c v := Iff.rfl

@[simp] theorem ensures_see {g : V → α} : (see g : Program C V ε α).Ensures k Q c v ↔
    ∀ w, k.hardware.Reach c v w → Q (.ok (g w)) c w := Iff.rfl

@[simp] theorem ensures_write {f : C → C} {Q : Except ε Unit → C → V → Prop} :
    (write f : Program C V ε Unit).Ensures k Q c v ↔ ∀ w, k.hardware.Reach c v w → k.permits c →
      k.keeps (f c) w ∧ Q (.ok ()) (f c) w := Iff.rfl

/-- Spinning tells nothing that a later sample could not. -/
theorem ensures_spin {n : ℕ} {cond : V → Bool} {Q : Except ε Unit → C → V → Prop}
    (closed : ∀ v w, k.hardware.Reach c v w → Q (.ok ()) c v → Q (.ok ()) c w) :
    (spin cond n : Program C V ε Unit).Ensures k Q c v ↔ Q (.ok ()) c v := by
  induction n generalizing v with
  | zero => rfl
  | succ n ih =>
    constructor
    · intro held
      have here := held v .refl
      dsimp only at here
      split at here
      · exact here
      · exact ih.mp here
    · intro held w reach
      have later := closed v w reach held
      dsimp only
      split
      · exact later
      · exact ih.mpr later

/-- The last sample of a poll decides it. -/
@[simp] theorem ensures_wait {n : ℕ} {cond : V → Bool} {code : ε}
    {Q : Except ε Unit → C → V → Prop} : (wait n cond code : Program C V ε Unit).Ensures k Q c v ↔
      ∀ w, k.hardware.Reach c v w → (cond w → Q (.ok ()) c w) ∧ (¬ cond w → Q (.error code) c w) := by
  simp only [wait, ensures_bind]
  rw [ensures_spin]
  · simp only [ensures_bind, ensures_see, ensures_failIf, Decidable.not_not]
    exact forall₂_congr fun w _ => and_comm
  · intro v w reach held
    simp only [ensures_bind, ensures_see] at held ⊢
    intro u further
    exact held u (reach.trans further)

/-- The hardware moves on before the program does. -/
theorem Ensures.moved {p : Program C V ε α} (held : p.Ensures k Q c v)
    (closed : ∀ out c v w, Q out c v → k.hardware.Reach c v w → Q out c w)
    (reach : k.hardware.Reach c v w) : p.Ensures k Q c w := by
  induction p with
  | done a => exact closed _ c v w held reach
  | fail e => exact closed _ c v w held reach
  | sample next => exact fun u further => held u (reach.trans further)
  | fetch next ih => exact ih c held
  | store f next => exact fun u further => held u (reach.trans further)

theorem Ensures.mono {p : Program C V ε α} (held : p.Ensures k Q c v)
    (weaker : ∀ out c v, Q out c v → R out c v) : p.Ensures k R c v := by
  induction p generalizing c v with
  | done a => exact weaker _ c v held
  | fail e => exact weaker _ c v held
  | sample next ih => exact fun w reach => ih w (held w reach)
  | fetch next ih => exact ih c held
  | store f next ih => exact fun w reach permitted => (held w reach permitted).imp_right ih

/-- A program that stores only what keeps a stable `P` ends in `P`, with a result it can have, and keeps
whatever the contract asks for if `P` implies it. -/
theorem Stores.ensures_result {p : Program C V ε α} {S : (C → C) → Prop} {R : α → Prop}
    {P : C → V → Prop} (stores : p.Stores S R) (stable : k.hardware.Stable P)
    (step : ∀ f, S f → ∀ c v, k.permits c → P c v → P (f c) v)
    (enough : ∀ c v, P c v → k.keeps c v) (held : P c v) :
    p.Ensures k (fun out c v => P c v ∧ ∀ a, out = .ok a → R a) c v := by
  induction p generalizing c v with
  | done a =>
    refine ⟨held, ?_⟩
    rintro _ ⟨⟩
    exact stores
  | fail e => exact ⟨held, nofun⟩
  | sample next ih => exact fun w reach => ih w (stores w) (stable.reach held reach)
  | fetch next ih => exact ih c (stores c) held
  | store f next ih =>
    intro w reach permitted
    have after := step f stores.1 c w permitted (stable.reach held reach)
    exact ⟨enough _ w after, ih stores.2 after⟩

theorem Stores.ensures {p : Program C V ε α} {S : (C → C) → Prop} {R : α → Prop} {P : C → V → Prop}
    (stores : p.Stores S R) (stable : k.hardware.Stable P)
    (step : ∀ f, S f → ∀ c v, k.permits c → P c v → P (f c) v)
    (enough : ∀ c v, P c v → k.keeps c v) (held : P c v) : p.Ensures k (fun _ => P) c v :=
  (stores.ensures_result stable step enough held).mono fun _ _ _ => And.left

/-- Every program has a run. -/
theorem exists_run (hw : Hardware C V) (p : Program C V ε α) (c : C) (v : V) :
    ∃ out c' v', p.Runs hw c v out c' v' := by
  induction p generalizing c with
  | done a => exact ⟨_, c, v, .done⟩
  | fail e => exact ⟨_, c, v, .fail⟩
  | sample next ih =>
    obtain ⟨out, c', v', run⟩ := ih v c
    exact ⟨out, c', v', .sample .refl run⟩
  | fetch next ih =>
    obtain ⟨out, c', v', run⟩ := ih c c
    exact ⟨out, c', v', .fetch run⟩
  | store f next ih =>
    obtain ⟨out, c', v', run⟩ := ih (f c)
    exact ⟨out, c', v', .store .refl run⟩

/-- The weakest precondition is about exactly the runs of the program. -/
theorem ensures_plain_iff {hw : Hardware C V} {p : Program C V ε α} :
    p.Ensures hw.plain Q c v ↔ ∀ out c' v', p.Runs hw c v out c' v' → Q out c' v' := by
  induction p generalizing c v with
  | done a =>
    refine ⟨fun held out c' v' run => ?_, fun held => held _ c v .done⟩
    cases run
    exact held
  | fail e =>
    refine ⟨fun held out c' v' run => ?_, fun held => held _ c v .fail⟩
    cases run
    exact held
  | sample next ih =>
    constructor
    · rintro held out c' v' (_ | _ | ⟨moves, rest⟩)
      exact (ih _).mp (held _ moves) out c' v' rest
    · exact fun held w reach => (ih w).mpr fun out c' v' rest => held out c' v' (.sample reach rest)
  | fetch next ih =>
    constructor
    · rintro held out c' v' (_ | _ | _ | ⟨rest⟩)
      exact (ih c).mp held out c' v' rest
    · exact fun held => (ih c).mpr fun out c' v' rest => held out c' v' (.fetch rest)
  | store f next ih =>
    constructor
    · rintro held out c' v' (_ | _ | _ | _ | ⟨moves, rest⟩)
      exact ih.mp (held _ moves trivial).2 out c' v' rest
    · intro held w reach _
      exact ⟨trivial, ih.mpr fun out c' v' rest => held out c' v' (.store reach rest)⟩

/-- A postcondition that holds of everything is ensured. -/
theorem ensures_of_forall {p : Program C V ε α} (free : ∀ c v, k.keeps c v)
    (all : ∀ out c v, Q out c v) : p.Ensures k Q c v := by
  induction p generalizing c v with
  | done a => exact all _ c v
  | fail e => exact all _ c v
  | sample next ih => exact fun w _ => ih w
  | fetch next ih => exact ih c
  | store f next ih => exact fun w _ _ => ⟨free _ w, ih⟩

/-- Two guarantees of one program meet in one outcome. -/
theorem Ensures.exists {hw : Hardware C V} {p : Program C V ε α} (first : p.Ensures hw.plain Q c v)
    (second : p.Ensures hw.plain R c v) : ∃ out c' v', Q out c' v' ∧ R out c' v' := by
  obtain ⟨out, c', v', run⟩ := exists_run hw p c v
  exact ⟨out, c', v', ensures_plain_iff.mp first out c' v' run,
    ensures_plain_iff.mp second out c' v' run⟩

end Ensures

section Stores

variable {P : (C → C) → Prop} {R : α → Prop}

theorem Stores.mono {S : (C → C) → Prop} {p : Program C V ε α} (stores : p.Stores P R)
    (weaker : ∀ f, P f → S f) : p.Stores S R := by
  induction p with
  | done a => exact stores
  | fail e => exact stores
  | sample next ih => exact fun v => ih v (stores v)
  | fetch next ih => exact fun c => ih c (stores c)
  | store f next ih => exact ⟨weaker f stores.1, ih stores.2⟩

@[simp] theorem stores_pure {a : α} : (pure a : Program C V ε α).Stores P R ↔ R a := Iff.rfl

@[simp] theorem stores_fail {e : ε} : (fail e : Program C V ε α).Stores P R := trivial

@[simp] theorem stores_bind {p : Program C V ε α} {next : α → Program C V ε β} {R : β → Prop} :
    (p >>= next).Stores P R ↔ p.Stores P fun a => (next a).Stores P R := by
  change (p.bind next).Stores P R ↔ _
  induction p with
  | done a => rfl
  | fail e => rfl
  | sample f ih => exact forall_congr' ih
  | fetch f ih => exact forall_congr' ih
  | store f p ih => exact and_congr_right fun _ => ih

@[simp] theorem stores_map {p : Program C V ε α} {g : α → β} {R : β → Prop} :
    (g <$> p).Stores P R ↔ p.Stores P fun a => R (g a) := by
  rw [← bind_pure_comp]
  exact stores_bind

@[simp] theorem stores_failIf {wrong : Prop} [Decidable wrong] {code : ε} {R : Unit → Prop} :
    (failIf wrong code : Program C V ε Unit).Stores P R ↔ (¬ wrong → R ()) := by
  unfold failIf
  split <;> simp_all [Stores]

@[simp] theorem stores_look {g : C → α} :
    (look g : Program C V ε α).Stores P R ↔ ∀ c, R (g c) := Iff.rfl

@[simp] theorem stores_see {g : V → α} :
    (see g : Program C V ε α).Stores P R ↔ ∀ v, R (g v) := Iff.rfl

@[simp] theorem stores_write {f : C → C} {R : Unit → Prop} :
    (write f : Program C V ε Unit).Stores P R ↔ P f ∧ R () := Iff.rfl

@[simp] theorem stores_spin {n : ℕ} {cond : V → Bool} {R : Unit → Prop} [Nonempty V] :
    (spin cond n : Program C V ε Unit).Stores P R ↔ R () := by
  induction n with
  | zero => rfl
  | succ n ih =>
    have each (v : V) : (if cond v then done () else spin cond n : Program C V ε Unit).Stores P R ↔
        R () := by
      split
      · rfl
      · exact ih
    exact (forall_congr' each).trans (forall_const V)

@[simp] theorem stores_wait {n : ℕ} {cond : V → Bool} {code : ε} {R : Unit → Prop} [Nonempty V] :
    (wait n cond code : Program C V ε Unit).Stores P R ↔ ∀ v, cond v → R () := by
  simp [wait]

@[simp] theorem stores_ite {cond : Prop} [Decidable cond] {p q : Program C V ε α} :
    (if cond then p else q).Stores P R ↔ (cond → p.Stores P R) ∧ (¬ cond → q.Stores P R) := by
  split <;> simp_all

end Stores

/-- Every store of the program keeps `P`, where the contract permits it. -/
def Keeps (k : Contract C V) (P : C → V → Prop) (p : Program C V ε α) : Prop :=
  p.Stores (fun f => ∀ c v, k.permits c → P c v → P (f c) v) fun _ => True

section Keeps

variable {k : Contract C V} {P : C → V → Prop} {Q : Except ε β → C → V → Prop} {c : C} {v : V}

theorem Keeps.ensures {p : Program C V ε α} (keeps : p.Keeps k P) (stable : k.hardware.Stable P)
    (enough : ∀ c v, P c v → k.keeps c v) (held : P c v) : p.Ensures k (fun _ => P) c v :=
  Stores.ensures keeps stable (fun _ step => step) enough held

/-- A part that keeps `P` comes first. -/
theorem Keeps.bind {p : Program C V ε α} {next : α → Program C V ε β} (keeps : p.Keeps k P)
    (stable : k.hardware.Stable P) (enough : ∀ c v, P c v → k.keeps c v) (held : P c v)
    (failed : ∀ e c v, P c v → Q (.error e) c v)
    (rest : ∀ a c v, P c v → (next a).Ensures k Q c v) : (p >>= next).Ensures k Q c v := by
  refine ensures_bind.mpr ((keeps.ensures stable enough held).mono fun out c v held => ?_)
  cases out with
  | error e => exact failed e c v held
  | ok a => exact rest a c v held

end Keeps

/-- Every store of the program is made under registers that satisfy `G`. -/
def Respects (hw : Hardware C V) (G : C → Prop) : Program C V ε α → C → V → Prop
  | done _, _, _ => True
  | fail _, _, _ => True
  | sample next, c, v => ∀ w, hw.Reach c v w → (next w).Respects hw G c w
  | fetch next, c, v => (next c).Respects hw G c v
  | store f next, c, v => G c ∧ ∀ w, hw.Reach c v w → next.Respects hw G (f c) w

section Respects

variable {hw : Hardware C V} {G : C → Prop} {c : C} {v w : V}

theorem Respects.moved {p : Program C V ε α} (respects : p.Respects hw G c v) (reach : hw.Reach c v w) :
    p.Respects hw G c w := by
  induction p with
  | done a => trivial
  | fail e => trivial
  | sample next => exact fun u further => respects u (reach.trans further)
  | fetch next ih => exact ih c respects
  | store f next => exact respects.imp_right fun rest u further => rest u (reach.trans further)

theorem Respects.mono {H : C → Prop} {p : Program C V ε α} (respects : p.Respects hw G c v)
    (weaker : ∀ c, G c → H c) :
    p.Respects hw H c v := by
  induction p generalizing c v with
  | done a => trivial
  | fail e => trivial
  | sample next ih => exact fun w reach => ih w (respects w reach)
  | fetch next ih => exact ih c respects
  | store f next ih => exact ⟨weaker c respects.1, fun w reach => ih (respects.2 w reach)⟩

theorem Respects.bind {p : Program C V ε α} {next : α → Program C V ε β} (respects : p.Respects hw G c v)
    (rest : p.Ensures hw.plain (fun out c v => ∀ a, out = .ok a → (next a).Respects hw G c v) c v) :
    (p >>= next).Respects hw G c v := by
  change (p.bind next).Respects hw G c v
  induction p generalizing c v with
  | done a => exact rest a rfl
  | fail e => trivial
  | sample next ih => exact fun w reach => ih w (respects w reach) (rest w reach)
  | fetch next ih => exact ih c respects rest
  | store f next ih => exact ⟨respects.1, fun w reach => ih (respects.2 w reach) (rest w reach trivial).2⟩

/-- A program that keeps `I` from the start, which every store needs. -/
theorem Stores.respects {p : Program C V ε α} {S : (C → C) → Prop} {R : α → Prop} {I : C → Prop}
    (stores : p.Stores S R) (step : ∀ f, S f → ∀ c, I c → G c ∧ I (f c)) (held : I c) :
      p.Respects hw G c v := by
  induction p generalizing c v with
  | done a => trivial
  | fail e => trivial
  | sample next ih => exact fun w _ => ih w (stores w) held
  | fetch next ih => exact ih c (stores c) held
  | store f next ih =>
    obtain ⟨here, later⟩ := step f stores.1 c held
    exact ⟨here, fun w _ => ih stores.2 later⟩

end Respects

/-- The program stores nothing and never fails. -/
def Reads : Program C V ε α → Prop
  | done _ => True
  | fail _ => False
  | sample k => ∀ v, (k v).Reads
  | fetch k => ∀ c, (k c).Reads
  | store _ _ => False

section Reads

@[simp] theorem reads_pure {a : α} : (pure a : Program C V ε α).Reads := trivial

@[simp] theorem reads_look {g : C → α} : (look g : Program C V ε α).Reads := fun _ => trivial

@[simp] theorem reads_see {g : V → α} : (see g : Program C V ε α).Reads := fun _ => trivial

theorem Reads.bind {p : Program C V ε α} {next : α → Program C V ε β} (reads : p.Reads)
    (rest : ∀ a, (next a).Reads) : (p >>= next).Reads := by
  change (p.bind next).Reads
  induction p with
  | done a => exact rest a
  | fail e => exact reads
  | sample k ih => exact fun v => ih v (reads v)
  | fetch k ih => exact fun c => ih c (reads c)
  | store f p => exact absurd reads id

theorem reads_spin {cond : V → Bool} {n : ℕ} : (spin cond n : Program C V ε Unit).Reads := by
  induction n with
  | zero => trivial
  | succ n ih =>
    intro v
    dsimp only
    split
    · trivial
    · exact ih

/-- It leaves everything and comes to some result. -/
theorem Reads.ensures {p : Program C V ε α} (reads : p.Reads) {k : Contract C V}
    {Q : Except ε α → C → V → Prop} {c : C} {v : V} (result : ∀ a v, Q (.ok a) c v) :
    p.Ensures k Q c v := by
  induction p generalizing v with
  | done a => exact result a v
  | fail e => exact absurd reads id
  | sample next ih => exact fun w _ => ih w (reads w)
  | fetch next ih => exact ih c (reads c)
  | store f next => exact absurd reads id

theorem Reads.stores {p : Program C V ε α} (reads : p.Reads) {P : (C → C) → Prop} :
    p.Stores P fun _ => True := by
  induction p with
  | done a => trivial
  | fail e => trivial
  | sample next ih => exact fun v => ih v (reads v)
  | fetch next ih => exact fun c => ih c (reads c)
  | store f next => exact absurd reads id

end Reads

section Zoom

variable {C' V' : Type} (get : C' → C) (put : C → C' → C') (view : V' → V)

/-- A program on larger registers and a larger status, of which it knows a part. -/
def zoom : Program C V ε α → Program C' V' ε α
  | done a => done a
  | fail e => fail e
  | sample k => sample fun v => (k (view v)).zoom
  | fetch k => fetch fun c => (k (get c)).zoom
  | store f p => store (fun c => put (f (get c)) c) p.zoom

theorem Reads.zoom {p : Program C V ε α} (reads : p.Reads) : (p.zoom get put view).Reads := by
  induction p with
  | done a => trivial
  | fail e => exact reads
  | sample k ih => exact fun v => ih (view v) (reads (view v))
  | fetch k ih => exact fun c => ih (get c) (reads (get c))
  | store f p => exact absurd reads id

end Zoom

/-- The angelic weakest precondition: under some timing of the hardware the outcome satisfies `Q`. -/
def Admits (hw : Hardware C V) : Program C V ε α → (Except ε α → C → V → Prop) → C → V → Prop
  | done a, Q, c, v => Q (.ok a) c v
  | fail e, Q, c, v => Q (.error e) c v
  | sample k, Q, c, v => ∃ w, hw.Reach c v w ∧ (k w).Admits hw Q c w
  | fetch k, Q, c, v => (k c).Admits hw Q c v
  | store f p, Q, c, v => ∃ w, hw.Reach c v w ∧ p.Admits hw Q (f c) w

section Admits

variable {hw : Hardware C V} {Q : Except ε α → C → V → Prop} {c : C} {v : V}

/-- It is about the runs of the program. -/
theorem admits_iff {p : Program C V ε α} :
    p.Admits hw Q c v ↔ ∃ out c' v', p.Runs hw c v out c' v' ∧ Q out c' v' := by
  induction p generalizing c v with
  | done a =>
    constructor
    · exact fun held => ⟨_, c, v, .done, held⟩
    · rintro ⟨out, c', v', run, held⟩
      cases run
      exact held
  | fail e =>
    constructor
    · exact fun held => ⟨_, c, v, .fail, held⟩
    · rintro ⟨out, c', v', run, held⟩
      cases run
      exact held
  | sample k ih =>
    constructor
    · rintro ⟨w, reach, held⟩
      obtain ⟨out, c', v', run, here⟩ := (ih w).mp held
      exact ⟨out, c', v', .sample reach run, here⟩
    · rintro ⟨out, c', v', (_ | _ | ⟨reach, run⟩), held⟩
      exact ⟨_, reach, (ih _).mpr ⟨out, c', v', run, held⟩⟩
  | fetch k ih =>
    constructor
    · intro held
      obtain ⟨out, c', v', run, here⟩ := (ih c).mp held
      exact ⟨out, c', v', .fetch run, here⟩
    · rintro ⟨out, c', v', (_ | _ | _ | ⟨run⟩), held⟩
      exact (ih c).mpr ⟨out, c', v', run, held⟩
  | store f p ih =>
    constructor
    · rintro ⟨w, reach, held⟩
      obtain ⟨out, c', v', run, here⟩ := ih.mp held
      exact ⟨out, c', v', .store reach run, here⟩
    · rintro ⟨out, c', v', (_ | _ | _ | _ | ⟨reach, run⟩), held⟩
      exact ⟨_, reach, ih.mpr ⟨out, c', v', run, held⟩⟩

/-- What is not ensured otherwise can happen. -/
theorem admits_of_not_ensures {p : Program C V ε α}
    (escapes : ¬ p.Ensures hw.plain (fun out c v => ¬ Q out c v) c v) : p.Admits hw Q c v := by
  apply Classical.byContradiction
  intro never
  apply escapes
  rw [ensures_plain_iff]
  exact fun out c' v' run held => never (admits_iff.mpr ⟨out, c', v', run, held⟩)

theorem admits_bind {p : Program C V ε α} {next : α → Program C V ε β}
    {Q : Except ε β → C → V → Prop} :
    (p >>= next).Admits hw Q c v ↔ p.Admits hw (fun
      | .ok a => (next a).Admits hw Q
      | .error e => Q (.error e)) c v := by
  change (p.bind next).Admits hw Q c v ↔ _
  induction p generalizing c v with
  | done a => rfl
  | fail e => rfl
  | sample k ih => exact exists_congr fun w => and_congr_right fun _ => ih w
  | fetch k ih => exact ih c
  | store f p ih => exact exists_congr fun w => and_congr_right fun _ => ih

/-- A check that finds nothing wrong. -/
theorem admits_failIf {wrong : Prop} [Decidable wrong] {code : ε} {Q : Except ε Unit → C → V → Prop}
    (fine : ¬ wrong) (held : Q (.ok ()) c v) :
    (failIf wrong code : Program C V ε Unit).Admits hw Q c v := by
  rw [failIf, if_neg fine]
  exact held

/-- A poll whose condition comes true before its first sample. -/
theorem admits_wait {n : ℕ} {cond : V → Bool} {code : ε} {Q : Except ε Unit → C → V → Prop} {w : V}
    (reach : hw.Reach c v w) (shown : cond w) (held : Q (.ok ()) c w) :
    (wait n cond code : Program C V ε Unit).Admits hw Q c v := by
  have last {u : V} (rest : hw.Reach c u w) :
      (do failIf (¬ (← see cond)) code : Program C V ε Unit).Admits hw Q c u := by
    refine ⟨w, rest, ?_⟩
    exact admits_failIf (not_not_intro shown) held
  cases n with
  | zero => exact last reach
  | succ n =>
    refine ⟨w, reach, ?_⟩
    dsimp only
    rw [if_pos shown]
    exact last .refl

end Admits

end Program
