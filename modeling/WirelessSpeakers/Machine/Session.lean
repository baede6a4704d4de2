import WirelessSpeakers.Machine.Program
import WirelessSpeakers.Machine.Tape

/-! # Sessions of calls

A session runs one program per call, one access at a time, while the hardware makes its own moves in
between. The outcome of every call is appended to a log. `Session.sound` lifts what each call
guarantees, given what the log so far says, to every state of every session.
-/

/-- The registers, the status, the running call with what is left of its program, and the outcomes of
the finished calls. -/
structure Session (C V ε α Call : Type) where
  registers : C
  status : V
  running : Option (Call × Program C V ε α) := none
  log : List (Call × Except ε α) := []

/-- A call starts, the running program makes one access, or the hardware makes a move. -/
inductive SessionEvent (Call Move : Type) where
  | call (x : Call)
  | access
  | move (m : Move)
deriving DecidableEq, Repr

namespace Session

variable {C V ε α Call : Type}

/-- One access of the call `x`. -/
def access (s : Session C V ε α Call) (x : Call) : Program C V ε α → Session C V ε α Call
  | .done a => { s with running := none, log := s.log ++ [(x, .ok a)] }
  | .fail e => { s with running := none, log := s.log ++ [(x, .error e)] }
  | .sample next => { s with running := some (x, next s.status) }
  | .fetch next => { s with running := some (x, next s.registers) }
  | .store f next => { s with registers := f s.registers, running := some (x, next) }

def step (hw : Hardware C V) (program : Call → Program C V ε α) (s : Session C V ε α Call) :
    SessionEvent Call hw.Move → Option (Session C V ε α Call)
  | .call x => if s.running.isNone then some { s with running := some (x, program x) } else none
  | .access => s.running.map fun (x, p) => s.access x p
  | .move m => (hw.apply s.registers s.status m).map fun v => { s with status := v }

/-- The call `x` is about to write a register. -/
def Writes (s : Session C V ε α Call) (x : Call) : Prop :=
  ∃ f next, s.running = some (x, .store f next)

/-- `Writes`, as a test of the next access. -/
def testWrites (p : Call → C → Bool) (s : Session C V ε α Call) : Bool :=
  match s.running with
  | some (x, .store ..) => p x s.registers
  | _ => true

theorem Writes.test {p : Call → C → Bool} {s : Session C V ε α Call} {x : Call} (writes : s.Writes x)
    (tested : s.testWrites p = true) : p x s.registers = true := by
  obtain ⟨f, next, running⟩ := writes
  simpa only [testWrites, running] using tested

end Session

/-- Sessions that start with registers `c` and status `v`. -/
def sessions {C V ε α Call : Type} (hw : Hardware C V) (program : Call → Program C V ε α) (c : C)
    (v : V) : TapeMachine (Session C V ε α Call) (SessionEvent Call hw.Move) where
  init := { registers := c, status := v }
  step := Session.step hw program

namespace Session

variable {C V ε α Call : Type} {hw : Hardware C V} {program : Call → Program C V ε α} {c : C} {v : V}

/-- What is known of a state: between calls the log speaks, during a call the weakest precondition of
what is left of it. -/
def Known (contract : Call → Contract C V) (J : List (Call × Except ε α) → C → V → Prop)
    (s : Session C V ε α Call) : Prop :=
  match s.running with
  | none => J s.log s.registers s.status
  | some (x, p) =>
    p.Ensures (contract x) (fun out => J (s.log ++ [(x, out)])) s.registers s.status

/-- What is asked of a proof about sessions: the log's assertion `J` holds at the start and is stable,
`I` is stable and follows from it, and every call started in `J` keeps `I` and ends in `J` again, if
it only writes where `G` permits. -/
structure Invariant (hw : Hardware C V) (program : Call → Program C V ε α) (G : Call → C → Prop)
    (I : C → V → Prop) (J : List (Call × Except ε α) → C → V → Prop) (c : C) (v : V) : Prop where
  start : J [] c v
  stable : ∀ log, hw.Stable (J log)
  stays : hw.Stable I
  enough : ∀ log c v, J log c v → I c v
  calls : ∀ log x c v, J log c v →
    (program x).Ensures ⟨hw, G x, I⟩ (fun out => J (log ++ [(x, out)])) c v

section

variable {G : Call → C → Prop} {I : C → V → Prop} {J : List (Call × Except ε α) → C → V → Prop}
  {s t : Session C V ε α Call}

theorem Known.access {x : Call} {p : Program C V ε α} (running : s.running = some (x, p))
    (known : Known (fun x => ⟨hw, G x, I⟩) J s) (keeps : I s.registers s.status)
    (permitted : s.Writes x → G x s.registers) :
    Known (fun x => ⟨hw, G x, I⟩) J (s.access x p) ∧
      I (s.access x p).registers (s.access x p).status := by
  simp only [Known, running] at known
  cases p with
  | done a => exact ⟨known, keeps⟩
  | fail e => exact ⟨known, keeps⟩
  | sample next => exact ⟨known _ .refl, keeps⟩
  | fetch next => exact ⟨known, keeps⟩
  | store f next => exact (known _ .refl (permitted ⟨f, next, running⟩)).symm

theorem Known.move (held : Invariant hw program G I J c v) {m : hw.Move} {w : V}
    (known : Known (fun x => ⟨hw, G x, I⟩) J s)
    (moved : hw.apply s.registers s.status m = some w) :
    Known (fun x => ⟨hw, G x, I⟩) J { s with status := w } := by
  unfold Known at known ⊢
  cases running : s.running with
  | none =>
    simp only [running] at known ⊢
    exact held.stable _ _ _ m w known moved
  | some call =>
    simp only [running] at known ⊢
    refine known.moved ?_ (.single _ moved)
    exact fun out c v w before reach => (held.stable _).reach before reach

/-- In every state of a session whose calls write only where they are permitted to, `I` holds, and
between calls `J` holds of the log. -/
theorem Invariant.sound (held : Invariant hw program G I J c v)
    {tape : List (SessionEvent Call hw.Move)}
    (permitted : ∀ u x, (sessions hw program c v).Takes tape u .access → u.Writes x →
      G x u.registers) (visit : (sessions hw program c v).Visits tape s) :
    I s.registers s.status ∧ (s.running = none → J s.log s.registers s.status) := by
  have known : Known (fun x => ⟨hw, G x, I⟩) J s ∧ I s.registers s.status := by
    refine TapeMachine.along (P := fun s : Session C V ε α Call =>
      Known (fun x => ⟨hw, G x, I⟩) J s ∧ I s.registers s.status) ?_ ?_ visit
    · exact ⟨held.start, held.enough _ _ _ held.start⟩
    · rintro s e t ⟨known, keeps⟩ taken step
      change Session.step hw program s e = some t at step
      cases e with
      | call x =>
        simp only [Session.step, Option.ite_none_right_eq_some, Option.isNone_iff_eq_none,
          Option.some.injEq] at step
        obtain ⟨idle, rfl⟩ := step
        simp only [Known, idle] at known
        exact ⟨held.calls _ x _ _ known, keeps⟩
      | access =>
        obtain ⟨⟨x, p⟩, running, rfl⟩ := Option.map_eq_some_iff.mp step
        exact known.access running keeps (permitted s x taken)
      | move m =>
        obtain ⟨w, moved, rfl⟩ := Option.map_eq_some_iff.mp step
        exact ⟨known.move held moved, held.stays _ _ m w keeps moved⟩
  refine ⟨known.2, fun idle => ?_⟩
  simpa only [Known, idle] using known.1

/-- Where every write is permitted, that is so of every reachable state. -/
theorem Invariant.reachable (held : Invariant hw program (fun _ _ => True) I J c v)
    (reachable : (sessions hw program c v).Reachable s) :
    I s.registers s.status ∧ (s.running = none → J s.log s.registers s.status) := by
  obtain ⟨tape, ran⟩ := reachable
  exact held.sound (fun _ _ _ _ => trivial) (TapeMachine.visits_of_run ran)

/-- A call that respects `G`, wherever it is started, writes only where `G` holds. -/
theorem Invariant.respected (held : Invariant hw program (fun _ _ => True) I J c v)
    {G : List (Call × Except ε α) → Call → C → Prop}
    (respects : ∀ log x c v, J log c v → (program x).Respects hw (G log x) c v)
    (reachable : (sessions hw program c v).Reachable s) {x : Call} (writes : s.Writes x) : G s.log x s.registers := by
  have owes : ∀ x p, s.running = some (x, p) → p.Respects hw (G s.log x) s.registers s.status := by
    refine TapeMachine.invariant (P := fun s : Session C V ε α Call => ∀ x p, s.running = some (x, p) →
      p.Respects hw (G s.log x) s.registers s.status) (fun _ _ none => by cases none) ?_ reachable
    rintro s e t reachable owes step x p running
    change Session.step hw program s e = some t at step
    cases e with
    | call y =>
      simp only [Session.step, Option.ite_none_right_eq_some, Option.isNone_iff_eq_none,
        Option.some.injEq] at step
      obtain ⟨idle, rfl⟩ := step
      cases running
      exact respects _ x _ _ ((held.reachable reachable).2 idle)
    | access =>
      obtain ⟨⟨y, q⟩, before, rfl⟩ := Option.map_eq_some_iff.mp step
      have owed := owes y q before
      cases q with
      | done a => cases running
      | fail e => cases running
      | sample next =>
        cases running
        exact owed _ .refl
      | fetch next =>
        cases running
        exact owed
      | store f next =>
        cases running
        exact owed.2 _ .refl
    | move m =>
      obtain ⟨w, moved, rfl⟩ := Option.map_eq_some_iff.mp step
      exact (owes x p running).moved (.single _ moved)
  obtain ⟨f, next, running⟩ := writes
  exact (owes x _ running).1

/-- What every store of every call keeps is an invariant, whatever the outcomes. -/
theorem Invariant.of_stores {S : Call → (C → C) → Prop} {R : Call → α → Prop} (start : I c v)
    (stays : hw.Stable I) (stores : ∀ x, (program x).Stores (S x) (R x))
    (step : ∀ x f, S x f → ∀ c v, G x c → I c v → I (f c) v) :
    Invariant hw program G I (fun _ => I) c v where
  start := start
  stable _ := stays
  stays := stays
  enough _ _ _ := id
  calls _ x _ _ held := (stores x).ensures stays (step x) (fun _ _ => id) held

end

end Session
