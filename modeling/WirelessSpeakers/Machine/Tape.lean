import Mathlib.Data.List.Induction

/-! # Machines driven by event tapes

A machine is an initial state and an executable step that may refuse an event. A tape of events
determines every state of its run, so a statement about all interleavings is a statement about
all tapes. `Visits` and `Takes` name the states and the steps of one run, `history` is the
induction over runs that may look at the events so far, and `Within` is reachability by steps of
a restricted class. Nothing here knows what the states or the events are.
-/

/-- A machine driven by a tape of events; `step s e = none` means that `s` refuses `e`. -/
structure TapeMachine (State Event : Type*) where
  init : State
  step : State → Event → Option State

namespace TapeMachine

variable {State Event : Type*} (m : TapeMachine State Event)

/-- Replay a tape from an arbitrary state. -/
def runFrom (s : State) (tape : List Event) : Option State := tape.foldlM m.step s

/-- Replay a tape from the initial state. -/
def run (tape : List Event) : Option State := m.runFrom m.init tape

def Reachable (s : State) : Prop := ∃ tape, m.run tape = some s

/-- The run along `tape` passes through `s`. -/
def Visits (tape : List Event) (s : State) : Prop :=
  ∃ past, past <+: tape ∧ m.run past = some s

/-- The run along `tape` takes the event `e` in the state `s`. -/
def Takes (tape : List Event) (s : State) (e : Event) : Prop :=
  ∃ past, past ++ [e] <+: tape ∧ m.run past = some s

/-- `t` is reached from `s` by allowed events only. -/
def Within (allowed : Event → Prop) (s t : State) : Prop :=
  ∃ tape, (∀ e ∈ tape, allowed e) ∧ m.runFrom s tape = some t

variable {m}

@[simp] theorem runFrom_nil (s : State) : m.runFrom s [] = some s := rfl

@[simp] theorem runFrom_cons (s : State) (e : Event) (tape : List Event) :
    m.runFrom s (e :: tape) = (m.step s e).bind (fun next => m.runFrom next tape) := rfl

/-- Replay composes at a cut of the tape. -/
theorem runFrom_append (s : State) (first second : List Event) :
    m.runFrom s (first ++ second) =
      (m.runFrom s first).bind (fun middle => m.runFrom middle second) :=
  List.foldlM_append

@[simp] theorem run_nil : m.run [] = some m.init := rfl

theorem run_snoc {past : List Event} {e : Event} {t : State} :
    m.run (past ++ [e]) = some t ↔ ∃ s, m.run past = some s ∧ m.step s e = some t := by
  simp only [run, runFrom_append, runFrom_cons, runFrom_nil, Option.bind_fun_some,
    Option.bind_eq_some_iff]

/-- A run of a longer tape has a run of every prefix. -/
theorem run_of_prefix {past tape : List Event} {t : State} (initial : past <+: tape)
    (ran : m.run tape = some t) : ∃ s, m.run past = some s := by
  obtain ⟨rest, rfl⟩ := initial
  rw [run, runFrom_append] at ran
  obtain ⟨s, first, _⟩ := Option.bind_eq_some_iff.mp ran
  exact ⟨s, first⟩

/-- Induction over runs, with the events so far at hand. -/
theorem history {P : List Event → State → Prop} (start : P [] m.init)
    (next : ∀ past s e t, m.run past = some s → P past s → m.step s e = some t → P (past ++ [e]) t)
    {tape : List Event} {s : State} (ran : m.run tape = some s) : P tape s := by
  induction tape using List.reverseRecOn generalizing s with
  | nil =>
    cases ran
    exact start
  | append_singleton past e ih =>
    obtain ⟨middle, before, step⟩ := run_snoc.mp ran
    exact next past middle e s before (ih before) step

/-- What holds initially and is kept by every step from a reachable state holds in every reachable
state. -/
theorem invariant {P : State → Prop} (start : P m.init)
    (next : ∀ s e t, m.Reachable s → P s → m.step s e = some t → P t) {s : State}
    (reachable : m.Reachable s) : P s := by
  obtain ⟨tape, ran⟩ := reachable
  exact history (P := fun _ s => P s) start
    (fun past s e t before held step => next s e t ⟨past, before⟩ held step) ran

theorem Reachable.step {s t : State} {e : Event} (reachable : m.Reachable s)
    (step : m.step s e = some t) : m.Reachable t := by
  obtain ⟨tape, ran⟩ := reachable
  exact ⟨tape ++ [e], run_snoc.mpr ⟨s, ran, step⟩⟩

theorem reachable_of_run {tape : List Event} {s : State} (ran : m.run tape = some s) :
    m.Reachable s := ⟨tape, ran⟩

theorem Visits.reachable {tape : List Event} {s : State} (visit : m.Visits tape s) :
    m.Reachable s := by
  obtain ⟨past, _, ran⟩ := visit
  exact ⟨past, ran⟩

theorem Takes.visits {tape : List Event} {s : State} {e : Event} (taken : m.Takes tape s e) :
    m.Visits tape s := by
  obtain ⟨past, initial, ran⟩ := taken
  exact ⟨past, (List.prefix_append past [e]).trans initial, ran⟩

theorem visits_of_run {tape : List Event} {s : State} (ran : m.run tape = some s) :
    m.Visits tape s := ⟨tape, List.prefix_rfl, ran⟩

@[simp] theorem visits_nil {s : State} : m.Visits [] s ↔ s = m.init := by
  simp [Visits, eq_comm]

@[simp] theorem not_takes_nil {s : State} {e : Event} : ¬ m.Takes [] s e := by
  simp [Takes]

theorem takes_snoc {past : List Event} {e e' : Event} {s : State} :
    m.Takes (past ++ [e]) s e' ↔ m.Takes past s e' ∨ (m.run past = some s ∧ e' = e) := by
  simp only [Takes, List.prefix_concat_iff, or_and_right, exists_or, List.append_singleton_inj]
  constructor
  · rintro (⟨_, ⟨rfl, rfl⟩, ran⟩ | taken)
    · exact .inr ⟨ran, rfl⟩
    · exact .inl taken
  · rintro (taken | ⟨ran, rfl⟩)
    · exact .inr taken
    · exact .inl ⟨past, ⟨rfl, rfl⟩, ran⟩

/-- A step of a prefix is a step of the whole run. -/
theorem Takes.mono {past tape : List Event} {s : State} {e : Event} (initial : past <+: tape)
    (taken : m.Takes past s e) : m.Takes tape s e := by
  obtain ⟨before, inside, ran⟩ := taken
  exact ⟨before, inside.trans initial, ran⟩

/-- Where a step taken by a run leads, the run passes through. -/
theorem Takes.result {tape : List Event} {s u : State} {e : Event} (taken : m.Takes tape s e)
    (ran : m.run tape = some u) : ∃ t, m.step s e = some t ∧ m.Visits tape t := by
  obtain ⟨past, initial, before⟩ := taken
  obtain ⟨t, after⟩ := run_of_prefix initial ran
  obtain ⟨middle, same, step⟩ := run_snoc.mp after
  rw [before] at same
  cases same
  exact ⟨t, step, past ++ [e], initial, after⟩

/-- What holds initially and is kept by the steps that a run takes holds all along that run. -/
theorem along {tape : List Event} {P : State → Prop} (start : P m.init)
    (next : ∀ s e t, P s → m.Takes tape s e → m.step s e = some t → P t) {s : State}
    (visit : m.Visits tape s) : P s := by
  obtain ⟨past, initial, ran⟩ := visit
  refine history (P := fun past s => past <+: tape → P s) (fun _ => start) ?_ ran initial
  intro past s e t before ih step longer
  exact next s e t (ih ((List.prefix_append past [e]).trans longer)) ⟨past, longer, before⟩ step

/-- A test of all steps that a tape takes from `s`. -/
def tests (m : TapeMachine State Event) (p : State → Event → Bool) : State → List Event → Bool
  | _, [] => true
  | s, e :: tape => p s e && (m.step s e).all fun t => m.tests p t tape

theorem Takes.test {p : State → Event → Bool} {tape : List Event} {s : State} {e : Event}
    (tested : m.tests p m.init tape = true) (taken : m.Takes tape s e) : p s e = true := by
  obtain ⟨past, ⟨rest, rfl⟩, ran⟩ := taken
  change m.runFrom m.init past = some s at ran
  generalize m.init = start at tested ran
  induction past generalizing start with
  | nil =>
    cases ran
    simp only [List.nil_append, List.cons_append, tests, Bool.and_eq_true] at tested
    exact tested.1
  | cons first past ih =>
    obtain ⟨middle, step, tail⟩ := Option.bind_eq_some_iff.mp ran
    simp only [List.cons_append, tests, step, Bool.and_eq_true, Option.all_some] at tested
    exact ih middle tested.2 tail

/-- What the steps of a tape put out, one after the other. -/
def emits {β : Type*} (m : TapeMachine State Event) (out : State → Event → List β) :
    State → List Event → List β
  | _, [] => []
  | s, e :: tape => out s e ++ (m.step s e).elim [] fun t => m.emits out t tape

theorem emits_cons {β : Type*} {out : State → Event → List β} {s t : State} {e : Event}
    (step : m.step s e = some t) (tape : List Event) :
    m.emits out s (e :: tape) = out s e ++ m.emits out t tape := by
  rw [emits, step, Option.elim_some]

/-- An observation of a tape, one event later. -/
theorem filterMap_snoc {β : Type*} (observe : Event → Option β) (past : List Event) (e : Event) :
    (past ++ [e]).filterMap observe = past.filterMap observe ++ (observe e).toList := by
  rw [List.filterMap_append]
  cases observed : observe e with
  | none => rw [List.filterMap_cons_none observed]; rfl
  | some b => rw [List.filterMap_cons_some observed]; rfl

section Within

variable {allowed : Event → Prop} {s t u : State}

theorem Within.refl (s : State) : m.Within allowed s s :=
  ⟨[], fun _ member => absurd member List.not_mem_nil, rfl⟩

theorem Within.trans (first : m.Within allowed s t) (second : m.Within allowed t u) :
    m.Within allowed s u := by
  obtain ⟨left, leftAllowed, leftRun⟩ := first
  obtain ⟨right, rightAllowed, rightRun⟩ := second
  refine ⟨left ++ right, ?_, by rw [runFrom_append, leftRun, Option.bind_some, rightRun]⟩
  intro e member
  exact (List.mem_append.mp member).elim (leftAllowed e) (rightAllowed e)

theorem Within.single {e : Event} (permitted : allowed e) (step : m.step s e = some t) :
    m.Within allowed s t :=
  ⟨[e], by simpa using permitted, by simp [step]⟩

/-- One more allowed step in front. -/
theorem Within.head {e : Event} (permitted : allowed e) (step : m.step s e = some t)
    (rest : m.Within allowed t u) : m.Within allowed s u :=
  (Within.single permitted step).trans rest

/-- What every allowed step keeps cannot be left by allowed events. -/
theorem Within.confined {P : State → Prop}
    (keeps : ∀ s e t, P s → allowed e → m.step s e = some t → P t)
    (path : m.Within allowed s t) (start : P s) : P t := by
  obtain ⟨tape, permitted, ran⟩ := path
  induction tape generalizing s with
  | nil =>
    cases ran
    exact start
  | cons e rest ih =>
    obtain ⟨middle, step, tail⟩ := Option.bind_eq_some_iff.mp ran
    exact ih (keeps s e middle start (permitted e List.mem_cons_self) step)
      (fun other member => permitted other (List.mem_cons_of_mem e member)) tail

end Within

/-- A machine whose steps all project to steps of another, or to no step at all, wherever `P` holds,
projects its runs. The projected tape keeps exactly the events that have an image. -/
theorem runFrom_project {State' Event' : Type*} {n : TapeMachine State' Event'}
    (f : State → State') (g : Event → Option Event') (P : State → Prop)
    (steps : ∀ s e t, P s → m.step s e = some t →
      P t ∧ (∀ d, g e = some d → n.step (f s) d = some (f t)) ∧ (g e = none → f t = f s))
    {tape : List Event} {s t : State} (start : P s) (ran : m.runFrom s tape = some t) :
    n.runFrom (f s) (tape.filterMap g) = some (f t) := by
  induction tape generalizing s with
  | nil =>
    cases ran
    rfl
  | cons e rest ih =>
    obtain ⟨middle, step, tail⟩ := Option.bind_eq_some_iff.mp ran
    obtain ⟨kept, image, silent⟩ := steps s e middle start step
    have projected := ih kept tail
    cases found : g e with
    | none =>
      rw [List.filterMap_cons_none found, ← silent found]
      exact projected
    | some d =>
      rw [List.filterMap_cons_some found, runFrom_cons, image d found]
      exact projected

end TapeMachine
