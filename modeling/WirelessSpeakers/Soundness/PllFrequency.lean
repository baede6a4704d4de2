import WirelessSpeakers.Soundness.Dividers

/-! # The frequency that `pbe_pee` reports

`pbe_pee` computes its result from the fields of `C5` and `C6`. In a sequence of successful calls for one
crystal these still hold the dividers of the last programming call, and a guard that has seen `PLLST`
knows that there was one.
-/

namespace WirelessSpeakers.Soundness

open Model Program TapeMachine

/-- The dividers of the most recent call that has any. -/
def lastDividers (log : List (Transition × Except ℤ ℤ)) : Option (ℤ × ℤ) :=
  (log.filterMap fun entry => entry.1.dividers?).getLast?

theorem lastDividers_snoc_some {log : List (Transition × Except ℤ ℤ)} {x : Transition}
    {out : Except ℤ ℤ} {pair : ℤ × ℤ} (dividers : x.dividers? = some pair) :
    lastDividers (log ++ [(x, out)]) = some pair := by
  simp [lastDividers, List.filterMap_append, dividers]

theorem lastDividers_snoc_none {log : List (Transition × Except ℤ ℤ)} {x : Transition}
    {out : Except ℤ ℤ} (none : x.dividers? = none) :
    lastDividers (log ++ [(x, out)]) = lastDividers log := by
  simp [lastDividers, List.filterMap_append, none]

/-- The registers are as the last programming call has left them. -/
def AtProduct (c : ℤ) (dividers : Option (ℤ × ℤ)) (r : ClockRegisters) (v : ClockStatus) : Prop :=
  match dividers with
  | some (p, d) => Programmed c p d r.mcg
  | none => PllOff r v

theorem atProduct_survives {c : ℤ} {dividers : Option (ℤ × ℤ)} : Survives (AtProduct c dividers) := by
  cases dividers with
  | none => exact pllOff_survives
  | some pair => exact programmed_survives

section

variable {c : ℤ} {dividers : Option (ℤ × ℤ)} {r : ClockRegisters} {v : ClockStatus}

/-- The result of `pbe_pee` by the dividers of the last programming call. -/
def Reports (c : ℤ) (dividers : Option (ℤ × ℤ)) (out : Except ℤ ℤ) (r : ClockRegisters)
    (v : ClockStatus) : Prop :=
  AtProduct c dividers r v ∧ ∀ f, out = .ok f → ∃ p d, dividers = some (p, d) ∧ f = c.tdiv p * d

theorem ensures_pbePee_reports (held : AtProduct c dividers r v) :
    (pbePee c).Ensures mcgHardware.plain (Reports c dividers) r v := by
  have failed (e : ℤ) (r : ClockRegisters) (v : ClockStatus) (held : AtProduct c dividers r v) :
      Reports c dividers (.error e) r v := ⟨held, fun _ same => by cases same⟩
  refine ensures_guard (fun w reach seen => ?_) fun w reach _ =>
    failed _ r w (atProduct_survives.stable.reach held reach)
  cases dividers with
  | none =>
    obtain ⟨u, before, _, pllst⟩ := seen.pllst true rfl
    have off := pllOff_stable.reach held before
    exact absurd (pllst.symm.trans off.pllst) (by decide)
  | some pair =>
    obtain ⟨p, d⟩ := pair
    refine programmed_survives.bind (G := fun _ => True) held (by simp [waitLock]) failed ?_
    intro _ r v programmed
    refine ensures_bind.mpr (ensures_look.mpr (ensures_bind.mpr (ensures_look.mpr ?_)))
    refine programmed_survives.bind (G := fun _ => True) programmed (by simp) failed ?_
    intro _ r' v kept
    refine programmed_survives.bind (G := fun _ => True) kept (by simp [waitClkst]) failed ?_
    intro _ r' v kept
    refine ⟨kept, fun f same => ⟨p, d, rfl, ?_⟩⟩
    rw [← Except.ok.inj same, programmed.prdiv, programmed.vdiv, int_product programmed.reference programmed.factor]

/-- A programming call that succeeds leaves its dividers. -/
theorem ensures_programs {x : Transition} {p d : ℤ} (some : x.dividers? = some (p, d))
    (crystal : x.crystalVal? = Option.some c) : x.program.Ensures mcgHardware.plain
      (fun out r _ => ∀ f, out = .ok f → Programmed c p d r.mcg) r v := by
  have weaken (out : Except ℤ ℤ) (r : ClockRegisters) (v : ClockStatus)
      (divides : Divides c p d (fun _ _ => True) True out r v) :
      ∀ f, out = .ok f → Programmed c p d r.mcg := by
    rintro f rfl
    rcases divides with ⟨_, e, failed⟩ | ⟨programmed, _⟩
    · cases failed
    · exact programmed
  have survives : Survives fun _ _ => True := ⟨fun _ _ _ _ _ _ => trivial, fun _ _ _ _ _ => trivial⟩
  cases x with
  | pllInit _ _ _ _ _ select =>
    cases some
    cases crystal
    refine (ensures_pllInit_divides (G := fun _ => True) select survives trivial ?_).mono weaken
    exact fun _ _ _ => trivial
  | fbePbe =>
    cases some
    cases crystal
    refine (ensures_fbePbe_divides (G := fun _ => True) survives trivial ?_).mono weaken
    exact fun _ _ _ => trivial
  | blpePbe =>
    cases some
    cases crystal
    refine (ensures_blpePbe_divides (G := fun _ => True) survives trivial ?_).mono weaken
    exact fun _ _ => trivial
  | _ => cases some

end

/-- All calls have succeeded, and all that have a crystal have `c`. -/
structure SucceedsFor (c : ℤ) (log : List (Transition × Except ℤ ℤ)) : Prop where
  succeeds : ∀ entry ∈ log, ∃ f, entry.2 = .ok f
  crystal : OneCrystal c log

theorem SucceedsFor.init {c : ℤ} {log : List (Transition × Except ℤ ℤ)}
    {entry : Transition × Except ℤ ℤ} (earlier : SucceedsFor c (log ++ [entry])) : SucceedsFor c log where
  succeeds entry member := earlier.succeeds entry (List.mem_append_left _ member)
  crystal := earlier.crystal.init

/-- Every call of `pbe_pee` in the log has returned the frequency that was requested last. -/
def Faithful (c : ℤ) (log : List (Transition × Except ℤ ℤ)) : Prop :=
  ∀ past f rest, log = past ++ (.pbePee c, .ok f) :: rest →
    ∃ p d, lastDividers past = some (p, d) ∧ f = c.tdiv p * d

theorem Faithful.snoc {c : ℤ} {log : List (Transition × Except ℤ ℤ)} {x : Transition}
    {out : Except ℤ ℤ} (faithful : Faithful c log)
    (last : x = .pbePee c → ∀ f, out = .ok f →
      ∃ p d, lastDividers log = some (p, d) ∧ f = c.tdiv p * d) : Faithful c (log ++ [(x, out)]) := by
  intro past f rest same
  rcases List.eq_nil_or_concat' rest with rfl | ⟨earlier, entry, rfl⟩
  · obtain ⟨rfl, here⟩ := List.append_inj' same rfl
    cases here
    exact last rfl f rfl
  · rw [← List.cons_append, ← List.append_assoc] at same
    exact faithful past f earlier (List.append_inj' same rfl).1

/-- What is known after such calls. -/
def Reported (c : ℤ) (log : List (Transition × Except ℤ ℤ)) (r : ClockRegisters) (v : ClockStatus) :
    Prop :=
  SucceedsFor c log → AtProduct c (lastDividers log) r v ∧ Faithful c log

theorem crystal_of_dividers {x : Transition} {pair : ℤ × ℤ} (dividers : x.dividers? = some pair) :
    ∃ c, x.crystalVal? = some c := by
  cases x <;> cases dividers <;> exact ⟨_, rfl⟩

theorem reported_invariant {c : ℤ} {r : ClockRegisters} {v : ClockStatus} (reset : AtReset r v) :
    Session.Invariant mcgHardware Transition.program (fun _ _ => True) (fun _ _ => True) (Reported c)
      r v where
  start _ := ⟨⟨reset.plls, reset.pllst⟩, fun past f rest same => by simp at same⟩
  stable log r v move w reported moved succeeds :=
    (reported succeeds).imp_left fun held => atProduct_survives.stable r v move w held moved
  stays _ _ _ _ _ _ := trivial
  enough _ _ _ _ := trivial
  calls log x r v reported := by
    by_cases succeeds : SucceedsFor c log
    · obtain ⟨held, faithful⟩ := reported succeeds
      cases dividers : x.dividers? with
      | some pair =>
        obtain ⟨c', crystal⟩ := crystal_of_dividers dividers
        apply (ensures_programs dividers crystal).mono
        intro out r v programmed longer
        obtain ⟨f, done⟩ := longer.succeeds (x, out) (by simp)
        obtain rfl : c' = c := longer.crystal (x, out) (by simp) c' crystal
        rw [lastDividers_snoc_some dividers]
        refine ⟨programmed f done, faithful.snoc ?_⟩
        rintro rfl
        cases dividers
      | none =>
        by_cases reports : x = .pbePee c
        · subst reports
          apply (ensures_pbePee_reports held).mono
          intro out r v reports _
          rw [lastDividers_snoc_none dividers]
          exact ⟨reports.1, faithful.snoc fun _ => reports.2⟩
        · apply (ensures_survives (G := fun _ => True) atProduct_survives dividers held).mono
          intro out r v held _
          rw [lastDividers_snoc_none dividers]
          exact ⟨held, faithful.snoc fun same => absurd same reports⟩
    · exact ensures_of_forall (fun _ _ => trivial) fun out r v longer => absurd longer.init succeeds

/-- In every session of successful calls for one crystal `c`, every call of `pbe_pee` has returned
`c / p * v` for the dividers `p` and `v` of the most recent programming call before it. -/
theorem pll_frequency_reported {r : ClockRegisters} {v : ClockStatus} (reset : AtReset r v)
    {s : ClockSession} (reachable : (clockSessions r v).Reachable s) (idle : s.running = none) {c : ℤ}
    (succeeds : ∀ entry ∈ s.log, ∃ f, entry.2 = .ok f)
    (crystal : OneCrystal c s.log) {past rest : List (Transition × Except ℤ ℤ)} {f : ℤ}
    (call : s.log = past ++ (.pbePee c, .ok f) :: rest) :
    ∃ prdivVal vdivVal, lastDividers past = some (prdivVal, vdivVal) ∧
      f = c.tdiv prdivVal * vdivVal := by
  have reported := ((reported_invariant (c := c) reset).reachable reachable).2 idle
  exact (reported ⟨succeeds, crystal⟩).2 past f rest call

/-- From FEI over FBE and PBE to PEE. -/
def pbePeeTape : List (SessionEvent Transition ClockMove) :=
  [[.call (.feiFbe 8000000 0 0)], List.replicate 5 .access, [.move .irefst, .move .clkst],
    List.replicate 6 .access, [.call (.fbePbe 8000000 2 24)], List.replicate 6 .access,
    [.move .pllst, .move (.lock0 true)], List.replicate 5 .access, [.call (.pbePee 8000000)],
    List.replicate 9 .access, [.move .clkst], List.replicate 3 .access].flatten

theorem pll_frequency_reported_96MHz : ∃ s past f p d,
    (clockSessions resetRegisters resetStatus).run pbePeeTape = some s ∧
      s.log = past ++ [(.pbePee 8000000, .ok f)] ∧ lastDividers past = some (p, d) ∧
      f = (8000000 : ℤ).tdiv p * d := by
  have log : ((clockSessions resetRegisters resetStatus).run pbePeeTape).map
      (fun s => (s.running.isNone, s.log)) = some (true, [(.feiFbe 8000000 0 0, .ok 8000000),
        (.fbePbe 8000000 2 24, .ok 8000000), (.pbePee 8000000, .ok 96000000)]) := by
    decide +kernel
  obtain ⟨s, ran, found⟩ := Option.map_eq_some_iff.mp log
  simp only [Prod.mk.injEq, Option.isNone_iff_eq_none] at found
  have call : s.log = [(.feiFbe 8000000 0 0, .ok 8000000), (.fbePbe 8000000 2 24, .ok 8000000)] ++
      [(.pbePee 8000000, .ok 96000000)] := found.2
  have succeeds : ∀ entry ∈ s.log, ∃ f, entry.2 = .ok f := by simp [found.2]
  have crystal : OneCrystal 8000000 s.log := by
    simp [OneCrystal, found.2, Transition.crystalVal?]
  obtain ⟨p, d, dividers, frequency⟩ := pll_frequency_reported atReset_reset (reachable_of_run ran)
    found.1 succeeds crystal call
  exact ⟨s, _, _, p, d, ran, call, dividers, frequency⟩

end WirelessSpeakers.Soundness
