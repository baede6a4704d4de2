import WirelessSpeakers.Soundness.ModeAutomaton

/-! # The reserved clock selection

`pee_pbe`, `fee_fbe` and `fee_fbi` set bits of `C1[CLKS]` without clearing it, on the assumption that
it is 0. Their guards read the status. As long as no poll has timed out, the status shows FEE or PEE only
where `CLKS` is 0; after a call that failed on a time-out it can do so while `CLKS` already holds something
else. The reserved value comes about exactly through such a write.
-/

namespace WirelessSpeakers.Soundness

open Model Program TapeMachine

/-- The bits of `CLKS` that a call adds do not complete the reserved value. -/
def AddsToClks (x : Transition) (mcg : Mcg) : Prop :=
  match x with
  | .peePbe _ | .feeFbe _ => mcg.clks ≠ 1
  | .feeFbi .. => mcg.clks ≠ 2
  | _ => True

instance (x : Transition) (mcg : Mcg) : Decidable (AddsToClks x mcg) :=
  match x with
  | .peePbe _ | .feeFbe _ => inferInstanceAs (Decidable (mcg.clks ≠ 1))
  | .feeFbi .. => inferInstanceAs (Decidable (mcg.clks ≠ 2))
  | .pllInit .. | .pbePee _ | .pbeFbe _ | .fbePbe .. | .pbeBlpe _ | .blpePbe .. | .blpeFbe _
  | .fbeBlpe _ | .fbeFei _ | .feiFbe .. | .fbeFee _ | .fbeFbi .. | .fbiFbe .. | .fbiBlpi ..
  | .blpiFbi .. | .fbiFee .. | .fbiFei _ | .feiFbi .. | .feiFee .. | .feeFei _ | .feiFeeRtc _
  | .feeFeiRtc _ => isTrue trivial

private theorem or_two {x : BitVec 2} (one : x ≠ 1#2) (three : x ≠ 3#2) : x ||| 2#2 ≠ 3#2 := by
  revert x
  decide

private theorem or_one {x : BitVec 2} (two : x ≠ 2#2) (three : x ≠ 3#2) : x ||| 1#2 ≠ 3#2 := by
  revert x
  decide

/-- No assignment of a call makes the selection reserved. -/
theorem clks_edits {x : Transition} {r : ClockRegisters} (adds : AddsToClks x r.mcg)
    (held : r.mcg.clks ≠ 3) : ∀ e ∈ x.edits, (e.apply r).mcg.clks ≠ 3 := by
  cases x <;>
    simp_all [AddsToClks, Transition.edits, Transition.externalEdits, oscillatorEdit, externalEdit,
      prdivEdit, vdivEdit, ircsEdit_eq, BitVec.extractLsb'_or, BitVec.extractLsb'_and, or_two, or_one]

private theorem or_two_ne {x : BitVec 2} : x ||| 2#2 ≠ 1#2 := by
  revert x
  decide

private theorem or_one_ne {x : BitVec 2} : x ||| 1#2 ≠ 2#2 := by
  revert x
  decide

/-- Behind a guard that a mode with another `CLKS` passes, stores that keep `CLKS` from `n` never find it there. -/
theorem respects_behind {m mode : ClockMode} {r : ClockRegisters} {v : ClockStatus} {rest : ClockDriver ℤ}
    {n : BitVec 2} (holds : Holds m r.mcg v) (other : clksOf mode ≠ n)
    (stores : rest.Stores (fun f => ∀ r, r.mcg.clks ≠ n → (f r).mcg.clks ≠ n) fun _ => True) :
    (do requireMode mode; rest).Respects mcgHardware (fun r => r.mcg.clks ≠ n) r v := by
  apply Respects.bind
  · have none : (requireMode mode).Stores (fun _ => False) fun _ => True := stores_requireMode trivial
    exact none.respects (I := fun _ => True) (fun _ absurd => absurd.elim) trivial
  · refine ensures_requireMode_of holds (fun same w holds => ?_) fun _ _ _ => nofun
    rintro _ ⟨⟩
    have free : r.mcg.clks ≠ n := ne_of_eq_of_ne (holds.clks.trans (congrArg clksOf same)) other
    exact stores.respects (I := fun r => r.mcg.clks ≠ n) (fun f step r held => ⟨held, step r held⟩) free

/-- A call that is made in a mode does not complete the reserved value. -/
theorem respects_addsToClks {m : ClockMode} {r : ClockRegisters} {v : ClockStatus} (x : Transition)
    (holds : Holds m r.mcg v) : x.program.Respects mcgHardware (fun r => AddsToClks x r.mcg) r v := by
  cases x with
  | peePbe => exact respects_behind holds (by decide) (by simp [waitClkst, or_two_ne])
  | feeFbe => exact respects_behind holds (by decide) (by simp [waitClkst, or_two_ne])
  | feeFbi =>
    exact respects_behind holds (by decide)
      (by simp [checkIrc, disableMonitor, waitIrcst, waitClkst, waitIrefst, ircOut, checkSlowIrc, ircsEdit_eq,
        or_one_ne])
  | _ =>
    exact (Transition.stores_program _).respects (I := fun _ => True) (fun _ _ _ _ => ⟨trivial, trivial⟩) trivial

/-- As long as no poll has timed out, no call writes where the bits that it adds would complete the reserved value. -/
theorem addsToClks_of_timely {r : ClockRegisters} {v : ClockStatus} (reset : AtReset r v) {s : ClockSession}
    (reachable : (clockSessions r v).Reachable s) (timely : ∀ entry ∈ s.log, ¬ TimedOut entry.2) {x : Transition}
    (writes : s.Writes x) : AddsToClks x s.registers.mcg := by
  refine (tracks_invariant reset).respected
    (G := fun log x r => (∀ entry ∈ log, ¬ TimedOut entry.2) → AddsToClks x r.mcg) ?_ reachable writes timely
  intro log x r v tracks
  by_cases timely : ∀ entry ∈ log, ¬ TimedOut entry.2
  · obtain ⟨m, holds, _⟩ := tracks timely
    exact (respects_addsToClks x holds).mono fun r adds _ => adds
  · exact x.stores_program.respects (I := fun _ => True)
      (fun _ _ _ _ => ⟨fun within => absurd within timely, trivial⟩) trivial

/-- In a run in which `pee_pbe` and `fee_fbe` never write while `CLKS` is 1, and `fee_fbi` never while
it is 2, `CLKS` is never 3. -/
theorem clks_ne_three {r : ClockRegisters} {v : ClockStatus} (reset : AtReset r v)
    {tape : List (SessionEvent Transition ClockMove)} {s : ClockSession}
    (clear : ∀ u x, (clockSessions r v).Takes tape u .access → u.Writes x →
      AddsToClks x u.registers.mcg) (visit : (clockSessions r v).Visits tape s) :
    s.registers.mcg.clks ≠ 3 := by
  have invariant : Session.Invariant mcgHardware Transition.program
      (fun x r => AddsToClks x r.mcg) (fun r _ => r.mcg.clks ≠ 3) (fun _ r _ => r.mcg.clks ≠ 3) r v := by
    apply Session.Invariant.of_stores
    · simp [reset.clks]
    · exact fun _ _ _ _ held _ => held
    · exact Transition.stores_program
    · rintro x f ⟨e, member, rfl⟩ r v adds held
      exact clks_edits adds held e member
  exact (invariant.sound clear visit).1

/-- From FEI to FEE and on to FBE, where `CLKS` is 0 as `fee_fbe` assumes. -/
def feeFbeTape : List (SessionEvent Transition ClockMove) :=
  [.call (.feiFee 8000000 0 0), .access, .access, .access, .access, .access, .access, .access,
    .move .irefst, .access, .access, .access, .access, .call (.feeFbe 8000000), .access, .access,
    .access, .access, .move .clkst, .access, .access, .access]

theorem clks_ne_three_fee_fbe : ∃ s, (clockSessions resetRegisters resetStatus).run feeFbeTape = some s ∧
    s.registers.mcg.clks ≠ 3 := by
  obtain ⟨s, ran⟩ := Option.isSome_iff_exists.mp
    (by decide : ((clockSessions resetRegisters resetStatus).run feeFbeTape).isSome = true)
  refine ⟨s, ran, clks_ne_three atReset_reset ?_ (visits_of_run ran)⟩
  intro u x taken writes
  have tested := taken.test (p := fun s _ => s.testWrites fun x r => decide (AddsToClks x r.mcg))
    (by decide)
  exact of_decide_eq_true (writes.test tested)

/-- `fei_fbe` fails on `OSCINIT0` behind its write of `C1`, the reference switches all the same, and
`fee_fbi` takes the result for FEE. -/
def reservedTape : List (SessionEvent Transition ClockMove) :=
  [.call (.feiFbe 8000000 0 1), .access, .access, .access, .access, .access, .move (.oscinit0 true),
    .access, .move (.oscinit0 false), .access, .access, .move .irefst, .call (.feeFbi 32768 0),
    .access, .access, .access, .access, .access, .access]

theorem clks_reserved : ¬ ∀ tape s, (clockSessions resetRegisters resetStatus).run tape = some s →
    s.registers.mcg.clks ≠ 3 := by
  intro never
  have reserved : ((clockSessions resetRegisters resetStatus).run reservedTape).map
      (fun s => s.registers.mcg.clks) = some 3 := by decide
  obtain ⟨s, ran, clks⟩ := Option.map_eq_some_iff.mp reserved
  exact never reservedTape s ran clks

end WirelessSpeakers.Soundness
