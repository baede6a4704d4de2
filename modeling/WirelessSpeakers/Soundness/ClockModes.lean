import WirelessSpeakers.Soundness.ClockEdits
import WirelessSpeakers.Soundness.ClockRules

/-! # The mode automaton of the MCG

While no poll times out, the MCG is in a mode at every call boundary: the control bits command it and
the status bits have caught up. Inside a transition the control bits already command the next mode
while some status bits lag behind; `Heading` says which ones have arrived. Every intermediate command
of every transition is again that of a mode.
-/

namespace WirelessSpeakers.Soundness

open Model Program TapeMachine

/-- The `CLKS` that commands a mode. -/
def clksOf : ClockMode → BitVec 2
  | .fei | .fee | .pee => 0
  | .fbi | .blpi => 1
  | .fbe | .blpe | .pbe => 2

/-- The `LP` that commands a mode. -/
def lowPower : ClockMode → Bool
  | .blpi | .blpe => true
  | .fbi | .fei | .fee | .fbe | .pbe | .pee => false

/-- The control bits command `mode`; `IREFST`, `PLLST` and `CLKST` have arrived where `i`, `p` and `k`
say so. With `CLKS` 0 the arrival of `CLKST` depends on that of `PLLST`. -/
structure Heading (mode : ClockMode) (i p k : Bool) (mcg : Mcg) (v : ClockStatus) : Prop where
  clks : mcg.clks = clksOf mode
  irefs : mcg.irefs = mode.irefst
  plls : ∀ b ∈ mode.pllst, mcg.plls = b
  lp : mcg.lp = lowPower mode
  irefst : i → v.irefst = mode.irefst
  pllst : p → v.pllst = mcg.plls
  clkst : k → v.clkst = mode.clkst
  order : k → clksOf mode = 0 → p

/-- The MCG is in `mode`. -/
abbrev Holds (mode : ClockMode) : Mcg → ClockStatus → Prop := Heading mode true true true

namespace Heading

variable {mode mode' : ClockMode} {i p k i' p' k' : Bool} {mcg mcg' : Mcg} {r : ClockRegisters}
  {v w : ClockStatus}

theorem move (heading : Heading mode i p k r.mcg v) {m : ClockMove}
    (moved : mcgHardware.apply r v m = some w) : Heading mode i p k r.mcg w := by
  obtain ⟨clks, irefs, plls, lp, irefst, pllst, clkst, order⟩ := heading
  cases m with
  | irefst =>
    cases moved
    exact ⟨clks, irefs, plls, lp, fun _ => irefs, pllst, clkst, order⟩
  | pllst =>
    cases moved
    exact ⟨clks, irefs, plls, lp, irefst, fun _ => rfl, clkst, order⟩
  | clkst =>
    obtain ⟨x, commanded, rfl⟩ := Option.map_eq_some_iff.mp moved
    refine ⟨clks, irefs, plls, lp, irefst, pllst, fun arrived => ?_, order⟩
    have direct : clksOf mode = 0 → v.pllst = r.mcg.plls := fun zero => pllst (order arrived zero)
    cases mode <;> simp_all [commandedClkst, clksOf, ClockMode.clkst, ClockMode.pllst]
  | ircst | oscinit0 | lock0 | rtc =>
    cases moved
    exact ⟨clks, irefs, plls, lp, irefst, pllst, clkst, order⟩

theorem reach (heading : Heading mode i p k r.mcg v) (reach : mcgHardware.Reach r v w) :
    Heading mode i p k r.mcg w :=
  Hardware.Stable.reach (P := fun r v => Heading mode i p k r.mcg v)
    (fun _ _ _ _ held moved => held.move moved) heading reach

/-- New commands; what had arrived stays so where the command did not change. -/
theorem redirect (heading : Heading mode i p k mcg v) (clks : mcg'.clks = clksOf mode')
    (irefs : mcg'.irefs = mode'.irefst) (plls : ∀ b ∈ mode'.pllst, mcg'.plls = b)
    (lp : mcg'.lp = lowPower mode') (irefst : i' → i ∧ mode'.irefst = mode.irefst)
    (pllst : p' → p ∧ mcg'.plls = mcg.plls) (clkst : k' → k ∧ mode'.clkst = mode.clkst)
    (order : k' → clksOf mode' = 0 → p') : Heading mode' i' p' k' mcg' v where
  clks := clks
  irefs := irefs
  plls := plls
  lp := lp
  irefst here := (heading.irefst (irefst here).1).trans (irefst here).2.symm
  pllst here := (heading.pllst (pllst here).1).trans (pllst here).2.symm
  clkst here := (heading.clkst (clkst here).1).trans (clkst here).2.symm
  order := order

end Heading

section

variable {mode m : ClockMode} {r : ClockRegisters} {v w : ClockStatus}

/-- In a mode, the tests of the other modes fail. -/
theorem Heading.mode_eq (holds : Holds m r.mcg v) (clkst : m.clkst = mode.clkst)
    (irefst : m.irefst = mode.irefst) (pllst : ∀ b ∈ mode.pllst, v.pllst = b)
    (lp : ∀ b ∈ mode.lp, r.mcg.lp = b) : m = mode := by
  have plls := holds.plls
  have low := holds.lp
  have same := holds.pllst rfl
  cases m <;> cases mode <;>
    simp_all [ClockMode.clkst, ClockMode.irefst, ClockMode.pllst, ClockMode.lp, lowPower]

theorem Heading.shows (holds : Holds m r.mcg v) : m.Shows r.mcg v := by
  refine ⟨holds.clkst rfl, holds.irefst rfl, fun b wanted => ?_, fun b wanted => ?_⟩
  · exact (holds.pllst rfl).trans (holds.plls b wanted)
  · rw [holds.lp]
    cases m <;> simp_all [ClockMode.lp, lowPower]

theorem Heading.of_seen (holds : Holds m r.mcg v) (seen : mode.Seen mcgHardware r v w) : m = mode := by
  obtain ⟨⟨u₁, reach₁, _, clkst⟩, ⟨u₂, reach₂, _, irefst⟩, pllst, lp⟩ := seen
  refine holds.mode_eq ?_ ?_ ?_ lp
  · exact ((holds.reach reach₁).clkst rfl).symm.trans clkst
  · exact ((holds.reach reach₂).irefst rfl).symm.trans irefst
  · intro b wanted
    obtain ⟨u₃, reach₃, _, pllst⟩ := pllst b wanted
    exact ((holds.pllst rfl).trans ((holds.reach reach₃).pllst rfl).symm).trans pllst

theorem Heading.of_missed (holds : Holds m r.mcg v)
    (missed : Sometime mcgHardware r v w fun u => ¬ mode.Shows r.mcg u) : m ≠ mode := by
  rintro rfl
  obtain ⟨u, reach, _, not⟩ := missed
  exact not (holds.reach reach).shows

/-- The contract of a call on the documented hardware. -/
abbrev onHardware : Contract ClockRegisters ClockStatus := mcgHardware.plain

/-- A guard in a known mode. -/
theorem ensures_requireMode_of {Q : Except ℤ Unit → ClockRegisters → ClockStatus → Prop}
    (holds : Holds m r.mcg v) (passed : m = mode → ∀ w, Holds m r.mcg w → Q (.ok ()) r w)
    (refused : m ≠ mode → ∀ w, Holds m r.mcg w → Q (.error mode.guardCode) r w) :
    (requireMode mode).Ensures onHardware Q r v := by
  apply ensures_requireMode
  · exact fun w reach seen => passed (holds.of_seen seen) w (holds.reach reach)
  · exact fun w reach missed => refused (holds.of_missed missed) w (holds.reach reach)

/-- The guard of a call in its own mode. -/
theorem Heading.enter {α : Type} {rest : ClockDriver α}
    {Q : Except ℤ α → ClockRegisters → ClockStatus → Prop} (holds : Holds mode r.mcg v)
    (passed : ∀ w, Holds mode r.mcg w → rest.Ensures onHardware Q r w) :
    (do requireMode mode; rest).Ensures onHardware Q r v :=
  ensures_bind.mpr (ensures_requireMode_of holds (fun _ => passed) (absurd rfl))

/-- `what_mcg_mode` tests the right mode first. -/
theorem ensures_firstMode_of {modes : List ClockMode} (listed : m ∈ modes) (holds : Holds m r.mcg v) :
    (firstMode modes).Ensures onHardware (fun out _ _ => out = .ok (some m)) r v := by
  induction modes generalizing v with
  | nil => exact absurd listed List.not_mem_nil
  | cons mode rest ih =>
    refine ensures_bind.mpr (ensures_inMode (fun w _ seen => ?_) fun w reach missed => ?_)
    · refine ensures_ite.mpr ⟨fun _ => ?_, fun no => absurd rfl no⟩
      cases holds.of_seen seen
      exact rfl
    · refine ensures_ite.mpr ⟨fun yes => absurd yes Bool.false_ne_true, fun _ => ?_⟩
      have other := List.mem_of_ne_of_mem (holds.of_missed missed) listed
      exact ih other (holds.reach reach)

theorem ensures_whatMcgMode (holds : Holds m r.mcg v) :
    whatMcgMode.Ensures onHardware (fun out _ _ => out = .ok (some m)) r v :=
  ensures_firstMode_of (by cases m <;> decide) holds

end

/-- The edit leaves the commanded mode alone. -/
def Aside (f : ClockRegisters → ClockRegisters) : Prop :=
  ∀ r, (f r).mcg.clks = r.mcg.clks ∧ (f r).mcg.irefs = r.mcg.irefs ∧
    (f r).mcg.plls = r.mcg.plls ∧ (f r).mcg.lp = r.mcg.lp

/-- Nothing is asked of a call whose poll timed out. -/
def Excuses {α : Type} (Q : Except ℤ α → ClockRegisters → ClockStatus → Prop) : Prop :=
  ∀ code ∈ timeoutCodes, ∀ r v, Q (.error code) r v

namespace Heading

variable {mode : ClockMode} {i p k : Bool} {r : ClockRegisters} {v : ClockStatus} {α : Type}
  {Q : Except ℤ α → ClockRegisters → ClockStatus → Prop} {rest : ClockDriver α}

theorem aside (heading : Heading mode i p k r.mcg v) {f : ClockRegisters → ClockRegisters}
    (away : Aside f) : Heading mode i p k (f r).mcg v := by
  obtain ⟨clks, irefs, plls, lp⟩ := away r
  apply heading.redirect
  · exact clks.trans heading.clks
  · exact irefs.trans heading.irefs
  · exact fun b wanted => plls.trans (heading.plls b wanted)
  · exact lp.trans heading.lp
  · exact fun here => ⟨here, rfl⟩
  · exact fun here => ⟨here, plls⟩
  · exact fun here => ⟨here, rfl⟩
  · exact heading.order

/-- An assignment to `C1` turns to another mode with the same PLL switch. -/
theorem turnC1 (heading : Heading mode i true k r.mcg v) (mode' : ClockMode) (clear set : BitVec 8)
    (clks : assign (clksOf mode) (clear.extractLsb' 6 2) (set.extractLsb' 6 2) = clksOf mode')
    (irefs : (mode.irefst && !clear.getLsbD 2 || set.getLsbD 2) = mode'.irefst)
    (pllst : ∀ b ∈ mode'.pllst, b ∈ mode.pllst) (lp : lowPower mode = lowPower mode') :
    Heading mode' (i && mode'.irefst == mode.irefst) true (k && mode'.clkst == mode.clkst)
      ((ClockEdit.c1 clear set).apply r).mcg v := by
  apply heading.redirect
  · rw [ClockEdit.clks_apply, heading.clks]
    exact clks
  · rw [ClockEdit.irefs_apply, heading.irefs]
    exact irefs
  · exact fun b wanted => heading.plls b (pllst b wanted)
  · exact heading.lp.trans lp
  · exact fun here => (Bool.and_eq_true_iff.mp here).imp_right eq_of_beq
  · exact fun here => ⟨here, rfl⟩
  · exact fun here => (Bool.and_eq_true_iff.mp here).imp_right eq_of_beq
  · exact fun _ _ => rfl

/-- The external reference, behind any divider, is taken from a mode without PLL and low power. -/
theorem turnExternal (heading : Heading mode i true k r.mcg v) (mode' : ClockMode)
    (clks frdiv : BitVec 8) (clks' : clks.extractLsb' 0 2 = clksOf mode') (irefs : mode'.irefst = false)
    (pllst : ∀ b ∈ mode'.pllst, b ∈ mode.pllst) (lp : lowPower mode = lowPower mode') :
    Heading mode' (i && mode'.irefst == mode.irefst) true (k && mode'.clkst == mode.clkst)
      ((externalEdit clks frdiv).apply r).mcg v := by
  apply heading.turnC1 mode' _ _ _ _ pllst lp
  · rw [← clks']
    apply BitVec.eq_of_getElem_eq
    intro j within
    have here : j = 0 ∨ j = 1 := by omega
    rcases here with rfl | rfl <;> simp [assign]
  · simp [irefs]

/-- An assignment to `C6` switches the PLL behind an external clock. -/
theorem turnPlls (heading : Heading mode i p k r.mcg v) (mode' : ClockMode) (clear set : BitVec 8)
    (plls : ∀ b ∈ mode'.pllst, (r.mcg.plls && !clear.getLsbD 6 || set.getLsbD 6) = b)
    (external : clksOf mode = 2 ∧ clksOf mode' = 2) (irefst : mode'.irefst = mode.irefst)
    (clkst : mode'.clkst = mode.clkst) (lp : lowPower mode = lowPower mode') :
    Heading mode' i false k ((ClockEdit.c6 clear set).apply r).mcg v := by
  apply heading.redirect
  · exact heading.clks.trans (external.1.trans external.2.symm)
  · exact heading.irefs.trans irefst.symm
  · intro b wanted
    rw [ClockEdit.plls_apply]
    exact plls b wanted
  · exact heading.lp.trans lp
  · exact fun here => ⟨here, irefst⟩
  · exact fun here => absurd here Bool.false_ne_true
  · exact fun here => ⟨here, clkst⟩
  · exact fun _ zero => absurd (external.2.symm.trans zero) (by decide)

/-- The write of the second divider switches the PLL on. -/
theorem turnVdiv (heading : Heading mode i p k r.mcg v) (mode' : ClockMode) (d : ℤ)
    (plls : ∀ b ∈ mode'.pllst, b = true) (external : clksOf mode = 2 ∧ clksOf mode' = 2)
    (irefst : mode'.irefst = mode.irefst) (clkst : mode'.clkst = mode.clkst)
    (lp : lowPower mode = lowPower mode') :
    Heading mode' i false k ((vdivEdit d).apply r).mcg v :=
  heading.turnPlls mode' _ _ (fun b wanted => by simp [plls b wanted]) external irefst clkst lp

/-- An assignment to `C2` switches the low power. -/
theorem turnLp (heading : Heading mode i p k r.mcg v) (mode' : ClockMode) (clear set : BitVec 8)
    (lp : (lowPower mode && !clear.getLsbD 1 || set.getLsbD 1) = lowPower mode')
    (plls : ∀ b ∈ mode'.pllst, r.mcg.plls = b) (clks : clksOf mode' = clksOf mode)
    (irefst : mode'.irefst = mode.irefst) (clkst : mode'.clkst = mode.clkst) :
    Heading mode' i p k ((ClockEdit.c2 clear set).apply r).mcg v := by
  apply heading.redirect
  · exact heading.clks.trans clks.symm
  · exact heading.irefs.trans irefst.symm
  · exact plls
  · rw [ClockEdit.lp_apply, heading.lp]
    exact lp
  · exact fun here => ⟨here, irefst⟩
  · exact fun here => ⟨here, rfl⟩
  · exact fun here => ⟨here, clkst⟩
  · exact fun here zero => heading.order here (clks.symm.trans zero)

/-- An edit, and what it makes of the way to a mode. -/
theorem edit {e : ClockEdit} (heading : Heading mode i p k r.mcg v)
    (after : ∀ w, Heading mode i p k r.mcg w → rest.Ensures onHardware Q (e.apply r) w) :
    (do ClockDriver.edit e; rest).Ensures onHardware Q r v :=
  ensures_bind.mpr fun w reach _ => ⟨trivial, after w (heading.reach reach)⟩

/-- A poll that succeeds, if it does not time out. -/
theorem poll {n : ℕ} {cond : ClockStatus → Bool} {code : ℤ} (heading : Heading mode i p k r.mcg v)
    (excuses : Excuses Q) (timeout : code ∈ timeoutCodes)
    (after : ∀ w, cond w → Heading mode i p k r.mcg w → rest.Ensures onHardware Q r w) :
    (do wait n cond code; rest).Ensures onHardware Q r v := by
  refine ensures_bind.mpr (ensures_wait.mpr fun w reach => ⟨fun seen => ?_, fun _ => ?_⟩)
  · exact after w seen (heading.reach reach)
  · exact excuses code timeout r w

/-- A poll that is made only for a crystal. -/
theorem pollOscinit {cond : Bool} {n : ℕ} (heading : Heading mode i p k r.mcg v)
    (excuses : Excuses Q)
    (after : ∀ w, Heading mode i p k r.mcg w → rest.Ensures onHardware Q r w) :
    (do ClockDriver.onlyIf cond (waitOscinit n); rest).Ensures onHardware Q r v := by
  refine ensures_bind.mpr (ensures_onlyIf.mpr ⟨fun _ => ?_, fun _ => after v heading⟩)
  have timeout : 0x23 ∈ timeoutCodes := by decide
  exact ensures_bind.mp (heading.poll excuses timeout fun w _ => after w)

theorem pollIrcst {b : Bool} (heading : Heading mode i p k r.mcg v) (excuses : Excuses Q)
    (after : ∀ w, Heading mode i p k r.mcg w → rest.Ensures onHardware Q r w) :
    (do waitIrcst b; rest).Ensures onHardware Q r v := by
  apply heading.poll excuses
  · cases b <;> decide
  · exact fun w _ => after w

theorem pollIrefst (heading : Heading mode i p k r.mcg v) (excuses : Excuses Q)
    (after : ∀ w, Heading mode true p k r.mcg w → rest.Ensures onHardware Q r w) :
    (do waitIrefst mode.irefst; rest).Ensures onHardware Q r v := by
  apply heading.poll excuses
  · cases mode <;> decide
  · intro w seen heading
    exact after w { heading with irefst := fun _ => eq_of_beq seen }

theorem pollPllst {b : Bool} (heading : Heading mode i p k r.mcg v) (excuses : Excuses Q)
    (wanted : b ∈ mode.pllst)
    (after : ∀ w, Heading mode i true k r.mcg w → rest.Ensures onHardware Q r w) :
    (do waitPllst b; rest).Ensures onHardware Q r v := by
  apply heading.poll excuses
  · cases b <;> decide
  · intro w seen heading
    have arrived : w.pllst = r.mcg.plls := (eq_of_beq seen).trans (heading.plls b wanted).symm
    exact after w { heading with pllst := fun _ => arrived, order := fun _ _ => rfl }

theorem pollClkst (heading : Heading mode i p k r.mcg v) (excuses : Excuses Q)
    (order : clksOf mode = 0 → p)
    (after : ∀ w, Heading mode i p true r.mcg w → rest.Ensures onHardware Q r w) :
    (do waitClkst mode.clkst; rest).Ensures onHardware Q r v := by
  apply heading.poll excuses
  · cases mode <;> decide
  · intro w seen heading
    exact after w { heading with clkst := fun _ => eq_of_beq seen, order := fun _ => order }

end Heading

end WirelessSpeakers.Soundness
