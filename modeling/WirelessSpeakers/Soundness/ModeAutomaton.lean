import WirelessSpeakers.Soundness.ClockModes

/-! # Every transition reaches its mode

Between calls the MCG is in a mode as long as no poll has timed out: a refused call leaves the mode, a
successful one ends in the mode of its name. So `what_mcg_mode` reports that mode after the call, and
goes on doing so while the hardware moves.
-/

namespace WirelessSpeakers.Soundness

open Model Program TapeMachine

section

variable {m : ClockMode} {c p d f : ℤ} {h e s : BitVec 8} {r : ClockRegisters} {v : ClockStatus}
  {Q : Except ℤ ℤ → ClockRegisters → ClockStatus → Prop}

theorem aside_ircsEdit : Aside (ircsEdit s).apply := by
  intro r
  rw [ircsEdit_eq]
  split <;> simp

theorem aside_oscillatorEdit {range : BitVec 8} : Aside (oscillatorEdit range h e).apply := by
  intro r
  simp [oscillatorEdit]

theorem aside_prdivEdit : Aside (prdivEdit p).apply := by
  intro r
  simp [prdivEdit]

theorem aside_cme0 {clear set : BitVec 8} (cleared : clear.getLsbD 6 = false)
    (unset : set.getLsbD 6 = false) : Aside (ClockEdit.c6 clear set).apply := by
  intro r
  rw [BitVec.getLsbD_eq_getElem (by decide)] at cleared unset
  simp [cleared, unset]

/-- `fei_fbi`. -/
theorem ensures_feiFbi (holds : Holds .fei r.mcg v) (excuses : Excuses Q)
    (refused : ¬ IrcFits f s → ∀ code w, Holds .fei r.mcg w → Q (.error code) r w)
    (arrived : let r' := (ClockEdit.c1 c1ClksMask (c1Clks 1)).apply ((ircsEdit s).apply r)
      IrcFits f s → ∀ a w, Holds .fbi r'.mcg w → Q (.ok a) r' w) :
    (feiFbi f s).Ensures onHardware Q r v := by
  apply holds.enter
  intro w holds
  apply ensures_checkIrc (fun unfit code => refused unfit code w holds)
  intro fits
  apply holds.edit
  intro w holds
  apply (holds.aside aside_ircsEdit).edit
  intro w holds
  have turned := holds.turnC1 .fbi c1ClksMask (c1Clks 1) (by decide) (by decide)
    (by decide) (by decide)
  apply turned.pollIrcst excuses
  intro w turned
  apply turned.pollClkst excuses (by decide)
  intro w holds
  exact ensures_ircOut fun a => arrived fits a w holds

/-- From the writes of `C2` and `C1` to FBE, for any low band. -/
theorem ensures_enterFbe {range : BitVec 8} {n : ℕ} {rest : ClockDriver ℤ} (holds : Holds m r.mcg v)
    (pllst : false ∈ m.pllst) (lp : lowPower m = false) (excuses : Excuses Q)
    (arrived : let r' := (ClockEdit.c6 0 c6Cme0Mask).apply ((externalEdit 2 (frdivVal c)).apply
        ((oscillatorEdit range h e).apply r))
      ∀ w, Holds .fbe r'.mcg w → rest.Ensures onHardware Q r' w) :
    (do
      ClockDriver.edit (oscillatorEdit range h e)
      ClockDriver.edit (externalEdit 2 (frdivVal c))
      ClockDriver.onlyIf (e ≠ 0) (waitOscinit n)
      waitIrefst false
      waitClkst 2
      enableMonitor
      rest).Ensures onHardware Q r v := by
  apply holds.edit
  intro w holds
  apply (holds.aside aside_oscillatorEdit).edit
  intro w holds
  have turned := holds.turnExternal .fbe 2 (frdivVal c) (by decide) (by decide)
    (by simpa [ClockMode.pllst] using pllst) lp
  apply turned.pollOscinit excuses
  intro w turned
  apply turned.pollIrefst excuses
  intro w turned
  apply turned.pollClkst excuses (by decide)
  intro w holds
  apply holds.edit
  intro w holds
  exact arrived w (holds.aside (aside_cme0 (by decide) (by decide)))

/-- From the writes of the dividers to PBE. -/
theorem ensures_enterPbe {n : ℕ} {rest : ClockDriver ℤ} (holds : Holds .fbe r.mcg v)
    (excuses : Excuses Q)
    (arrived : let r' := (vdivEdit d).apply ((prdivEdit p).apply r)
      ∀ w, Holds .pbe r'.mcg w → rest.Ensures onHardware Q r' w) :
    (do
      ClockDriver.edit (prdivEdit p)
      ClockDriver.edit (vdivEdit d)
      waitPllst true
      waitLock n
      rest).Ensures onHardware Q r v := by
  apply holds.edit
  intro w holds
  apply (holds.aside aside_prdivEdit).edit
  intro w holds
  have turned := holds.turnVdiv .pbe d (by decide) (by decide) rfl rfl rfl
  apply turned.pollPllst excuses (by decide)
  intro w holds
  exact holds.poll excuses (by decide) fun w _ holds => arrived w holds

/-- `fei_fbe` and `fbi_fbe`, behind the guard. -/
theorem ensures_toFbe (holds : Holds m r.mcg v) (pllst : false ∈ m.pllst) (lp : lowPower m = false)
    (excuses : Excuses Q)
    (refused : ¬ CrystalFits c e → ∀ w, Holds m r.mcg w → Q (.error (crystalCode c)) r w)
    (arrived : let r' := (ClockEdit.c6 0 c6Cme0Mask).apply ((externalEdit 2 (frdivVal c)).apply
        ((oscillatorEdit (rangeVal c) h e).apply r))
      CrystalFits c e → ∀ w, Holds .fbe r'.mcg w → Q (.ok c) r' w) :
    (toFbe c h e).Ensures onHardware Q r v := by
  apply ensures_checkCrystal (fun unfit => refused unfit v holds)
  intro fits
  exact ensures_enterFbe holds pllst lp excuses (arrived fits)

/-- `fbe_pbe`. -/
theorem ensures_fbePbe (holds : Holds .fbe r.mcg v) (excuses : Excuses Q)
    (refused : ¬ PllFits c p d → ∀ code w, Holds .fbe r.mcg w → Q (.error code) r w)
    (arrived : let r' := (vdivEdit d).apply ((prdivEdit p).apply r)
      PllFits c p d → ∀ w, Holds .pbe r'.mcg w → Q (.ok c) r' w) :
    (fbePbe c p d).Ensures onHardware Q r v := by
  apply holds.enter
  intro w holds
  apply ensures_checkPll (fun unfit code _ => refused unfit code w holds)
  intro fits
  exact ensures_enterPbe holds excuses (arrived fits)

/-- The end of `pbe_pee` and `pll_init`. -/
theorem ensures_switchToPll (holds : Holds .pbe r.mcg v) (excuses : Excuses Q)
    (arrived : let r' := (ClockEdit.c1 c1ClksMask 0).apply r
      ∀ w, Holds .pee r'.mcg w → Q (.ok (int (c.tdiv r.mcg.prdiv * r.mcg.vdiv))) r' w) :
    (switchToPll c).Ensures onHardware Q r v := by
  apply holds.edit
  intro w holds
  have turned := holds.turnC1 .pee c1ClksMask 0 (by decide) (by decide)
    (by decide) (by decide)
  exact turned.pollClkst excuses (fun _ => rfl) arrived

/-- `pbe_pee`. -/
theorem ensures_pbePee (holds : Holds .pbe r.mcg v) (excuses : Excuses Q)
    (arrived : let r' := (ClockEdit.c1 c1ClksMask 0).apply r
      ∀ w, Holds .pee r'.mcg w → Q (.ok (int (c.tdiv r.mcg.prdiv * r.mcg.vdiv))) r' w) :
    (pbePee c).Ensures onHardware Q r v := by
  apply holds.enter
  intro w holds
  apply holds.poll excuses (by decide)
  intro w _ holds
  exact ensures_switchToPll holds excuses arrived

/-- The checks of `pll_init`. -/
def InitFits (crystalVal : ℤ) (erefsVal : BitVec 8) (prdivVal vdivVal : ℤ) : Prop :=
  crystalVal ≤ 50000000 ∧ (erefsVal ≠ 0 → 3000000 ≤ crystalVal ∧ crystalVal ≤ 32000000) ∧
    PllFits crystalVal prdivVal vdivVal

/-- Nothing else is checked. -/
theorem InitFits.of_checks (small : ¬ c > 50000000)
    (right : ¬ (decide (e ≠ 0) = true ∧ (c < 3000000 ∨ c > 32000000))) (pll : PllFits c p d) :
    InitFits c e p d := by
  refine ⟨by omega, fun crystal => ?_, pll⟩
  have band := not_and.mp right (decide_eq_true crystal)
  omega

/-- `pll_init`. -/
theorem ensures_pllInit (select : BitVec 8) (holds : Holds .fei r.mcg v) (excuses : Excuses Q)
    (refused : ¬ InitFits c e p d → ∀ code w, Holds .fei r.mcg w → Q (.error code) r w)
    (arrived : let pbe := (vdivEdit d).apply ((prdivEdit p).apply ((ClockEdit.c6 0 c6Cme0Mask).apply
        ((externalEdit 2 (frdivVal c)).apply
          ((oscillatorEdit (if c ≤ 8000000 then 1 else 2) h e).apply r))))
      let r' := (ClockEdit.c1 c1ClksMask 0).apply pbe
      InitFits c e p d →
        ∀ w, Holds .pee r'.mcg w → Q (.ok (int (c.tdiv pbe.mcg.prdiv * pbe.mcg.vdiv))) r' w) :
    (pllInit c h e p d select).Ensures onHardware Q r v := by
  unfold InitFits at refused arrived
  apply holds.enter
  intro w holds
  apply ensures_check
  · exact fun large => refused (by omega) _ w holds
  intro small
  apply ensures_checkIf
  · rintro ⟨crystal, wrong⟩
    refine refused (fun fits => ?_) _ w holds
    have band := fits.2.1 (of_decide_eq_true crystal)
    omega
  intro right
  refine ensures_checkPll (fun unfit code _ => refused (fun fits => unfit fits.2.2) code w holds)
    fun pll => ?_
  have fits := InitFits.of_checks small right pll
  refine ensures_enterFbe holds (by decide) (by decide) excuses fun w holds => ?_
  refine ensures_enterPbe holds excuses fun w holds => ?_
  exact ensures_switchToPll holds excuses (arrived fits)

end

/-- What a call leaves: its poll timed out, or the MCG is in a mode, which is `target` if the call
succeeded. -/
def Lands (target : ClockMode) (out : Except ℤ ℤ) (r : ClockRegisters) (v : ClockStatus) : Prop :=
  TimedOut out ∨ ∃ m, Holds m r.mcg v ∧ ∀ f, out = .ok f → m = target

namespace Lands

variable {m mode target : ClockMode} {r : ClockRegisters} {v : ClockStatus} {α : Type}

theorem excuses : Excuses (Lands target) := fun code timeout _ _ => .inl ⟨code, timeout, rfl⟩

theorem refused {e : ℤ} (holds : Holds m r.mcg v) : Lands target (.error e) r v :=
  .inr ⟨m, holds, fun _ same => by cases same⟩

theorem arrived {f : ℤ} (holds : Holds target r.mcg v) : Lands target (.ok f) r v :=
  .inr ⟨target, holds, fun _ _ => rfl⟩

/-- The mode guard comes first. -/
theorem guard {rest : ClockDriver ℤ} (holds : Holds m r.mcg v)
    (passed : ∀ w, Holds mode r.mcg w → rest.Ensures onHardware (Lands target) r w) :
    (do requireMode mode; rest).Ensures onHardware (Lands target) r v := by
  refine ensures_bind.mpr (ensures_requireMode_of holds ?_ fun _ w holds => refused holds)
  rintro rfl w holds
  exact passed w holds

/-- Outside its starting mode a call is refused. -/
theorem outside {rest : ClockDriver ℤ} (holds : Holds m r.mcg v)
    (inside : m = mode → (do requireMode mode; rest).Ensures onHardware (Lands target) r v) :
    (do requireMode mode; rest).Ensures onHardware (Lands target) r v := by
  by_cases here : m = mode
  · exact inside here
  · refine ensures_bind.mpr (ensures_requireMode_of holds (fun there => absurd there here) ?_)
    exact fun _ w holds => refused holds

/-- Checks, and edits of other fields, leave the mode. -/
theorem aside {q : ClockDriver α} {next : α → ClockDriver ℤ} (holds : Holds m r.mcg v)
    (stores : q.Stores Aside fun _ => True)
    (rest : ∀ a r w, Holds m r.mcg w → (next a).Ensures onHardware (Lands target) r w) :
    (q >>= next).Ensures onHardware (Lands target) r v := by
  have keeps : q.Keeps onHardware fun r v => Holds m r.mcg v :=
    stores.mono fun f away r v _ held => held.aside away
  apply keeps.bind _ (fun _ _ _ => trivial) holds (fun _ _ _ => refused) rest
  exact fun _ _ _ _ held moved => held.move moved

theorem done {q : ClockDriver ℤ} (holds : Holds target r.mcg v)
    (stores : q.Stores Aside fun _ => True) : q.Ensures onHardware (Lands target) r v := by
  rw [← bind_pure q]
  exact aside holds stores fun _ _ _ holds => arrived holds

end Lands

section

variable {m target : ClockMode} {c p d f : ℤ} {h e s : BitVec 8} {r : ClockRegisters}
  {v : ClockStatus}

theorem stores_checkSlowIrc : (checkSlowIrc f).Stores Aside fun _ => True := by
  simp [checkSlowIrc]

theorem stores_checkIrc : (checkIrc f s).Stores Aside fun _ => True := by
  simp [checkIrc, checkSlowIrc]

theorem stores_checkFll : (checkFll f).Stores Aside fun _ => True := by
  simp [checkFll]

theorem stores_ircOut : (ircOut f s).Stores Aside fun _ => True := by
  simp [ircOut]

theorem stores_disableMonitor : disableMonitor.Stores Aside fun _ => True :=
  stores_edit.mpr ⟨aside_cme0 (by decide) (by decide), trivial⟩

theorem stores_enableMonitor : enableMonitor.Stores Aside fun _ => True :=
  stores_edit.mpr ⟨aside_cme0 (by decide) (by decide), trivial⟩

theorem stores_ircsEdit : (ClockDriver.edit (ircsEdit s)).Stores Aside fun _ => True :=
  stores_edit.mpr ⟨aside_ircsEdit, trivial⟩

namespace Lands

theorem pllInit (select : BitVec 8) (holds : Holds m r.mcg v) :
    (Model.pllInit c h e p d select).Ensures onHardware (Lands .pee) r v := by
  refine outside holds ?_
  rintro rfl
  exact ensures_pllInit select holds excuses (fun _ _ w => refused) fun _ w => arrived

theorem peePbe (holds : Holds m r.mcg v) :
    (Model.peePbe c).Ensures onHardware (Lands .pbe) r v := by
  apply guard holds
  intro w holds
  apply holds.edit
  intro w holds
  have turned := holds.turnC1 .pbe 0 (c1Clks 2) (by decide) (by decide)
    (by decide) (by decide)
  exact turned.pollClkst excuses (by decide) fun w holds => arrived holds

theorem pbePee (holds : Holds m r.mcg v) :
    (Model.pbePee c).Ensures onHardware (Lands .pee) r v := by
  refine outside holds ?_
  rintro rfl
  exact ensures_pbePee holds excuses fun w => arrived

theorem pbeFbe (holds : Holds m r.mcg v) :
    (Model.pbeFbe c).Ensures onHardware (Lands .fbe) r v := by
  apply guard holds
  intro w holds
  apply holds.edit
  intro w holds
  have turned := holds.turnPlls .fbe c6PllsMask 0 (by simp [ClockMode.pllst])
    (by decide) rfl rfl rfl
  exact turned.pollPllst excuses (by decide) fun w holds => arrived holds

theorem fbePbe (holds : Holds m r.mcg v) :
    (Model.fbePbe c p d).Ensures onHardware (Lands .pbe) r v := by
  refine outside holds ?_
  rintro rfl
  exact ensures_fbePbe holds excuses (fun _ _ w => refused) fun _ w => arrived

theorem pbeBlpe (holds : Holds m r.mcg v) :
    (Model.pbeBlpe c).Ensures onHardware (Lands .blpe) r v := by
  apply guard holds
  intro w holds
  apply holds.edit
  intro w holds
  exact arrived (holds.turnLp .blpe _ _ (by decide) (by simp [ClockMode.pllst]) rfl rfl rfl)

theorem blpePbe (holds : Holds m r.mcg v) :
    (Model.blpePbe c p d).Ensures onHardware (Lands .pbe) r v := by
  apply guard holds
  intro w holds
  apply aside holds (by simp [checkDividers])
  intro _ r w holds
  apply aside holds (by simp [checkReference])
  intro _ r w holds
  apply holds.edit
  intro w holds
  apply (holds.aside aside_prdivEdit).edit
  intro w holds
  have turned := holds.turnVdiv .blpe d (by decide) (by decide) rfl rfl rfl
  apply turned.edit
  intro w turned
  have turned := turned.turnLp .pbe c2LpMask 0 (by decide)
    (by simp [ClockMode.pllst, vdivEdit]) rfl rfl rfl
  apply turned.pollPllst excuses (by decide)
  intro w holds
  exact holds.poll excuses (by decide) fun w _ holds => arrived holds

theorem blpeFbe (holds : Holds m r.mcg v) :
    (Model.blpeFbe c).Ensures onHardware (Lands .fbe) r v := by
  apply guard holds
  intro w holds
  apply holds.edit
  intro w holds
  have turned := holds.turnPlls .blpe c6PllsMask 0 (by simp [ClockMode.pllst])
    (by decide) rfl rfl rfl
  apply turned.edit
  intro w turned
  have turned := turned.turnLp .fbe c2LpMask 0 (by decide)
    (by simp [ClockMode.pllst]) rfl rfl rfl
  exact turned.pollPllst excuses (by decide) fun w holds => arrived holds

theorem fbeBlpe (holds : Holds m r.mcg v) :
    (Model.fbeBlpe c).Ensures onHardware (Lands .blpe) r v := by
  apply guard holds
  intro w holds
  apply holds.edit
  intro w holds
  exact arrived (holds.turnLp .blpe _ _ (by decide) (by simp [ClockMode.pllst]) rfl rfl rfl)

/-- The guard and the checks of an exit to FEI. -/
theorem checked {mode : ClockMode} {next : ℤ → ClockDriver ℤ} (holds : Holds m r.mcg v)
    (rest : ∀ a r w, Holds mode r.mcg w → (next a).Ensures onHardware (Lands target) r w) :
    (do requireMode mode; checkSlowIrc f; checkFll f >>= next).Ensures onHardware (Lands target) r v := by
  apply guard holds
  intro w holds
  apply aside holds stores_checkSlowIrc
  intro _ r w holds
  exact aside holds stores_checkFll rest

theorem fbeFei (holds : Holds m r.mcg v) :
    (Model.fbeFei f).Ensures onHardware (Lands .fei) r v := by
  apply checked holds
  intro out r w holds
  apply aside holds stores_disableMonitor
  intro _ r w holds
  apply holds.edit
  intro w holds
  have turned := holds.turnC1 .fei c1ClksMask c1IrefsMask (by decide)
    (by decide) (by decide) (by decide)
  apply turned.pollIrefst excuses
  intro w turned
  exact turned.pollClkst excuses (fun _ => rfl) fun w holds => arrived holds

theorem feiFbe (holds : Holds m r.mcg v) :
    (Model.feiFbe c h e).Ensures onHardware (Lands .fbe) r v := by
  apply guard holds
  intro w holds
  exact ensures_toFbe holds rfl rfl excuses (fun _ w => refused) fun _ w => arrived

theorem fbiFbe (holds : Holds m r.mcg v) :
    (Model.fbiFbe c h e).Ensures onHardware (Lands .fbe) r v := by
  apply guard holds
  intro w holds
  exact ensures_toFbe holds rfl rfl excuses (fun _ w => refused) fun _ w => arrived

theorem fbeFee (holds : Holds m r.mcg v) :
    (Model.fbeFee c).Ensures onHardware (Lands .fee) r v := by
  apply guard holds
  intro w holds
  apply aside holds (by simp)
  intro range r w holds
  apply aside holds (by simp)
  intro frdiv r w holds
  apply aside holds stores_checkFll
  intro out r w holds
  apply holds.edit
  intro w holds
  have turned := holds.turnC1 .fee c1ClksMask 0 (by decide) (by decide)
    (by decide) (by decide)
  exact turned.pollClkst excuses (fun _ => rfl) fun w holds => arrived holds

theorem feeFbe (holds : Holds m r.mcg v) :
    (Model.feeFbe c).Ensures onHardware (Lands .fbe) r v := by
  apply guard holds
  intro w holds
  apply holds.edit
  intro w holds
  have turned := holds.turnC1 .fbe 0 (c1Clks 2) (by decide) (by decide)
    (by decide) (by decide)
  exact turned.pollClkst excuses (by decide) fun w holds => arrived holds

/-- The common body of `fbe_fbi` and `fee_fbi`, which clear different bits of `C1`. -/
theorem externalFbi {clear : BitVec 8} {mode : ClockMode} (holds : Holds m r.mcg v)
    (turn : ∀ {r w}, Holds mode r.mcg w → Heading .fbi false true false
      ((ClockEdit.c1 clear (c1Clks 1 ||| c1IrefsMask)).apply r).mcg w) :
    (do
      requireMode mode
      checkIrc f s
      ClockDriver.edit (ircsEdit s)
      disableMonitor
      ClockDriver.edit (.c1 clear (c1Clks 1 ||| c1IrefsMask))
      waitIrcst (s ≠ 0)
      waitClkst 1
      waitIrefst true
      ircOut f s).Ensures onHardware (Lands .fbi) r v := by
  apply guard holds
  intro w holds
  apply aside holds stores_checkIrc
  intro _ r w holds
  apply aside holds stores_ircsEdit
  intro _ r w holds
  apply aside holds stores_disableMonitor
  intro _ r w holds
  apply holds.edit
  intro w holds
  have turned := turn holds
  apply turned.pollIrcst excuses
  intro w turned
  apply turned.pollClkst excuses (by decide)
  intro w turned
  exact turned.pollIrefst excuses fun w holds => done holds stores_ircOut

theorem fbeFbi (holds : Holds m r.mcg v) :
    (Model.fbeFbi f s).Ensures onHardware (Lands .fbi) r v :=
  externalFbi holds fun holds => holds.turnC1 .fbi c1ClksMask (c1Clks 1 ||| c1IrefsMask)
    (by decide) (by decide) (by decide) (by decide)

theorem fbiBlpi (holds : Holds m r.mcg v) :
    (Model.fbiBlpi f s).Ensures onHardware (Lands .blpi) r v := by
  apply guard holds
  intro w holds
  apply holds.edit
  intro w holds
  have turned := holds.turnLp .blpi 0 c2LpMask (by decide) holds.plls rfl rfl rfl
  exact done turned stores_ircOut

theorem blpiFbi (holds : Holds m r.mcg v) :
    (Model.blpiFbi f s).Ensures onHardware (Lands .fbi) r v := by
  apply guard holds
  intro w holds
  apply holds.edit
  intro w holds
  have turned := holds.turnLp .fbi c2LpMask 0 (by decide) holds.plls rfl rfl rfl
  exact done turned stores_ircOut

/-- The common head of `fbi_fee` and `fei_fee`, up to the edit of `C1`. -/
theorem toFee {next : ℤ → ClockDriver ℤ} (holds : Holds m r.mcg v) (pllst : false ∈ m.pllst)
    (lp : lowPower m = false)
    (rest : ∀ a r w, Heading .fee (true && ClockMode.fee.irefst == m.irefst) true
      (true && ClockMode.fee.clkst == m.clkst) r.mcg w →
        (next a).Ensures onHardware (Lands target) r w) :
    (Model.toFee c h e >>= next).Ensures onHardware (Lands target) r v := by
  simp only [Model.toFee, bind_assoc]
  apply aside holds (by simp [checkCrystalMax])
  intro _ r w holds
  apply aside holds (by simp [checkCrystal])
  intro _ r w holds
  apply aside holds (stores_edit.mpr ⟨aside_oscillatorEdit, trivial⟩)
  intro _ r w holds
  apply aside holds (by simp)
  intro _ r w holds
  apply aside holds stores_checkFll
  intro out r w holds
  refine holds.edit fun w holds => rest out _ w ?_
  exact holds.turnExternal .fee _ _ (by decide) (by decide) (by simpa [ClockMode.pllst] using pllst) lp

theorem fbiFee (holds : Holds m r.mcg v) :
    (Model.fbiFee c h e).Ensures onHardware (Lands .fee) r v := by
  apply guard holds
  intro w holds
  apply toFee holds rfl rfl
  intro out r w turned
  apply turned.pollOscinit excuses
  intro w turned
  apply turned.pollIrefst excuses
  intro w turned
  apply turned.pollClkst excuses (fun _ => rfl)
  intro w holds
  exact aside holds stores_enableMonitor fun _ r w holds => arrived holds

theorem feeFbi (holds : Holds m r.mcg v) :
    (Model.feeFbi f s).Ensures onHardware (Lands .fbi) r v :=
  externalFbi holds fun holds => holds.turnC1 .fbi 0 (c1Clks 1 ||| c1IrefsMask)
    (by decide) (by decide) (by decide) (by decide)

theorem fbiFei (holds : Holds m r.mcg v) :
    (Model.fbiFei f).Ensures onHardware (Lands .fei) r v := by
  apply checked holds
  intro out r w holds
  apply holds.edit
  intro w holds
  have turned := holds.turnC1 .fei c1ClksMask (c1Clks 0 ||| c1IrefsMask)
    (by decide) (by decide) (by decide) (by decide)
  apply turned.pollIrefst excuses
  intro w turned
  exact turned.pollClkst excuses (fun _ => rfl) fun w holds => arrived holds

theorem feiFbi (holds : Holds m r.mcg v) :
    (Model.feiFbi f s).Ensures onHardware (Lands .fbi) r v := by
  refine outside holds ?_
  rintro rfl
  exact ensures_feiFbi holds excuses (fun _ _ w => refused) fun _ _ w => arrived

theorem feiFee (holds : Holds m r.mcg v) :
    (Model.feiFee c h e).Ensures onHardware (Lands .fee) r v := by
  apply guard holds
  intro w holds
  apply toFee holds rfl rfl
  intro out r w turned
  apply turned.pollOscinit excuses
  intro w turned
  apply turned.pollIrefst excuses
  intro w holds
  exact aside holds stores_enableMonitor fun _ r w holds => arrived holds

theorem feeFei (holds : Holds m r.mcg v) :
    (Model.feeFei f).Ensures onHardware (Lands .fei) r v := by
  apply checked holds
  intro out r w holds
  apply aside holds stores_disableMonitor
  intro _ r w holds
  apply holds.edit
  intro w holds
  have turned := holds.turnC1 .fei 0 c1IrefsMask (by decide) (by decide)
    (by decide) (by decide)
  exact turned.pollIrefst excuses fun w holds => arrived holds

/-- The RTC registers have nothing to do with the mode. -/
theorem feiFeeRtc (holds : Holds m r.mcg v) :
    (Model.feiFeeRtc f).Ensures onHardware (Lands .fee) r v := by
  apply guard holds
  intro w holds
  apply aside holds (by simp)
  intro _ r w holds
  apply aside holds (by simp [enableRtc, Aside])
  intro flags r w holds
  apply aside holds (by simp [rtcCount])
  intro count r w holds
  apply aside holds (by simp)
  intro _ r w holds
  apply aside holds (by simp)
  intro counted r w holds
  apply aside holds (by simp [restoreRtc, Aside])
  intro _ r w holds
  apply aside holds (by simp [restoreRtc, Aside])
  intro _ r w holds
  apply aside holds (by simp [Aside])
  intro _ r w holds
  apply holds.edit
  intro w holds
  have turned := holds.turnC1 .fee (~~~(c1IrclkenMask ||| c1IrefstenMask)) 0
    (by decide) (by decide) (by decide) (by decide)
  apply turned.pollIrefst excuses
  intro w holds
  apply aside holds stores_checkFll
  intro out r w holds
  exact aside holds (by simp [Aside]) fun _ r w holds => arrived holds

theorem feeFeiRtc (holds : Holds m r.mcg v) :
    (Model.feeFeiRtc f).Ensures onHardware (Lands .fei) r v := by
  apply checked holds
  intro out r w holds
  apply aside holds (by simp [Aside])
  intro _ r w holds
  apply holds.edit
  intro w holds
  have turned := holds.turnC1 .fei 0 c1IrefsMask (by decide) (by decide)
    (by decide) (by decide)
  apply turned.pollIrefst excuses
  intro w holds
  exact aside holds (by simp [Aside]) fun _ r w holds => arrived holds

/-- Every call lands in the mode of its name. -/
theorem program (x : Transition) (holds : Holds m r.mcg v) :
    x.program.Ensures onHardware (Lands x.target) r v := by
  cases x with
  | pllInit c h e p d select => exact pllInit select holds
  | peePbe => exact peePbe holds
  | pbePee => exact pbePee holds
  | pbeFbe => exact pbeFbe holds
  | fbePbe => exact fbePbe holds
  | pbeBlpe => exact pbeBlpe holds
  | blpePbe => exact blpePbe holds
  | blpeFbe => exact blpeFbe holds
  | fbeBlpe => exact fbeBlpe holds
  | fbeFei => exact fbeFei holds
  | feiFbe => exact feiFbe holds
  | fbeFee => exact fbeFee holds
  | feeFbe => exact feeFbe holds
  | fbeFbi => exact fbeFbi holds
  | fbiFbe => exact fbiFbe holds
  | fbiBlpi => exact fbiBlpi holds
  | blpiFbi => exact blpiFbi holds
  | fbiFee => exact fbiFee holds
  | feeFbi => exact feeFbi holds
  | fbiFei => exact fbiFei holds
  | feiFbi => exact feiFbi holds
  | feiFee => exact feiFee holds
  | feeFei => exact feeFei holds
  | feiFeeRtc => exact feiFeeRtc holds
  | feeFeiRtc => exact feeFeiRtc holds

end Lands

end

/-- As long as no poll has timed out the MCG is in a mode, that of the last call if it succeeded. -/
def Tracks (log : List (Transition × Except ℤ ℤ)) (r : ClockRegisters) (v : ClockStatus) : Prop :=
  (∀ entry ∈ log, ¬ TimedOut entry.2) →
    ∃ m, Holds m r.mcg v ∧ ∀ x f, log.getLast? = some (x, .ok f) → m = x.target

theorem holds_of_reset {r : ClockRegisters} {v : ClockStatus} (reset : AtReset r v) :
    Holds .fei r.mcg v where
  clks := reset.clks
  irefs := reset.irefs
  plls b wanted := by
    cases wanted
    exact reset.plls
  lp := reset.lp
  irefst _ := reset.irefst
  pllst _ := reset.pllst.trans reset.plls.symm
  clkst _ := reset.clkst
  order _ _ := rfl

theorem tracks_invariant {r : ClockRegisters} {v : ClockStatus} (reset : AtReset r v) :
    Session.Invariant mcgHardware Transition.program (fun _ _ => True) (fun _ _ => True) Tracks r v where
  start _ := ⟨.fei, holds_of_reset reset, fun _ _ last => by cases last⟩
  stable log r v m w tracks moved timely := by
    obtain ⟨mode, holds, last⟩ := tracks timely
    exact ⟨mode, holds.move moved, last⟩
  stays _ _ _ _ _ _ := trivial
  enough _ _ _ _ := trivial
  calls log x r v tracks := by
    by_cases timely : ∀ entry ∈ log, ¬ TimedOut entry.2
    · obtain ⟨mode, holds, _⟩ := tracks timely
      apply (Lands.program x holds).mono
      intro out r v lands within
      rcases lands with late | ⟨m, holds, arrived⟩
      · exact absurd late (within (x, out) (by simp))
      · refine ⟨m, holds, fun y f last => ?_⟩
        simp only [List.getLast?_concat, Option.some.injEq, Prod.mk.injEq] at last
        obtain ⟨rfl, rfl⟩ := last
        exact arrived f rfl
    · refine ensures_of_forall (fun _ _ => trivial) fun out r v within =>
        absurd (fun entry member => ?_) timely
      exact within entry (List.mem_append_left _ member)

/-- In every state between calls in which no poll has timed out yet and the last call succeeded,
`what_mcg_mode` reports the mode in the name of that call, whatever the hardware does meanwhile. -/
theorem mode_reported {r : ClockRegisters} {v : ClockStatus} (reset : AtReset r v) {s : ClockSession}
    (reachable : (clockSessions r v).Reachable s) (idle : s.running = none)
    (timely : ∀ entry ∈ s.log, ¬ TimedOut entry.2) {x : Transition} {f : ℤ}
    (last : s.log.getLast? = some (x, .ok f)) {out : Except ℤ (Option ClockMode)}
    {r' : ClockRegisters} {v' : ClockStatus}
    (run : whatMcgMode.Runs mcgHardware s.registers s.status out r' v') :
    out = .ok (some x.target) := by
  obtain ⟨m, holds, arrived⟩ := ((tracks_invariant reset).reachable reachable).2 idle timely
  obtain rfl := arrived x f last
  exact ensures_plain_iff.mp (ensures_whatMcgMode holds) out r' v' run

/-- `pll_init` from reset, with the status bits in good time. -/
def pllInitTape : List (SessionEvent Transition ClockMove) :=
  [[.call (.pllInit 8000000 0 0 2 24 1)], List.replicate 5 .access, [.move .irefst, .move .clkst],
    List.replicate 7 .access, [.move .pllst, .move (.lock0 true)], List.replicate 7 .access,
    [.move .clkst], List.replicate 3 .access].flatten

theorem mode_reported_pll_init : ∃ s out r' v',
    (clockSessions resetRegisters resetStatus).run pllInitTape = some s ∧
      whatMcgMode.Runs mcgHardware s.registers s.status out r' v' ∧ out = .ok (some .pee) := by
  have log : ((clockSessions resetRegisters resetStatus).run pllInitTape).map
      (fun s => (s.running.isNone, s.log)) =
        some (true, [(.pllInit 8000000 0 0 2 24 1, .ok 96000000)]) := by decide
  obtain ⟨s, ran, found⟩ := Option.map_eq_some_iff.mp log
  simp only [Prod.mk.injEq, Option.isNone_iff_eq_none] at found
  obtain ⟨out, r', v', run⟩ := exists_run mcgHardware whatMcgMode s.registers s.status
  have timely : ∀ entry ∈ s.log, ¬ TimedOut entry.2 := by
    simp [found.2, TimedOut]
  have last : s.log.getLast? = some (.pllInit 8000000 0 0 2 24 1, .ok 96000000) := by
    simp [found.2]
  refine ⟨s, out, r', v', ran, run, ?_⟩
  exact mode_reported atReset_reset (TapeMachine.reachable_of_run ran) found.1 timely last run

end WirelessSpeakers.Soundness
