import WirelessSpeakers.Soundness.Dividers
import WirelessSpeakers.Soundness.ModeAutomaton
import WirelessSpeakers.Soundness.Refusals

/-! # The calls that set up the oscillator

Five calls choose `RANGE0` and `FRDIV` by the external frequency. On hardware that shows any status, a
call that is not refused has passed its checks and leaves these fields in the registers, and its result
is fixed by the arguments and `C4`. The documented hardware can bring every such call to its end.
-/

namespace WirelessSpeakers.Soundness

open Model Program

/-- The `RANGE0` that a call takes from its table; `pll_init` has no low band. -/
def tableRange (x : Transition) (crystalVal : ℤ) : BitVec 8 :=
  match x with
  | .pllInit .. => if crystalVal ≤ 8000000 then 1 else 2
  | _ => rangeVal crystalVal

/-- The checks of a call behind its mode guard. -/
def Accepts (x : Transition) (mcg : Mcg) : Prop :=
  match x with
  | .feiFbe c _ e | .fbiFbe c _ e => CrystalFits c e
  | .feiFee c _ e | .fbiFee c _ e => CrystalFits c e ∧ 0x5B ≤ mcg.fllFreq (feeReference c e)
  | .pllInit c _ e p d _ => InitFits c e p d
  | _ => True

/-- The frequency that a call returns. -/
def outputFreq (x : Transition) (mcg : Mcg) : ℤ :=
  match x with
  | .feiFbe c .. | .fbiFbe c .. => c
  | .feiFee c _ e | .fbiFee c _ e => mcg.fllFreq (feeReference c e)
  | .pllInit c _ _ p d _ => int (c.tdiv p * d)
  | _ => 0

/-- The registers behind the writes of `C2` and `C1`. -/
structure Referenced (x : Transition) (c : ℤ) (e : BitVec 8) (before after : ClockRegisters) : Prop where
  range0 : after.mcg.range0 = (tableRange x c).extractLsb' 0 2 ||| e.extractLsb' 2 2
  frdiv : after.mcg.frdiv.toNat = (frdivVal c).toNat
  c4 : after.mcg.c4 = before.mcg.c4

/-- The mode in which a call has to be made. -/
def entryMode : Transition → ClockMode
  | .fbiFbe .. | .fbiFee .. => .fbi
  | _ => .fei

/-- What is known of a call that is not refused. -/
structure Configured (x : Transition) (c : ℤ) (e : BitVec 8) (before : ClockRegisters)
    (out : Except ℤ ℤ) (after : ClockRegisters) : Prop extends Referenced x c e before after where
  enabled : entryMode x = .fbi → before.mcg.lp = false
  accepts : Accepts x before.mcg
  output : ∀ f, out = .ok f → f = outputFreq x before.mcg
  dividers : ∀ f, out = .ok f → ∀ p d, x.dividers? = some (p, d) →
    after.mcg.prdiv = p ∧ after.mcg.vdiv = d

/-- The store touches none of these fields. -/
structure LeavesReference (f : ClockRegisters → ClockRegisters) : Prop where
  range0 : ∀ r, (f r).mcg.range0 = r.mcg.range0
  frdiv : ∀ r, (f r).mcg.frdiv = r.mcg.frdiv
  c4 : ∀ r, (f r).mcg.c4 = r.mcg.c4

@[simp] theorem leavesReference_iff {a : ClockEdit} : LeavesReference a.apply ↔
    (∀ r, (a.apply r).mcg.range0 = r.mcg.range0) ∧ ∀ r, (a.apply r).mcg.frdiv = r.mcg.frdiv :=
  ⟨fun ⟨range0, frdiv, _⟩ => ⟨range0, frdiv⟩,
    fun ⟨range0, frdiv⟩ => ⟨range0, frdiv, ClockEdit.c4_apply a⟩⟩

section

variable {hw : Hardware ClockRegisters ClockStatus} {x : Transition} {c p d : ℤ} {h e clks : BitVec 8}
  {r r₁ : ClockRegisters} {v : ClockStatus} {α : Type}

theorem frdiv_externalEdit {frdiv : BitVec 8} (masked : clks = 0 ∨ clks = 2) :
    ((externalEdit clks frdiv).apply r).mcg.frdiv = frdiv.extractLsb' 0 3 := by
  apply BitVec.eq_of_getElem_eq
  intro i within
  have here : i = 0 ∨ i = 1 ∨ i = 2 := by omega
  rcases masked with rfl | rfl <;> rcases here with rfl | rfl | rfl <;> simp [externalEdit]

theorem toNat_frdivVal : ((frdivVal c).extractLsb' 0 3).toNat = (frdivVal c).toNat := by
  unfold frdivVal
  split_ifs <;> rfl

theorem referenced_externalEdit (masked : clks = 0 ∨ clks = 2) : Referenced x c e r
    ((externalEdit clks (frdivVal c)).apply ((oscillatorEdit (tableRange x c) h e).apply r)) where
  range0 := by
    rw [← range0_oscillatorEdit (r := r)]
    exact ClockEdit.range0_apply _ _
  frdiv := by rw [frdiv_externalEdit masked, toNat_frdivVal]
  c4 := by simp

theorem Referenced.leave {f : ClockRegisters → ClockRegisters} (referenced : Referenced x c e r r₁)
    (leaves : LeavesReference f) : Referenced x c e r (f r₁) where
  range0 := (leaves.range0 r₁).trans referenced.range0
  frdiv := by rw [leaves.frdiv, referenced.frdiv]
  c4 := (leaves.c4 r₁).trans referenced.c4

/-- Nothing behind the two writes touches the fields. -/
theorem Referenced.tail {rest : ClockDriver α} {R : α → Prop} (referenced : Referenced x c e r r₁)
    (stores : rest.Stores LeavesReference R) :
    rest.Ensures hw.plain (fun out r' _ => Referenced x c e r r' ∧ ∀ a, out = .ok a → R a) r₁ v :=
  stores.ensures_result (P := fun r' _ => Referenced x c e r r') (fun _ _ _ _ held _ => held)
    (fun _ leaves _ _ _ held => held.leave leaves) (fun _ _ _ => trivial) referenced

theorem refused_guardCode (mode : ClockMode) : Refused (.error mode.guardCode) :=
  ⟨_, by cases mode <;> decide, rfl⟩

/-- If the call is not refused, this is known of it. -/
abbrev UnlessRefused (x : Transition) (c : ℤ) (e : BitVec 8) (before : ClockRegisters) (out : Except ℤ ℤ)
    (after : ClockRegisters) (_ : ClockStatus) : Prop :=
  ¬ Refused out → Configured x c e before out after

/-- The mode guard comes first. -/
theorem ensures_guard_unlessRefused {mode : ClockMode} {rest : ClockDriver ℤ}
    (passed : ∀ w, mode.Seen hw r v w → rest.Ensures hw.plain (UnlessRefused x c e r) r w) :
    (do requireMode mode; rest).Ensures hw.plain (UnlessRefused x c e r) r v :=
  ensures_guard (fun w _ seen => passed w seen) fun _ _ _ accepted =>
    absurd (refused_guardCode _) accepted

theorem ensures_toFbe_unlessRefused (enabled : entryMode x = .fbi → r.mcg.lp = false)
    (accepts : CrystalFits c e → Accepts x r.mcg) (output : outputFreq x r.mcg = c)
    (table : tableRange x c = rangeVal c) (none : x.dividers? = none) :
    (toFbe c h e).Ensures hw.plain (UnlessRefused x c e r) r v := by
  apply ensures_checkCrystal
  · exact fun _ accepted => absurd refused_crystalCode accepted
  intro fits
  refine ensures_bind.mpr fun w _ _ => ⟨trivial, ensures_bind.mpr fun w _ _ => ⟨trivial, ?_⟩⟩
  rw [← table]
  have stores : (do
      ClockDriver.onlyIf (e ≠ 0) (waitOscinit 10000)
      waitIrefst false
      waitClkst 2
      enableMonitor
      pure c : ClockDriver ℤ).Stores LeavesReference (· = c) := by
    simp [waitOscinit, waitIrefst, waitClkst, enableMonitor]
  refine ((referenced_externalEdit (.inr rfl)).tail stores).mono ?_
  rintro out r' v ⟨referenced, result⟩ _
  refine ⟨referenced, enabled, accepts fits, ?_, by simp [none]⟩
  exact fun f same => (result f same).trans output.symm

theorem ensures_toFee_unlessRefused {rest : ℤ → ClockDriver ℤ}
    (enabled : entryMode x = .fbi → r.mcg.lp = false)
    (accepts : CrystalFits c e ∧ 0x5B ≤ r.mcg.fllFreq (feeReference c e) → Accepts x r.mcg)
    (output : outputFreq x r.mcg = r.mcg.fllFreq (feeReference c e))
    (table : tableRange x c = rangeVal c) (none : x.dividers? = none)
    (stores : ∀ f, (rest f).Stores LeavesReference (· = f)) :
    (toFee c h e >>= rest).Ensures hw.plain (UnlessRefused x c e r) r v := by
  simp only [toFee, bind_assoc, pure_bind]
  apply ensures_checkCrystal
  · exact fun _ accepted => absurd refused_crystalCode accepted
  intro fits
  refine ensures_bind.mpr (ensures_edit.mpr fun w _ _ => ⟨trivial, ?_⟩)
  simp only [checkFll, ensures_bind, ensures_look, ensures_failIf, ensures_pure, ensures_edit,
    ClockEdit.fllFreq_apply, dividedReference_oscillatorEdit]
  refine ⟨fun low accepted => absurd (fllFreq_refused low) accepted, fun enough u _ _ => ⟨trivial, ?_⟩⟩
  rw [← table]
  refine ((referenced_externalEdit (.inl rfl)).tail (stores _)).mono ?_
  rintro out r' v ⟨referenced, result⟩ _
  refine ⟨referenced, enabled, accepts ⟨fits, by omega⟩, ?_, by simp [none]⟩
  exact fun f same => (result f same).trans output.symm

theorem Referenced.bind {q : ClockDriver α} {next : α → ClockDriver ℤ}
    {Q : Except ℤ ℤ → ClockRegisters → ClockStatus → Prop} (referenced : Referenced x c e r r₁)
    (stores : q.Stores LeavesReference fun _ => True)
    (failed : ∀ code r' v, Referenced x c e r r' → Q (.error code) r' v)
    (rest : ∀ a r' v, Referenced x c e r r' → (next a).Ensures hw.plain Q r' v) :
    (q >>= next).Ensures hw.plain Q r₁ v := by
  refine ensures_bind.mpr ((referenced.tail stores).mono ?_)
  rintro (code | a) r' v ⟨referenced, _⟩
  · exact failed code r' v referenced
  · exact rest a r' v referenced

theorem ensures_pllInit_unlessRefused (select : BitVec 8) :
    (pllInit c h e p d select).Ensures hw.plain (UnlessRefused (.pllInit c h e p d select) c e r) r v := by
  refine ensures_guard_unlessRefused fun w _ => ?_
  apply ensures_check
  · exact fun _ accepted => absurd ⟨_, by decide, rfl⟩ accepted
  intro small
  apply ensures_checkIf
  · exact fun _ accepted => absurd ⟨_, by decide, rfl⟩ accepted
  intro right
  apply ensures_checkPll
  · exact fun _ _ refused accepted => absurd refused accepted
  intro pll
  have fits := InitFits.of_checks small right pll
  refine ensures_bind.mpr fun w _ _ => ⟨trivial, ensures_bind.mpr fun w _ _ => ⟨trivial, ?_⟩⟩
  have referenced := referenced_externalEdit (x := .pllInit c h e p d select) (c := c) (h := h) (e := e)
    (r := r) (.inr rfl)
  have late (code : ℤ) (r' : ClockRegisters) (v : ClockStatus)
      (referenced : Referenced (.pllInit c h e p d select) c e r r') :
      UnlessRefused (.pllInit c h e p d select) c e r (.error code) r' v :=
    fun _ => ⟨referenced, nofun, fits, nofun, nofun⟩
  apply referenced.bind (by simp [waitOscinit]) late
  intro _ r₁ v referenced
  apply referenced.bind (by simp [waitIrefst]) late
  intro _ r₁ v referenced
  apply referenced.bind (by simp [waitClkst]) late
  intro _ r₁ v referenced
  apply referenced.bind (by simp [enableMonitor]) late
  intro _ r₁ v referenced
  refine ensures_bind.mpr (ensures_edit.mpr fun w _ _ => ⟨trivial, ?_⟩)
  refine ensures_bind.mpr (ensures_edit.mpr fun w _ _ => ⟨trivial, ?_⟩)
  have programmed := (referenced.leave (f := (prdivEdit p).apply) (by simp [prdivEdit])).leave
    (f := (vdivEdit d).apply) (by simp [vdivEdit])
  have prdiv : ((vdivEdit d).apply ((prdivEdit p).apply r₁)).mcg.prdiv = p :=
    prdiv_prdivEdit ⟨pll.1.1, pll.1.2.trans (by decide)⟩ r₁
  have vdiv : ((vdivEdit d).apply ((prdivEdit p).apply r₁)).mcg.vdiv = d := vdiv_vdivEdit pll.2.1 _
  refine ensures_bind.mpr (ensures_wait.mpr fun w _ => ⟨fun _ => ?_, fun _ => late _ _ w programmed⟩)
  refine ensures_bind.mpr (ensures_wait.mpr fun w _ => ⟨fun _ => ?_, fun _ => late _ _ w programmed⟩)
  refine ensures_bind.mpr (ensures_look.mpr (ensures_bind.mpr (ensures_look.mpr ?_)))
  refine ensures_bind.mpr (ensures_edit.mpr fun w _ _ => ⟨trivial, ?_⟩)
  have switched := programmed.leave (f := (ClockEdit.c1 c1ClksMask 0).apply) (by simp)
  refine ensures_bind.mpr (ensures_wait.mpr fun w _ => ⟨fun _ _ => ?_, fun _ => late _ _ w switched⟩)
  refine ⟨switched, nofun, fits, ?_, ?_⟩
  · rintro f ⟨⟩
    rw [prdiv, vdiv]
    rfl
  · rintro _ _ _ _ ⟨⟩
    exact ⟨prdiv, vdiv⟩

/-- A call that is not refused has passed its checks, and leaves the fields. -/
theorem ensures_unlessRefused (sets : x.oscillator? = some (c, h, e)) :
    x.program.Ensures hw.plain (UnlessRefused x c e r) r v := by
  cases x with
  | pllInit c' h' e' p d select =>
    cases sets
    exact ensures_pllInit_unlessRefused select
  | feiFbe c' h' e' =>
    cases sets
    refine ensures_guard_unlessRefused fun w _ => ?_
    exact ensures_toFbe_unlessRefused (by nofun) id rfl rfl rfl
  | fbiFbe c' h' e' =>
    cases sets
    refine ensures_guard_unlessRefused fun w seen => ?_
    exact ensures_toFbe_unlessRefused (fun _ => seen.lp false rfl) id rfl rfl rfl
  | feiFee c' h' e' =>
    cases sets
    refine ensures_guard_unlessRefused fun w _ => ?_
    apply ensures_toFee_unlessRefused (by nofun) id rfl rfl rfl
    simp [waitOscinit, waitIrefst, enableMonitor]
  | fbiFee c' h' e' =>
    cases sets
    refine ensures_guard_unlessRefused fun w seen => ?_
    apply ensures_toFee_unlessRefused (fun _ => seen.lp false rfl) id rfl rfl rfl
    simp [waitOscinit, waitIrefst, waitClkst, enableMonitor]
  | _ => cases sets

end

section Rules

variable {hw : Hardware ClockRegisters ClockStatus} {mode : ClockMode} {r : ClockRegisters}
  {v w : ClockStatus} {α : Type} {rest : ClockDriver α} {n : ℕ}
  {Q : Except ℤ α → ClockRegisters → ClockStatus → Prop}

theorem admits_guard (shows : mode.Shows r.mcg v) (held : rest.Admits hw Q r v) :
    (do requireMode mode; rest).Admits hw Q r v := by
  apply admits_bind.mpr
  apply admits_of_not_ensures
  intro never
  exact requireMode_passes never shows held

theorem admits_check {wrong : Prop} [Decidable wrong] {code : ℤ} (fine : ¬ wrong)
    (held : rest.Admits hw Q r v) : (do failIf wrong code; rest).Admits hw Q r v :=
  admits_bind.mpr (admits_failIf fine held)

theorem admits_checkIf {cond : Bool} {wrong : Prop} [Decidable wrong] {code : ℤ}
    (fine : ¬ (cond ∧ wrong)) (held : rest.Admits hw Q r v) :
    (do ClockDriver.onlyIf cond (failIf wrong code); rest).Admits hw Q r v := by
  cases cond with
  | true => exact admits_check (fun found => fine ⟨rfl, found⟩) held
  | false => exact held

theorem admits_checkCrystal {c : ℤ} {e : BitVec 8} (fits : CrystalFits c e)
    (held : rest.Admits hw Q r v) : (do checkCrystalMax c; checkCrystal c e; rest).Admits hw Q r v := by
  apply admits_check (by exact not_lt.mpr fits.1)
  apply admits_checkIf _ held
  rintro ⟨crystal, outside⟩
  have bands := fits.2 (of_decide_eq_true crystal)
  omega

theorem admits_checkPll {c p d : ℤ} (fits : PllFits c p d) (held : rest.Admits hw Q r v) :
    (do checkDividers p d; checkReference c p; checkOutput c p d; rest).Admits hw Q r v := by
  obtain ⟨prdiv, vdiv, reference, output⟩ := fits
  apply admits_bind.mpr
  apply admits_check (by omega)
  apply admits_failIf (by omega)
  apply admits_check (by omega)
  exact admits_check (by omega) held

theorem admits_edit {a : ClockEdit} (held : rest.Admits hw Q (a.apply r) v) :
    (do ClockDriver.edit a; rest).Admits hw Q r v := ⟨v, .refl, held⟩

/-- The check of the FLL frequency, either way. -/
theorem admits_checkFll {f : ℤ} {next : ℤ → ClockDriver α}
    (refused : r.mcg.fllFreq f < 0x5B → Q (.error (r.mcg.fllFreq f)) r v)
    (passed : 0x5B ≤ r.mcg.fllFreq f → (next (r.mcg.fllFreq f)).Admits hw Q r v) :
    (checkFll f >>= next).Admits hw Q r v := by
  apply admits_bind.mpr
  change ((failIf (r.mcg.fllFreq f < 0x5B) _ : ClockDriver Unit) >>= _).Admits hw _ r v
  by_cases low : r.mcg.fllFreq f < 0x5B
  · rw [failIf, if_pos low]
    exact refused low
  · exact admits_check low (passed (not_lt.mp low))

theorem admits_poll {cond : ClockStatus → Bool} {code : ℤ} (reach : hw.Reach r v w) (shown : cond w)
    (held : rest.Admits hw Q r w) : (do wait n cond code; rest).Admits hw Q r v :=
  admits_bind.mpr (admits_wait reach shown held)

theorem admits_pollOscinit {cond : Bool}
    (held : ∀ b, rest.Admits mcgHardware Q r { v with oscinit0 := b }) :
    (do ClockDriver.onlyIf cond (waitOscinit n); rest).Admits mcgHardware Q r v := by
  cases cond with
  | true => exact admits_poll (.single (.oscinit0 true) rfl) rfl (held true)
  | false => exact held v.oscinit0

theorem admits_pollIrefst {b : Bool} (irefs : r.mcg.irefs = b)
    (held : rest.Admits mcgHardware Q r { v with irefst := b }) :
    (do waitIrefst b; rest).Admits mcgHardware Q r v := by
  subst irefs
  exact admits_poll (.single .irefst rfl) (beq_self_eq_true _) held

theorem admits_pollPllst {b : Bool} (plls : r.mcg.plls = b)
    (held : rest.Admits mcgHardware Q r { v with pllst := b }) :
    (do waitPllst b; rest).Admits mcgHardware Q r v := by
  subst plls
  exact admits_poll (.single .pllst rfl) (beq_self_eq_true _) held

theorem admits_pollLock (held : rest.Admits mcgHardware Q r { v with lock0 := true }) :
    (do waitLock n; rest).Admits mcgHardware Q r v :=
  admits_poll (.single (.lock0 true) rfl) rfl held

theorem admits_pollClkst {x : BitVec 2} (commanded : commandedClkst r.mcg v = some x)
    (held : rest.Admits mcgHardware Q r { v with clkst := x }) :
    (do waitClkst x; rest).Admits mcgHardware Q r v := by
  have moved : mcgHardware.apply r v .clkst = some { v with clkst := x } :=
    Option.map_eq_some_iff.mpr ⟨x, commanded, rfl⟩
  exact admits_poll (.single _ moved) (beq_self_eq_true _) held

end Rules

section

variable {c p d : ℤ} {h e clks frdiv : BitVec 8} {r : ClockRegisters} {v : ClockStatus}
  {Q : Except ℤ ℤ → ClockRegisters → ClockStatus → Prop}

theorem irefs_externalEdit (masked : clks = 0 ∨ clks = 2) :
    ((externalEdit clks frdiv).apply r).mcg.irefs = false := by
  rcases masked with rfl | rfl <;> simp [externalEdit]

theorem clks_externalEdit (masked : clks = 0 ∨ clks = 2) :
    ((externalEdit clks frdiv).apply r).mcg.clks = clks.extractLsb' 0 2 := by
  apply BitVec.eq_of_getElem_eq
  intro i within
  have here : i = 0 ∨ i = 1 := by omega
  rcases masked with rfl | rfl <;> rcases here with rfl | rfl <;> simp [externalEdit]

/-- From the writes of `C2` and `C1` to FBE. -/
theorem admits_enterFbe {range : BitVec 8} {n : ℕ} {rest : ClockDriver ℤ}
    (held : let r' := (ClockEdit.c6 0 c6Cme0Mask).apply ((externalEdit 2 frdiv).apply
        ((oscillatorEdit range h e).apply r))
      ∀ w, w.clkst = 2 → w.irefst = false → w.pllst = v.pllst → rest.Admits mcgHardware Q r' w) :
    (do
      ClockDriver.edit (oscillatorEdit range h e)
      ClockDriver.edit (externalEdit 2 frdiv)
      ClockDriver.onlyIf (e ≠ 0) (waitOscinit n)
      waitIrefst false
      waitClkst 2
      enableMonitor
      rest).Admits mcgHardware Q r v := by
  apply admits_edit
  apply admits_edit
  apply admits_pollOscinit
  intro b
  apply admits_pollIrefst (irefs_externalEdit (.inr rfl))
  apply admits_pollClkst (by rw [commandedClkst, clks_externalEdit (.inr rfl)]; rfl)
  apply admits_edit
  exact held _ rfl rfl rfl

/-- `fei_fbe` and `fbi_fbe` behind the guard. -/
theorem admits_toFbe (fits : CrystalFits c e)
    (held : let r' := (ClockEdit.c6 0 c6Cme0Mask).apply ((externalEdit 2 (frdivVal c)).apply
        ((oscillatorEdit (rangeVal c) h e).apply r))
      ∀ w, w.clkst = 2 → w.irefst = false → w.pllst = v.pllst → Q (.ok c) r' w) :
    (toFbe c h e).Admits mcgHardware Q r v := by
  apply admits_checkCrystal fits
  exact admits_enterFbe held

/-- `fei_fee` and `fbi_fee` up to their polls. -/
theorem admits_toFee {rest : ℤ → ClockDriver ℤ} (fits : CrystalFits c e)
    (refused : r.mcg.fllFreq (feeReference c e) < 0x5B → Q (.error (r.mcg.fllFreq (feeReference c e)))
      ((oscillatorEdit (rangeVal c) h e).apply r) v)
    (passed : 0x5B ≤ r.mcg.fllFreq (feeReference c e) →
      (rest (r.mcg.fllFreq (feeReference c e))).Admits mcgHardware Q
        ((externalEdit 0 (frdivVal c)).apply ((oscillatorEdit (rangeVal c) h e).apply r)) v) :
    (toFee c h e >>= rest).Admits mcgHardware Q r v := by
  simp only [toFee, bind_assoc, pure_bind]
  apply admits_checkCrystal fits
  apply admits_edit
  change (checkFll (((oscillatorEdit (rangeVal c) h e).apply r).mcg.dividedReference c) >>= _).Admits
    mcgHardware Q _ v
  rw [dividedReference_oscillatorEdit]
  apply admits_checkFll
  · rw [ClockEdit.fllFreq_apply]
    exact refused
  · rw [ClockEdit.fllFreq_apply]
    exact fun enough => admits_edit (passed enough)

theorem admits_switchToPll (pllst : v.pllst = true)
    (held : ∀ r' w, Q (.ok (int (c.tdiv r.mcg.prdiv * r.mcg.vdiv))) r' w) :
    (switchToPll c).Admits mcgHardware Q r v := by
  change (do
    ClockDriver.edit (.c1 c1ClksMask 0)
    waitClkst 3
    pure (int (c.tdiv r.mcg.prdiv * r.mcg.vdiv)) : ClockDriver ℤ).Admits mcgHardware Q r v
  apply admits_edit
  have selected : ((ClockEdit.c1 c1ClksMask 0).apply r).mcg.clks = 0 := by simp
  apply admits_pollClkst (by rw [commandedClkst, selected, pllst]; rfl)
  exact held _ _

/-- `pll_init` behind its checks. -/
theorem admits_pllRun {range : BitVec 8} (pll : PllFits c p d) : (do
    ClockDriver.edit (oscillatorEdit range h e)
    ClockDriver.edit (externalEdit 2 frdiv)
    ClockDriver.onlyIf (e ≠ 0) (waitOscinit 20000)
    waitIrefst false
    waitClkst 2
    enableMonitor
    ClockDriver.edit (prdivEdit p)
    ClockDriver.edit (vdivEdit d)
    waitPllst true
    waitLock 4000
    switchToPll c : ClockDriver ℤ).Admits mcgHardware
      (fun out _ _ => out = .ok (int (c.tdiv p * d))) r v := by
  refine admits_enterFbe fun w _ _ _ => ?_
  apply admits_edit
  apply admits_edit
  apply admits_pollPllst (by simp [vdivEdit])
  apply admits_pollLock
  apply admits_switchToPll rfl
  intro r' w
  rw [vdiv_vdivEdit pll.2.1]
  change Except.ok (int (c.tdiv ((prdivEdit p).apply _).mcg.prdiv * d)) = _
  rw [prdiv_prdivEdit ⟨pll.1.1, pll.1.2.trans (by decide)⟩]

/-- Some run of a call that passes its checks returns the frequency. -/
theorem admits_output {x : Transition} (sets : x.oscillator? = some (c, h, e))
    (shows : (entryMode x).Shows r.mcg v) (accepts : Accepts x r.mcg) :
    x.program.Admits mcgHardware (fun out _ _ => out = .ok (outputFreq x r.mcg)) r v := by
  cases x with
  | pllInit c' h' e' p d select =>
    cases sets
    apply admits_guard shows
    obtain ⟨small, band, pll⟩ := accepts
    apply admits_check (not_lt.mpr small)
    apply admits_checkIf
    · rintro ⟨crystal, outside⟩
      have inside := band (of_decide_eq_true crystal)
      omega
    apply admits_checkPll pll
    exact admits_pllRun pll
  | feiFbe c' h' e' | fbiFbe c' h' e' =>
    cases sets
    apply admits_guard shows
    exact admits_toFbe accepts fun _ _ _ _ => rfl
  | feiFee c' h' e' =>
    cases sets
    apply admits_guard shows
    refine admits_toFee accepts.1 (fun low => absurd accepts.2 (not_le.mpr low)) fun _ => ?_
    apply admits_pollOscinit
    intro b
    apply admits_pollIrefst (irefs_externalEdit (.inl rfl))
    exact admits_edit rfl
  | fbiFee c' h' e' =>
    cases sets
    apply admits_guard shows
    refine admits_toFee accepts.1 (fun low => absurd accepts.2 (not_le.mpr low)) fun _ => ?_
    apply admits_pollOscinit
    intro b
    apply admits_pollIrefst (irefs_externalEdit (.inl rfl))
    have pllst : v.pllst = false := shows.pllst false rfl
    have commanded : commandedClkst ((externalEdit 0 (frdivVal c)).apply
        ((oscillatorEdit (rangeVal c) h e).apply r)).mcg { v with oscinit0 := b, irefst := false } =
          some 0 := by
      rw [commandedClkst, clks_externalEdit (.inl rfl), pllst]
      rfl
    apply admits_pollClkst commanded
    exact admits_edit rfl
  | _ => cases sets

theorem exists_shows {x : Transition} (enabled : entryMode x = .fbi → r.mcg.lp = false) :
    ∃ v, (entryMode x).Shows r.mcg v := by
  have modes : entryMode x = .fei ∨ entryMode x = .fbi := by cases x <;> simp [entryMode]
  rcases modes with fei | fbi
  · rw [fei]
    exact ⟨resetStatus, fei_shows⟩
  · rw [fbi]
    refine ⟨{ resetStatus with clkst := 1 }, rfl, rfl, ?_, ?_⟩
    · rintro _ ⟨⟩
      rfl
    · rintro _ ⟨⟩
      exact enabled fbi

theorem exists_output {x : Transition} (sets : x.oscillator? = some (c, h, e))
    (enabled : entryMode x = .fbi → r.mcg.lp = false) (accepts : Accepts x r.mcg) :
    ∃ v r' v', x.program.Runs anyHardware r v (.ok (outputFreq x r.mcg)) r' v' := by
  obtain ⟨v, shows⟩ := exists_shows enabled
  obtain ⟨_, r', v', run, rfl⟩ := admits_iff.mp (admits_output sets shows accepts)
  exact ⟨v, r', v', run.mono fun _ _ _ _ => reach_any⟩

end

end WirelessSpeakers.Soundness
