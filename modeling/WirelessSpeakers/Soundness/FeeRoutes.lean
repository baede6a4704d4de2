import WirelessSpeakers.Soundness.CrystalCalls
import WirelessSpeakers.Soundness.FllBand
import WirelessSpeakers.Soundness.StartUp

/-! # The two routes from FEI to FEE

`fei_fee` computes the FLL reference in an `int` from the values that it is about to write, `fbe_fee` in a
`short` from the registers. Up to 32767 Hz the references are the same and so is everything that follows
from them. Beyond, the `short` is negative, and only `fbe_fee` finds the FLL too slow.
-/

namespace WirelessSpeakers.Soundness

open Model Program

/-- `fei_fbe` and, if it succeeds, `fbe_fee`. -/
def feiFbeFee (crystalVal : ℤ) (hgoVal erefsVal : BitVec 8) : ClockDriver ℤ := do
  let _ ← feiFbe crystalVal hgoVal erefsVal
  fbeFee crystalVal

/-- Unless a poll times out, both routes end alike. -/
def RoutesAgree (c : ℤ) (h e : BitVec 8) (r : ClockRegisters) (v : ClockStatus) : Prop :=
  ∀ out₁ r₁ v₁ out₂ r₂ v₂, (feiFee c h e).Runs mcgHardware r v out₁ r₁ v₁ → ¬ TimedOut out₁ →
    (feiFbeFee c h e).Runs mcgHardware r v out₂ r₂ v₂ → ¬ TimedOut out₂ →
      out₁ = out₂ ∧ ((∃ f, out₁ = .ok f) →
        r₁.mcg.c1 = r₂.mcg.c1 ∧ r₁.mcg.c2 = r₂.mcg.c2 ∧ r₁.mcg.c6 = r₂.mcg.c6)

/-- The FLL reference for this clock fits a `short`: undivided, or behind the row of the table. -/
def ShortFits (crystalVal : ℤ) : Prop :=
  crystalVal < 2 ^ 15 ∨ 40000 < crystalVal ∧ crystalVal < 2 ^ 20 * 2 ^ (frdivVal crystalVal).toNat

/-- The outcome by the frequency of the FLL. -/
structure FeeEnds (c : ℤ) (e : BitVec 8) (f : ℤ) (fee : Mcg) (out : Except ℤ ℤ) (after : ClockRegisters) :
    Prop where
  crystal : ¬ CrystalFits c e → out = .error (crystalCode c)
  fll : CrystalFits c e → f < 0x5B → out = .error f
  done : CrystalFits c e → 0x5B ≤ f → out = .ok f ∧ after.mcg = fee

/-- The outcome unless a poll times out. -/
abbrev FeeEndsTimely (c : ℤ) (e : BitVec 8) (f : ℤ) (fee : Mcg) (out : Except ℤ ℤ) (after : ClockRegisters)
    (_ : ClockStatus) : Prop := ¬ TimedOut out → FeeEnds c e f fee out after

section

variable {c f : ℤ} {h e : BitVec 8} {fee : Mcg} {r : ClockRegisters} {v : ClockStatus}

theorem FeeEndsTimely.excuses : Excuses (FeeEndsTimely c e f fee) :=
  fun code timeout _ _ timely => absurd ⟨code, timeout, rfl⟩ timely

/-- The registers in FBE on the way. -/
def fbeRegisters (c : ℤ) (h e : BitVec 8) (r : ClockRegisters) : ClockRegisters :=
  (ClockEdit.c6 0 c6Cme0Mask).apply ((externalEdit 2 (frdivVal c)).apply
    ((oscillatorEdit (rangeVal c) h e).apply r))

/-- The registers in FEE on the direct route. -/
def feeRegisters (c : ℤ) (h e : BitVec 8) (r : ClockRegisters) : ClockRegisters :=
  (ClockEdit.c6 0 c6Cme0Mask).apply ((externalEdit 0 (frdivVal c)).apply
    ((oscillatorEdit (rangeVal c) h e).apply r))

theorem ensures_feiFee_ends (holds : Holds .fei r.mcg v) : (feiFee c h e).Ensures onHardware
    (FeeEndsTimely c e (r.mcg.fllFreq (feeReference c e)) (feeRegisters c h e r).mcg) r v := by
  apply holds.enter
  intro w holds
  simp only [toFee, bind_assoc, pure_bind]
  apply ensures_checkCrystal
  · exact fun unfit _ => ⟨fun _ => rfl, fun fits => absurd fits unfit, fun fits => absurd fits unfit⟩
  intro fits
  apply holds.edit
  intro w holds
  have held := holds.aside (aside_oscillatorEdit : Aside (oscillatorEdit (rangeVal c) h e).apply)
  simp only [checkFll, ensures_bind (p := look _), ensures_look, bind_assoc, pure_bind,
    dividedReference_oscillatorEdit, ClockEdit.fllFreq_apply]
  apply ensures_check
  · exact fun low _ => ⟨fun unfit => absurd fits unfit, fun _ _ => rfl, fun _ enough => by omega⟩
  intro enough
  apply held.edit
  intro w holds
  have turned := holds.turnExternal .fee 0 (frdivVal c) (by decide) (by decide) (by decide) (by decide)
  apply turned.pollOscinit FeeEndsTimely.excuses
  intro w turned
  apply turned.pollIrefst FeeEndsTimely.excuses
  intro w holds
  apply holds.edit
  intro w holds _
  exact ⟨fun unfit => absurd fits unfit, fun _ low => absurd low enough, fun _ _ => ⟨rfl, rfl⟩⟩

/-- The reference that `fbe_fee` reads off the registers. -/
def fbeReference (c : ℤ) (mcg : Mcg) : ℤ :=
  if mcg.range0.toNat > 0 then c.tdiv (32 * 2 ^ mcg.frdiv.toNat) else c.tdiv (2 ^ mcg.range0.toNat)

/-- It is the one that was written. -/
theorem fbeReference_fbeRegisters (bit : e = 0 ∨ e = 1) :
    fbeReference c (fbeRegisters c h e r).mcg = feeReference c e := by
  have referenced : Referenced (.feiFbe c h e) c e r (fbeRegisters c h e r) :=
    (referenced_externalEdit (.inr rfl)).leave (f := (ClockEdit.c6 0 c6Cme0Mask).apply) (by simp)
  rw [fbeReference, referenced.frdiv, referenced.range0]
  rcases Int.lt_or_le 40000 c with above | below
  · rw [feeReference_above above]
    exact if_pos (or_toNat_pos (rangeVal_ne_zero above))
  · rw [feeReference_below below bit]
    have range : rangeVal c = 0 := if_pos below
    have zero : (rangeVal c).extractLsb' 0 2 ||| e.extractLsb' 2 2 = 0 := by
      rw [range]
      rcases bit with rfl | rfl <;> rfl
    have table : tableRange (.feiFbe c h e) c = rangeVal c := rfl
    rw [table, zero]
    exact Int.tdiv_one c

theorem ensures_feiFbeFee_ends (holds : Holds .fei r.mcg v) (bit : e = 0 ∨ e = 1) :
    (feiFbeFee c h e).Ensures onHardware
      (FeeEndsTimely c e (r.mcg.fllFreq (short (feeReference c e)))
        ((ClockEdit.c1 c1ClksMask 0).apply (fbeRegisters c h e r)).mcg) r v := by
  apply ensures_bind.mpr
  apply holds.enter
  intro w holds
  refine ensures_toFbe holds rfl rfl ?_ (fun unfit w _ _ => ?_) fun fits w holds => ?_
  · exact fun code timeout r' v' => FeeEndsTimely.excuses code timeout r' v'
  · exact ⟨fun _ => rfl, fun fits => absurd fits unfit, fun fits => absurd fits unfit⟩
  apply holds.enter
  intro w holds
  change (do
    let mcgOut ← checkFll (short (fbeReference c (fbeRegisters c h e r).mcg))
    ClockDriver.edit (.c1 c1ClksMask 0)
    waitClkst 0
    pure mcgOut : ClockDriver ℤ).Ensures onHardware _ (fbeRegisters c h e r) w
  have fll : (fbeRegisters c h e r).mcg.fllFreq (short (feeReference c e)) =
      r.mcg.fllFreq (short (feeReference c e)) := by simp [fbeRegisters]
  simp only [checkFll, ensures_bind (p := look _), ensures_look, bind_assoc, pure_bind,
    fbeReference_fbeRegisters bit, fll]
  apply ensures_check
  · exact fun low _ => ⟨fun unfit => absurd fits unfit, fun _ _ => rfl, fun _ enough => by omega⟩
  intro enough
  apply holds.edit
  intro w holds
  have turned := holds.turnC1 .fee c1ClksMask 0 (by decide) (by decide) (by decide) (by decide)
  apply turned.pollClkst FeeEndsTimely.excuses (fun _ => rfl)
  intro w holds _
  exact ⟨fun unfit => absurd fits unfit, fun _ low => absurd low enough, fun _ _ => ⟨rfl, rfl⟩⟩

/-- The two ways of writing `C1`. -/
theorem feeRegisters_eq : (feeRegisters c h e r).mcg =
    ((ClockEdit.c1 c1ClksMask 0).apply (fbeRegisters c h e r)).mcg := by
  have c1 (frdiv : BitVec 8) : assign (assign r.mcg.c1 (c1ClksMask ||| c1FrdivMask ||| c1IrefsMask)
      (c1Clks 2 ||| c1Frdiv frdiv)) c1ClksMask 0 =
        assign r.mcg.c1 (c1ClksMask ||| c1FrdivMask ||| c1IrefsMask) (c1Clks 0 ||| c1Frdiv frdiv) := by
    apply BitVec.eq_of_getElem_eq
    intro i within
    have here : i = 0 ∨ i = 1 ∨ i = 2 ∨ i = 3 ∨ i = 4 ∨ i = 5 ∨ i = 6 ∨ i = 7 := by omega
    rcases here with rfl | rfl | rfl | rfl | rfl | rfl | rfl | rfl <;> simp
  simp only [feeRegisters, fbeRegisters, ClockEdit.apply, oscillatorEdit, externalEdit, c1]

theorem not_timedOut_of_refused {out : Except ℤ ℤ} (refused : Refused out) : ¬ TimedOut out := by
  rintro ⟨code, timeout, rfl⟩
  obtain ⟨_, listed, ⟨⟩⟩ := refused
  revert code
  decide

theorem admits_feiFee_timely (reset : AtReset r v) (fits : CrystalFits c e) :
    (feiFee c h e).Admits mcgHardware (fun out _ _ => ¬ TimedOut out) r v := by
  apply admits_guard (holds_of_reset reset).shows
  apply admits_toFee fits
  · exact fun low => not_timedOut_of_refused (fllFreq_refused low)
  intro _
  apply admits_pollOscinit
  intro b
  apply admits_pollIrefst (irefs_externalEdit (.inl rfl))
  apply admits_edit
  rintro ⟨_, _, ⟨⟩⟩

theorem admits_feiFbeFee_timely (reset : AtReset r v) (fits : CrystalFits c e) :
    (feiFbeFee c h e).Admits mcgHardware (fun out _ _ => ¬ TimedOut out) r v := by
  apply admits_bind.mpr
  apply admits_guard (holds_of_reset reset).shows
  refine admits_toFbe fits fun w clkst irefst pllst => ?_
  have shows : ClockMode.fbe.Shows (fbeRegisters c h e r).mcg w := by
    refine ⟨clkst, irefst, ?_, ?_⟩
    · rintro _ ⟨⟩
      exact pllst.trans reset.pllst
    · rintro _ ⟨⟩
      simpa [fbeRegisters, externalEdit, oscillatorEdit] using reset.lp
  apply admits_guard shows
  change (checkFll (short (fbeReference c (fbeRegisters c h e r).mcg)) >>= _).Admits
    mcgHardware _ (fbeRegisters c h e r) w
  apply admits_checkFll
  · exact fun low => not_timedOut_of_refused (fllFreq_refused low)
  intro _
  apply admits_edit
  have selected : ((ClockEdit.c1 c1ClksMask 0).apply (fbeRegisters c h e r)).mcg.clks = 0 := by simp
  apply admits_pollClkst (by rw [commandedClkst, selected, pllst, reset.pllst]; rfl)
  rintro ⟨_, _, ⟨⟩⟩

/-- The condition in terms of the reference. -/
theorem feeReference_lt_iff (bit : e = 0 ∨ e = 1) (positive : 0 < c) :
    feeReference c e < 2 ^ 15 ↔ ShortFits c := by
  rcases Int.lt_or_le 40000 c with above | below
  · rw [feeReference_above above, tdiv_frdivVal above, ShortFits, frdivVal]
    split_ifs <;> simp <;> omega
  · rw [feeReference_below below bit, ShortFits]
    omega

theorem short_of_lt {f : ℤ} (positive : 0 ≤ f) (small : f < 2 ^ 15) : short f = f :=
  Int.bmod_eq_of_le (by omega) (by omega)

theorem short_of_ge {f : ℤ} (large : 2 ^ 15 ≤ f) (small : f ≤ 48828) : short f = f - 2 ^ 16 := by
  rw [short, Int.bmod]
  split_ifs <;> omega

end

/-- From reset the two routes agree exactly if the frequency is refused at once, or its FLL reference fits a
`short`. -/
theorem routesAgree_iff {r : ClockRegisters} {v : ClockStatus} (reset : AtReset r v) {c : ℤ}
    {h e : BitVec 8} (positive : 0 < c) (bit : e = 0 ∨ e = 1) :
    RoutesAgree c h e r v ↔ ¬ CrystalFits c e ∨ ShortFits c := by
  have holds := holds_of_reset reset
  have direct := ensures_plain_iff.mp (ensures_feiFee_ends (c := c) (h := h) (e := e) holds)
  have through := ensures_plain_iff.mp (ensures_feiFbeFee_ends (c := c) (h := h) holds bit)
  constructor
  · intro agree
    by_contra differ
    obtain ⟨fits, large⟩ := not_or.mp differ
    replace fits := not_not.mp fits
    rw [← feeReference_lt_iff bit positive, not_lt] at large
    have small := (feeReference_limits (e := e) positive.le fits.1).2
    obtain ⟨out₁, r₁, v₁, run₁, timely₁⟩ := admits_iff.mp (admits_feiFee_timely (h := h) reset fits)
    obtain ⟨out₂, r₂, v₂, run₂, timely₂⟩ := admits_iff.mp (admits_feiFbeFee_timely (h := h) reset fits)
    have ends₁ := direct out₁ r₁ v₁ run₁ timely₁
    have ends₂ := through out₂ r₂ v₂ run₂ timely₂
    obtain ⟨same, _⟩ := agree out₁ r₁ v₁ out₂ r₂ v₂ run₁ timely₁ run₂ timely₂
    have codes := fllRange_codes r.mcg.drstDrs
    rw [short_of_ge large small, fllFreq_of_negative (by omega) (by omega)] at ends₂
    have slow := ends₂.fll fits codes.1
    rcases fllFreq_of_fast large small with enough | fast
    · have success := (ends₁.done fits enough).1
      rw [same, slow] at success
      cases success
    · have failure := ends₁.fll fits (fast.trans_lt codes.2.1)
      rw [same, slow, fast] at failure
      exact codes.2.2 (Except.error.inj failure)
  · intro agree out₁ r₁ v₁ out₂ r₂ v₂ run₁ timely₁ run₂ timely₂
    have ends₁ := direct out₁ r₁ v₁ run₁ timely₁
    have ends₂ := through out₂ r₂ v₂ run₂ timely₂
    by_cases fits : CrystalFits c e
    · have fitting := agree.resolve_left (not_not.mpr fits)
      have limits := feeReference_limits (e := e) positive.le fits.1
      rw [short_of_lt limits.1 ((feeReference_lt_iff bit positive).mpr fitting)] at ends₂
      rcases lt_or_ge (r.mcg.fllFreq (feeReference c e)) 0x5B with low | enough
      · rw [ends₁.fll fits low, ends₂.fll fits low]
        exact ⟨rfl, nofun⟩
      · obtain ⟨success₁, mcg₁⟩ := ends₁.done fits enough
        obtain ⟨success₂, mcg₂⟩ := ends₂.done fits enough
        rw [success₁, success₂, mcg₁, mcg₂, feeRegisters_eq]
        exact ⟨rfl, fun _ => ⟨rfl, rfl, rfl⟩⟩
    · rw [ends₁.crystal fits, ends₂.crystal fits]
      exact ⟨rfl, nofun⟩

/-- They agree for a crystal of 8 MHz, whose reference is 31250 Hz. -/
theorem routesAgree_8MHz : RoutesAgree 8000000 0 1 resetRegisters resetStatus :=
  (routesAgree_iff atReset_reset (by decide) (.inr rfl)).mpr (.inr (by unfold ShortFits; decide))

/-- For a watch crystal `fei_fee` returns 20971520 Hz, and `fbe_fee` finds the FLL too slow. -/
theorem not_routesAgree : ¬ ∀ r v, AtReset r v → ∀ (c : ℤ) (h e : BitVec 8), 0 < c → (e = 0 ∨ e = 1) →
    RoutesAgree c h e r v := by
  intro agree
  have direct : ((feiFee 32768 0 0).replay mcgHardware promptly resetRegisters resetStatus).map Prod.fst =
      some (.ok 20971520) := by decide +kernel
  have through : ((feiFbeFee 32768 0 0).replay mcgHardware promptly resetRegisters resetStatus).map
      Prod.fst = some (.error 0x33) := by decide +kernel
  obtain ⟨⟨_, r₁, v₁⟩, replayed₁, rfl⟩ := Option.map_eq_some_iff.mp direct
  obtain ⟨⟨_, r₂, v₂⟩, replayed₂, rfl⟩ := Option.map_eq_some_iff.mp through
  obtain ⟨same, _⟩ := agree _ _ atReset_reset 32768 0 0 (by decide) (.inl rfl) _ r₁ v₁ _ r₂ v₂
    (Runs.of_replay replayed₁) (by simp [TimedOut]) (Runs.of_replay replayed₂)
    (by simp [TimedOut, timeoutCodes])
  cases same

end WirelessSpeakers.Soundness
