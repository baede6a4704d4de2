import WirelessSpeakers.Soundness.ClockEdits
import WirelessSpeakers.Soundness.ClockRules

/-! # The dividers of the PLL

Three calls program `PRDIV0` and `VDIV0` with offsets 1 and 24, and `pbe_pee` decodes them again. No
other call touches the two fields or turns the PLL on, so between calls they hold the arguments of the
last programming call, or the PLL has been off since reset.
-/

namespace WirelessSpeakers.Soundness

open Model Program TapeMachine

/-- The low five bits of a byte that holds a small number are that number. -/
theorem toNat_extractLsb'_ofInt {n : ℤ} (within : 0 ≤ n ∧ n < 32) :
    (((BitVec.ofInt 8 n).extractLsb' 0 5).toNat : ℤ) = n := by
  rw [BitVec.extractLsb'_toNat, BitVec.toNat_ofInt, Nat.shiftRight_zero]
  omega

theorem prdiv_prdivEdit {p : ℤ} (within : 1 ≤ p ∧ p ≤ 32) (r : ClockRegisters) :
    ((prdivEdit p).apply r).mcg.prdiv = p := by
  have low := toNat_extractLsb'_ofInt (n := p - 1) (by omega)
  have encoded : ((prdivEdit p).apply r).mcg.prdiv0 = (BitVec.ofInt 8 (p - 1)).extractLsb' 0 5 := by
    simp only [prdivEdit, ClockEdit.prdiv0_apply, c5Prdiv0, c5Prdiv0Mask, BitVec.extractLsb'_and]
    exact (assign_whole rfl).trans BitVec.and_allOnes
  rw [Mcg.prdiv, encoded, low]
  omega

theorem vdiv_vdivEdit {d : ℤ} (within : 24 ≤ d ∧ d ≤ 55) (r : ClockRegisters) :
    ((vdivEdit d).apply r).mcg.vdiv = d := by
  have low := toNat_extractLsb'_ofInt (n := d - 24) (by omega)
  have encoded : ((vdivEdit d).apply r).mcg.vdiv0 = (BitVec.ofInt 8 (d - 24)).extractLsb' 0 5 := by
    simp only [vdivEdit, ClockEdit.vdiv0_apply, c6Vdiv0, c6Vdiv0Mask, c6PllsMask,
      BitVec.extractLsb'_and, BitVec.extractLsb'_or]
    exact (assign_whole rfl).trans (BitVec.zero_or.trans BitVec.and_allOnes)
  rw [Mcg.vdiv, encoded, low]
  omega

/-- The fields hold these dividers, and they are within the limits for this crystal. -/
structure Programmed (crystalVal prdivVal vdivVal : ℤ) (mcg : Mcg) : Prop where
  prdiv : mcg.prdiv = prdivVal
  vdiv : mcg.vdiv = vdivVal
  reference : 2000000 ≤ crystalVal.tdiv prdivVal ∧ crystalVal.tdiv prdivVal ≤ 4000000
  factor : 24 ≤ vdivVal ∧ vdivVal ≤ 55

section

variable {q d : ℤ}

/-- Products of a reference and a factor within their limits. -/
theorem product_limits (reference : 2000000 ≤ q ∧ q ≤ 4000000) (factor : 24 ≤ d ∧ d ≤ 55) :
    48000000 ≤ q * d ∧ q * d ≤ 220000000 := by
  constructor
  · calc
      (48000000 : ℤ) = 2000000 * 24 := by decide
      _ ≤ q * d := Int.mul_le_mul reference.1 factor.1 (by decide) (by omega)
  · calc
      q * d ≤ 4000000 * 55 := Int.mul_le_mul reference.2 factor.2 (by omega) (by decide)
      _ = 220000000 := by decide

/-- Such products fit into an `int`. -/
theorem int_product (reference : 2000000 ≤ q ∧ q ≤ 4000000) (factor : 24 ≤ d ∧ d ≤ 55) :
    int (q * d) = q * d := by
  have limits := product_limits reference factor
  exact Int.bmod_eq_of_le (by omega) (by omega)

end

/-- All calls that have a crystal have `c`. -/
def OneCrystal (c : ℤ) (log : List (Transition × Except ℤ ℤ)) : Prop :=
  ∀ entry ∈ log, ∀ c', entry.1.crystalVal? = some c' → c' = c

theorem OneCrystal.init {c : ℤ} {log : List (Transition × Except ℤ ℤ)}
    {entry : Transition × Except ℤ ℤ} (one : OneCrystal c (log ++ [entry])) : OneCrystal c log :=
  fun earlier member => one earlier (List.mem_append_left _ member)

/-- The PLL is off, and not about to be turned on. -/
structure PllOff (r : ClockRegisters) (v : ClockStatus) : Prop where
  plls : r.mcg.plls = false
  pllst : v.pllst = false

theorem pllOff_stable : mcgHardware.Stable PllOff := by
  rintro r v move w ⟨plls, pllst⟩ moved
  refine ⟨plls, ?_⟩
  cases move with
  | pllst =>
    cases moved
    exact plls
  | clkst =>
    obtain ⟨x, _, rfl⟩ := Option.map_eq_some_iff.mp moved
    exact pllst
  | irefst | ircst | oscinit0 | lock0 | rtc =>
    cases moved
    exact pllst

/-- The store touches neither field and does not turn the PLL on. -/
structure LeavesPll (f : ClockRegisters → ClockRegisters) : Prop where
  prdiv0 : ∀ r, (f r).mcg.prdiv0 = r.mcg.prdiv0
  vdiv0 : ∀ r, (f r).mcg.vdiv0 = r.mcg.vdiv0
  plls : ∀ r, r.mcg.plls = false → (f r).mcg.plls = false

/-- Only the programming calls do more. -/
theorem leavesPll_of_dividers {x : Transition} (none : x.dividers? = none) :
    ∀ e ∈ x.edits, LeavesPll e.apply := by
  intro e member
  refine ⟨fun r => ?_, fun r => ?_, fun r off => ?_⟩ <;> revert member e <;> cases x <;>
    simp_all [Transition.dividers?, Transition.edits, Transition.externalEdits, oscillatorEdit,
      externalEdit, ircsEdit_eq]

/-- An assertion that only a programming call can break. -/
structure Survives (P : ClockRegisters → ClockStatus → Prop) : Prop where
  stable : mcgHardware.Stable P
  leaves : ∀ f, LeavesPll f → ∀ r v, P r v → P (f r) v

theorem pllOff_survives : Survives PllOff where
  stable := pllOff_stable
  leaves _ leaves r _ off := ⟨leaves.plls r off.plls, off.pllst⟩

theorem programmed_survives {c p d : ℤ} : Survives fun r _ => Programmed c p d r.mcg where
  stable _ _ _ _ held _ := held
  leaves f leaves r _ held :=
    { held with
      prdiv := by rw [← held.prdiv, Mcg.prdiv, Mcg.prdiv, leaves.prdiv0]
      vdiv := by rw [← held.vdiv, Mcg.vdiv, Mcg.vdiv, leaves.vdiv0] }

/-- What a programming call leaves: it failed before it wrote a divider, or the dividers are programmed
and `L` holds. -/
def Divides (c p d : ℤ) (P : ClockRegisters → ClockStatus → Prop) (L : Prop) (out : Except ℤ ℤ)
    (r : ClockRegisters) (v : ClockStatus) : Prop :=
  (P r v ∧ ∃ e, out = .error e) ∨ (Programmed c p d r.mcg ∧ L)

section

variable {G : ClockRegisters → Prop} {P : ClockRegisters → ClockStatus → Prop} {L : Prop} {α : Type}
  {c p d : ℤ} {h e : BitVec 8} {q : ClockDriver α} {next : α → ClockDriver ℤ}
  {rest : ClockDriver ℤ} {r : ClockRegisters} {v : ClockStatus}

/-- The contract of a call that is asked for its result, under its own condition. -/
abbrev underCondition (G : ClockRegisters → Prop) : Contract ClockRegisters ClockStatus :=
  ⟨mcgHardware, G, fun _ _ => True⟩

/-- A call without dividers keeps what survives. -/
theorem ensures_survives {x : Transition} (survives : Survives P) (none : x.dividers? = none)
    (held : P r v) : x.program.Ensures (underCondition G) (fun _ => P) r v := by
  refine Stores.ensures (k := underCondition G) x.stores_program survives.stable ?_
    (fun _ _ _ => trivial) held
  rintro _ ⟨e, member, rfl⟩ r v _ held
  exact survives.leaves e.apply (leavesPll_of_dividers none e member) r v held

theorem Survives.bind {Q : Except ℤ ℤ → ClockRegisters → ClockStatus → Prop} (survives : Survives P)
    (held : P r v) (stores : q.Stores LeavesPll fun _ => True)
    (failed : ∀ e r v, P r v → Q (.error e) r v)
    (rest : ∀ a r v, P r v → (next a).Ensures (underCondition G) Q r v) :
    (q >>= next).Ensures (underCondition G) Q r v := by
  have keeps : q.Keeps (underCondition G) P :=
    stores.mono fun f leaves r v _ held => survives.leaves f leaves r v held
  exact keeps.bind survives.stable (fun _ _ _ => trivial) held failed rest

/-- Parts before the first divider. -/
theorem Survives.before (survives : Survives P) (held : P r v)
    (stores : q.Stores LeavesPll fun _ => True)
    (rest : ∀ a r v, P r v → (next a).Ensures (underCondition G) (Divides c p d P L) r v) :
    (q >>= next).Ensures (underCondition G) (Divides c p d P L) r v :=
  survives.bind held stores (fun e _ _ held => .inl ⟨held, e, rfl⟩) rest

/-- Both dividers are written, and nothing after that touches them. -/
theorem ensures_setDividers (prdiv : 1 ≤ p ∧ p ≤ 25) (vdiv : 24 ≤ d ∧ d ≤ 55)
    (reference : 2000000 ≤ c.tdiv p ∧ c.tdiv p ≤ 4000000) (granted : ∀ r, G r → L)
    (stores : rest.Stores LeavesPll fun _ => True) :
    (do ClockDriver.edit (prdivEdit p); ClockDriver.edit (vdivEdit d); rest).Ensures
      (underCondition G) (Divides c p d P L) r v := by
  refine ensures_bind.mpr fun w _ permitted => ⟨trivial, ensures_bind.mpr fun w _ _ => ⟨trivial, ?_⟩⟩
  have programmed : Programmed c p d ((vdivEdit d).apply ((prdivEdit p).apply r)).mcg := by
    refine ⟨?_, vdiv_vdivEdit vdiv _, reference, vdiv⟩
    exact prdiv_prdivEdit (by omega) r
  have keeps : rest.Keeps (underCondition G) fun r _ => Programmed c p d r.mcg :=
    stores.mono fun f leaves r v _ held => programmed_survives.leaves f leaves r v held
  refine (keeps.ensures programmed_survives.stable (fun _ _ _ => trivial) programmed).mono ?_
  exact fun _ _ _ held => .inr ⟨held, granted r permitted⟩

@[simp] theorem leavesPll_iff {a : ClockEdit} : LeavesPll a.apply ↔
    (∀ r, (a.apply r).mcg.prdiv0 = r.mcg.prdiv0) ∧ (∀ r, (a.apply r).mcg.vdiv0 = r.mcg.vdiv0) ∧
      ∀ r, r.mcg.plls = false → (a.apply r).mcg.plls = false :=
  ⟨fun ⟨prdiv0, vdiv0, plls⟩ => ⟨prdiv0, vdiv0, plls⟩,
    fun ⟨prdiv0, vdiv0, plls⟩ => ⟨prdiv0, vdiv0, plls⟩⟩

theorem ensures_fbePbe_divides (survives : Survives P) (held : P r v)
    (granted : ∀ r, G r → PllFits c p d → L) :
    (fbePbe c p d).Ensures (underCondition G) (Divides c p d P L) r v := by
  apply survives.before held (by simp)
  intro _ r v held
  refine ensures_checkPll (fun _ code _ => .inl ⟨held, code, rfl⟩) fun fits => ?_
  refine ensures_setDividers fits.1 fits.2.1 fits.2.2.1 (fun r permitted => granted r permitted fits) ?_
  simp [waitPllst, waitLock]

theorem ensures_blpePbe_divides (survives : Survives P) (held : P r v) (granted : ∀ r, G r → L) :
    (blpePbe c p d).Ensures (underCondition G) (Divides c p d P L) r v := by
  apply survives.before held (by simp)
  intro _ r v held
  refine ensures_checkReference (fun _ code _ => .inl ⟨held, code, rfl⟩) fun fits => ?_
  refine ensures_setDividers fits.1 fits.2.1 fits.2.2 granted ?_
  simp [waitPllst, waitLock]

theorem ensures_pllInit_divides (select : BitVec 8) (survives : Survives P) (held : P r v)
    (granted : ∀ r, G r → PllFits c p d → L) :
    (pllInit c h e p d select).Ensures (underCondition G) (Divides c p d P L) r v := by
  apply survives.before held (by simp)
  intro _ r v held
  apply survives.before held (by simp [checkCrystalMax])
  intro _ r v held
  apply survives.before held (by simp)
  intro _ r v held
  refine ensures_checkPll (fun _ code _ => .inl ⟨held, code, rfl⟩) fun fits => ?_
  apply survives.before held (by simp [oscillatorEdit])
  intro _ r v held
  apply survives.before held (by simp [externalEdit])
  intro _ r v held
  apply survives.before held (by simp [waitOscinit])
  intro _ r v held
  apply survives.before held (by simp [waitIrefst])
  intro _ r v held
  apply survives.before held (by simp [waitClkst])
  intro _ r v held
  apply survives.before held (by simp [enableMonitor])
  intro _ r v held
  refine ensures_setDividers fits.1 fits.2.1 fits.2.2.1 (fun r permitted => granted r permitted fits) ?_
  simp [waitPllst, waitLock, switchToPll, waitClkst]

end

end WirelessSpeakers.Soundness
