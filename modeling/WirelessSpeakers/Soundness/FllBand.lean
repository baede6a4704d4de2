import WirelessSpeakers.Soundness.Refusals

/-! # The bands of the FLL

The table of `FRDIV` brings an external clock of up to 50 MHz down to a reference of at most 48828 Hz.
`fll_freq` multiplies in `int`, which such a reference cannot overflow with any multiplier, and compares
the product with the band of `DRST_DRS`. What a larger or a negative reference is taken for depends on
its product modulo `2 ^ 32`.
-/

namespace WirelessSpeakers.Soundness

open Model

/-- The multiplier that `C4` selects. -/
def multiplier (mcg : Mcg) : ℤ := fllMultiplier mcg.dmx32 mcg.drstDrs

/-- The limits that `C4` selects. -/
def lowest (mcg : Mcg) : ℤ := (fllRange mcg.drstDrs).1

def highest (mcg : Mcg) : ℤ := (fllRange mcg.drstDrs).2.1

/-- What is common to the eight settings. -/
structure Band (m lowest highest : ℤ) : Prop where
  multiplier : 0 < m ∧ m ≤ 2929
  order : 0x5B < lowest ∧ lowest ≤ highest ∧ highest < 2 ^ 31
  top : highest < 39063 * m
  bottom : lowest ≤ 32768 * m

theorem band (mcg : Mcg) : Band (multiplier mcg) (lowest mcg) (highest mcg) := by
  have each : ∀ dmx32 : Bool, ∀ drs : BitVec 2,
      (0 < fllMultiplier dmx32 drs ∧ fllMultiplier dmx32 drs ≤ 2929) ∧
      (0x5B < (fllRange drs).1 ∧ (fllRange drs).1 ≤ (fllRange drs).2.1 ∧
        (fllRange drs).2.1 < 2 ^ 31) ∧
      (fllRange drs).2.1 < 39063 * fllMultiplier dmx32 drs ∧
      (fllRange drs).1 ≤ 32768 * fllMultiplier dmx32 drs := by decide
  obtain ⟨multiplier, order, top, bottom⟩ := each mcg.dmx32 mcg.drstDrs
  exact ⟨multiplier, order, top, bottom⟩

variable {mcg : Mcg} {f : ℤ}

/-- The codes are no frequencies. -/
theorem fllRange_codes (drs : BitVec 2) :
    (fllRange drs).2.2.1 < 0x5B ∧ (fllRange drs).2.2.2 < 0x5B ∧
      (fllRange drs).2.2.1 ≠ (fllRange drs).2.2.2 := by
  revert drs
  decide

theorem fllFreq_eq : mcg.fllFreq f =
    if int (f * multiplier mcg) < lowest mcg then (fllRange mcg.drstDrs).2.2.1
    else if int (f * multiplier mcg) > highest mcg then (fllRange mcg.drstDrs).2.2.2
    else int (f * multiplier mcg) := rfl

/-- A frequency is returned exactly if the product is in the band. -/
theorem fllFreq_accepts_iff : 0x5B ≤ mcg.fllFreq f ↔
    lowest mcg ≤ int (f * multiplier mcg) ∧ int (f * multiplier mcg) ≤ highest mcg := by
  have codes := fllRange_codes mcg.drstDrs
  have order := (band mcg).order
  rw [fllFreq_eq]
  split_ifs <;> omega

/-- No reference behind the dividers overflows. -/
theorem int_multiple (small : -48828 ≤ f ∧ f ≤ 48828) : int (f * multiplier mcg) = f * multiplier mcg := by
  have factor := (band mcg).multiplier
  have size : (f * multiplier mcg).natAbs ≤ 48828 * 2929 := by
    rw [Int.natAbs_mul]
    exact Nat.mul_le_mul (by omega) (by omega)
  exact Int.bmod_eq_of_le (by omega) (by omega)

/-- An accepted reference behind the dividers is within its own limit. -/
theorem reference_le_of_accepts (small : -48828 ≤ f ∧ f ≤ 48828) (accepts : 0x5B ≤ mcg.fllFreq f) :
    f ≤ 39062 := by
  have product := (fllFreq_accepts_iff.mp accepts).2
  rw [int_multiple small] at product
  have below : f * multiplier mcg < 39063 * multiplier mcg := product.trans_lt (band mcg).top
  exact Int.le_of_lt_add_one (Int.lt_of_mul_lt_mul_right below (band mcg).multiplier.1.le)

/-- A fast reference is not below the band. -/
theorem fllFreq_of_fast (fast : 32768 ≤ f) (small : f ≤ 48828) :
    0x5B ≤ mcg.fllFreq f ∨ mcg.fllFreq f = (fllRange mcg.drstDrs).2.2.2 := by
  have inside : lowest mcg ≤ f * multiplier mcg :=
    (band mcg).bottom.trans (Int.mul_le_mul_of_nonneg_right fast (band mcg).multiplier.1.le)
  rw [fllFreq_accepts_iff, fllFreq_eq, int_multiple ⟨by omega, small⟩, if_neg (not_lt.mpr inside)]
  by_cases above : f * multiplier mcg > highest mcg
  · exact .inr (if_pos above)
  · exact .inl ⟨inside, not_lt.mp above⟩

/-- A negative reference is below it. -/
theorem fllFreq_of_negative (negative : f < 0) (small : -48828 ≤ f) :
    mcg.fllFreq f = (fllRange mcg.drstDrs).2.2.1 := by
  have product : f * multiplier mcg < 0 := Int.mul_neg_of_neg_of_pos negative (band mcg).multiplier.1
  have order := (band mcg).order
  rw [fllFreq_eq, int_multiple ⟨small, by omega⟩]
  exact if_pos (by omega)

/-- By the product modulo `2 ^ 32`, for any reference. -/
theorem fllFreq_accepts_iff_emod : 0x5B ≤ mcg.fllFreq f ↔
    lowest mcg ≤ f * multiplier mcg % 2 ^ 32 ∧ f * multiplier mcg % 2 ^ 32 ≤ highest mcg := by
  have order := (band mcg).order
  rw [fllFreq_accepts_iff, int, Int.bmod]
  split_ifs <;> omega

section

variable {c : ℤ} {e : BitVec 8}

/-- The rows of the table. -/
theorem tdiv_frdivVal (above : 40000 < c) : c.tdiv (32 * 2 ^ (frdivVal c).toNat) =
    if c ≤ 1250000 then c / 32 else if c ≤ 2500000 then c / 64 else if c ≤ 5000000 then c / 128
    else if c ≤ 10000000 then c / 256 else if c ≤ 20000000 then c / 512 else c / 1024 := by
  rw [Int.tdiv_eq_ediv_of_nonneg (by omega)]
  unfold frdivVal
  split_ifs <;> rfl

theorem tdiv_frdivVal_le_iff (above : 40000 < c) :
    c.tdiv (32 * 2 ^ (frdivVal c).toNat) ≤ 39063 ↔ c ≤ 40001535 := by
  rw [tdiv_frdivVal above]
  split_ifs <;> omega

theorem or_toNat_pos {a b : BitVec 2} (nonzero : a ≠ 0) : 0 < (a ||| b).toNat := by
  revert a b
  decide

theorem rangeVal_ne_zero (above : 40000 < c) : (rangeVal c).extractLsb' 0 2 ≠ 0 := by
  rw [rangeVal, if_neg (not_le.mpr above)]
  split_ifs <;> decide

/-- Above 40 kHz every call divides by the row of the table. -/
theorem feeReference_above (above : 40000 < c) :
    feeReference c e = c.tdiv (32 * 2 ^ (frdivVal c).toNat) :=
  if_pos (or_toNat_pos (rangeVal_ne_zero above))

/-- Up to 40 kHz nothing is divided, unless `erefs_val` reaches into `RANGE0`. -/
theorem feeReference_below (below : c ≤ 40000) (bit : e = 0 ∨ e = 1) : feeReference c e = c := by
  have range : rangeVal c = 0 := if_pos below
  have frdiv : frdivVal c = 0 := if_pos (by omega)
  rcases bit with rfl | rfl <;> simp [feeReference, range, frdiv]

theorem feeReference_limits (positive : 0 ≤ c) (accepted : c ≤ 50000000) :
    0 ≤ feeReference c e ∧ feeReference c e ≤ 48828 := by
  rcases Int.lt_or_le 40000 c with above | below
  · rw [feeReference_above above, tdiv_frdivVal above]
    split_ifs <;> omega
  · have frdiv : frdivVal c = 0 := if_pos (by omega)
    simp only [feeReference, frdiv, Int.tdiv_eq_ediv_of_nonneg positive]
    split_ifs
    · change 0 ≤ c / 32 ∧ c / 32 ≤ 48828
      omega
    · change 0 ≤ c / 1 ∧ c / 1 ≤ 48828
      omega

end

end WirelessSpeakers.Soundness
