import Mathlib.Data.Nat.Notation

/-! # Masked assignment to a register

Drivers change some bits of a register by `reg &= ~clear; reg |= set`. The bits and the contiguous
fields of the result are computed from those of the operands, so a field that no mask touches is
kept and a field that is cleared and set is replaced.
-/

/-- `reg &= ~clear; reg |= set`. -/
def assign {w : ℕ} (reg clear set : BitVec w) : BitVec w := (reg &&& ~~~clear) ||| set

section

variable {w : ℕ} {reg clear set : BitVec w}

@[simp] theorem getElem_assign {i : ℕ} (inside : i < w) :
    (assign reg clear set)[i] = (reg[i] && !clear[i] || set[i]) := by
  simp [assign]

/-- A field of the result is the assignment to the field. -/
theorem extractLsb'_assign {start len : ℕ} (inside : start + len ≤ w) :
    (assign reg clear set).extractLsb' start len =
      assign (reg.extractLsb' start len) (clear.extractLsb' start len)
        (set.extractLsb' start len) := by
  apply BitVec.eq_of_getElem_eq
  intro i within
  have at_most : start + i < w := by omega
  simp [BitVec.getLsbD_eq_getElem at_most]

/-- A field that is cleared as a whole is replaced. -/
@[simp] theorem assign_whole (whole : clear = BitVec.allOnes w) : assign reg clear set = set := by
  simp [assign, whole]

/-- A field that is only set keeps the bits it has. -/
@[simp] theorem assign_zero : assign reg 0#w set = reg ||| set := by
  simp [assign]

/-- What an assignment has changed is lost where the next one clears it all. -/
theorem assign_assign {clear' set' : BitVec w}
    (covered : ∀ i (inside : i < w), (clear[i] || set[i]) → clear'[i]) :
    assign (assign reg clear set) clear' set' = assign reg clear' set' := by
  apply BitVec.eq_of_getElem_eq
  intro i inside
  have here := covered i inside
  simp only [getElem_assign inside]
  grind

/-- Clearing what is clear changes nothing. -/
theorem assign_cleared (zero : ∀ i (inside : i < w), clear[i] → reg[i] = false) :
    assign reg clear 0#w = reg := by
  apply BitVec.eq_of_getElem_eq
  intro i inside
  have here := zero i inside
  simp only [getElem_assign inside, BitVec.getElem_zero, Bool.or_false]
  grind

/-- The bits of a mask that was set. -/
theorem assign_set_and : assign reg 0#w set &&& set = set := by
  apply BitVec.eq_of_getElem_eq
  intro i inside
  simp only [BitVec.getElem_and, getElem_assign inside]
  grind

/-- The bits of a mask that was cleared. -/
theorem assign_clear_and : assign reg clear 0#w &&& clear = 0#w := by
  apply BitVec.eq_of_getElem_eq
  intro i inside
  simp only [BitVec.getElem_and, getElem_assign inside, BitVec.getElem_zero]
  grind

end
