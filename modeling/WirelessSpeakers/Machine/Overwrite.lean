import Mathlib.Data.List.Basic

/-! # Overwriting a part of a list

`overwrite` is a copy into a buffer that has room for it: the block replaces what was at its places, and
the length stays. A buffer in two parts takes a block in one of them or across the seam.
-/

/-- The cells from `start` on become those of `block`. -/
def overwrite {α : Type*} (buffer : List α) (start : ℕ) (block : List α) : List α :=
  buffer.take start ++ block ++ buffer.drop (start + block.length)

section Overwrite

variable {α : Type*} {buffer front back block more : List α} {start : ℕ}

@[simp] theorem overwrite_nil (buffer : List α) (start : ℕ) : overwrite buffer start [] = buffer := by
  rw [overwrite, List.append_nil, List.length_nil, Nat.add_zero, List.take_append_drop]

theorem length_overwrite (fits : start + block.length ≤ buffer.length) :
    (overwrite buffer start block).length = buffer.length := by
  simp only [overwrite, List.length_append, List.length_take, List.length_drop]
  omega

theorem overwrite_whole (same : block.length = buffer.length) : overwrite buffer 0 block = block := by
  rw [overwrite, List.take_zero, List.nil_append, Nat.zero_add, same, List.drop_length, List.append_nil]

/-- What was written is read back. -/
theorem take_drop_overwrite (inside : start ≤ buffer.length) :
    ((overwrite buffer start block).drop start).take block.length = block := by
  have front : (buffer.take start).length = start := by
    rw [List.length_take]
    omega
  rw [overwrite, List.append_assoc, List.drop_append_of_le_length (Nat.le_of_eq front.symm),
    List.drop_of_length_le (Nat.le_of_eq front), List.nil_append, List.take_left]

/-- What is in front of a block stays. -/
theorem take_overwrite (inside : start ≤ buffer.length) :
    (overwrite buffer start block).take start = buffer.take start := by
  have front : (buffer.take start).length = start := by
    rw [List.length_take]
    omega
  rw [overwrite, List.append_assoc, List.take_append_of_le_length (Nat.le_of_eq front.symm), List.take_take,
    Nat.min_self]

/-- What is behind a block stays. -/
theorem drop_overwrite (fits : start + block.length ≤ buffer.length) :
    (overwrite buffer start block).drop (start + block.length) = buffer.drop (start + block.length) := by
  have length : (buffer.take start ++ block).length = start + block.length := by
    rw [List.length_append, List.length_take]
    omega
  rw [overwrite, ← length, List.drop_left]

theorem getElem?_overwrite_inside (inside : start ≤ buffer.length) {i : ℕ} (within : i < block.length) :
    (overwrite buffer start block)[start + i]? = block[i]? := by
  have same := congrArg (·[i]?) (@take_drop_overwrite _ _ block _ inside)
  simpa only [List.getElem?_take_of_lt within, List.getElem?_drop] using same

theorem getElem?_overwrite_outside (fits : start + block.length ≤ buffer.length) {i : ℕ}
    (outside : i < start ∨ start + block.length ≤ i) : (overwrite buffer start block)[i]? = buffer[i]? := by
  rcases outside with early | late
  · have same := congrArg (·[i]?) (@take_overwrite _ _ block _ (Nat.le_trans (Nat.le_add_right _ _) fits))
    simpa only [List.getElem?_take_of_lt early] using same
  · have same := congrArg (·[i - (start + block.length)]?) (drop_overwrite fits)
    simpa only [List.getElem?_drop, Nat.add_sub_cancel' late] using same

theorem overwrite_front (fits : start + block.length ≤ front.length) :
    overwrite (front ++ back) start block = overwrite front start block ++ back := by
  rw [overwrite, overwrite, List.take_append_of_le_length (by omega), List.drop_append_of_le_length fits]
  simp only [List.append_assoc]

theorem overwrite_back (outside : front.length ≤ start) :
    overwrite (front ++ back) start block = front ++ overwrite back (start - front.length) block := by
  rw [overwrite, overwrite, List.take_append, List.drop_append, List.take_of_length_le outside,
    List.drop_of_length_le (by omega), List.nil_append, Nat.sub_add_comm outside]
  simp only [List.append_assoc]

/-- Two blocks behind each other are one. -/
theorem overwrite_append (fits : start + block.length ≤ buffer.length) : overwrite buffer start (block ++ more) =
    overwrite (overwrite buffer start block) (start + block.length) more := by
  have length : (buffer.take start ++ block).length = start + block.length := by
    rw [List.length_append, List.length_take]
    omega
  calc overwrite buffer start (block ++ more)
      = buffer.take start ++ block ++ (more ++ buffer.drop (start + block.length + more.length)) := by
        rw [overwrite, List.length_append, Nat.add_assoc]
        simp only [List.append_assoc]
    _ = buffer.take start ++ block ++ overwrite (buffer.drop (start + block.length)) 0 more := by
        rw [overwrite, List.take_zero, List.nil_append, List.drop_drop, Nat.zero_add]
    _ = overwrite (overwrite buffer start block) (start + block.length) more := by
        rw [show overwrite buffer start block = buffer.take start ++ block ++ buffer.drop (start + block.length)
          from rfl, overwrite_back (Nat.le_of_eq length), length, Nat.sub_self]

/-- A block across the seam of two parts. -/
theorem overwrite_seam (meets : start + block.length = front.length) :
    overwrite (front ++ back) start (block ++ more) = overwrite front start block ++ overwrite back 0 more := by
  have fits : start + block.length ≤ front.length := Nat.le_of_eq meets
  have length := length_overwrite fits
  rw [overwrite_append (by rw [List.length_append]; omega), overwrite_front fits, overwrite_back (by omega), length,
    meets, Nat.sub_self]

end Overwrite
