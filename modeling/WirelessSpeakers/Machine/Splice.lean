import Mathlib.Data.List.Basic

/-! # Copying a block into a memory

A memory is a total function of the address. `splice` is the effect of one `memcpy`: the block
replaces what was at its addresses and nothing else.
-/

/-- Overwrite the cells from `base` on with `block`. -/
def splice {α : Type*} (memory : ℕ → α) (base : ℕ) (block : List α) : ℕ → α := fun k =>
  if base ≤ k then (block[k - base]?).getD (memory k) else memory k

section Splice

variable {α : Type*} (memory : ℕ → α) (base : ℕ) (block : List α)

theorem splice_inside {k : ℕ} (low : base ≤ k) (high : k - base < block.length) :
    splice memory base block k = block[k - base] := by
  rw [splice, if_pos low, List.getElem?_eq_getElem high, Option.getD_some]

theorem splice_outside {k : ℕ} (outside : k < base ∨ base + block.length ≤ k) :
    splice memory base block k = memory k := by
  rw [splice]
  split
  · rw [List.getElem?_eq_none (by omega), Option.getD_none]
  · rfl

/-- Every cell after a copy is an old cell or one of the block. -/
theorem splice_eq_or_mem (k : ℕ) :
    splice memory base block k = memory k ∨ splice memory base block k ∈ block := by
  by_cases inside : base ≤ k ∧ k - base < block.length
  · right
    rw [splice_inside memory base block inside.1 inside.2]
    exact List.getElem_mem _
  · left
    exact splice_outside memory base block (by omega)

theorem splice_nil : splice memory base [] = memory := by
  funext k
  simp only [splice, List.getElem?_nil, Option.getD_none, ite_self]

/-- A copy seen through a function of the cells. -/
theorem map_splice {β : Type*} (f : α → β) :
    (fun k => f (splice memory base block k)) = splice (fun k => f (memory k)) base (block.map f) := by
  funext k
  simp only [splice, List.getElem?_map]
  split
  · exact (Option.getD_map f (memory k) _).symm
  · rfl

/-- Two blocks behind each other are one copy. -/
theorem splice_append (more : List α) :
    splice memory base (block ++ more) = splice (splice memory base block) (base + block.length) more := by
  funext k
  rcases Nat.lt_or_ge k (base + block.length) with low | high
  · rw [splice_outside _ _ more (.inl low)]
    rcases Nat.lt_or_ge k base with below | inside
    · rw [splice_outside memory base _ (.inl below), splice_outside memory base _ (.inl below)]
    · have here : k - base < block.length := by omega
      simp only [splice, if_pos inside, List.getElem?_append_left here, List.getElem?_eq_getElem here,
        Option.getD_some]
  · have behind : block.length ≤ k - base := by omega
    have same : k - base - block.length = k - (base + block.length) := by omega
    rw [splice, splice, if_pos high, if_pos (by omega), List.getElem?_append_right behind, same,
      splice_outside memory base block (.inr high)]

end Splice
