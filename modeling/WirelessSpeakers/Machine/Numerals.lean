import Mathlib.Data.Nat.Digits.Defs

/-! # Numerals in the fields of a record

A number below `b ^ k` is written with `k` digits, each taken off what the digits before it leave, and
`Nat.ofDigits` has its value. Fields of one width are found in a record by the lengths of the texts in
front of them, whatever the fields hold.
-/

/-- `k` digits of a number, the most significant first. -/
def leadingDigits (b : ℕ) : ℕ → ℕ → List ℕ
  | 0, _ => []
  | k + 1, n => n / b ^ k :: leadingDigits b k (n % b ^ k)

section LeadingDigits

variable {b k n : ℕ}

@[simp] theorem length_leadingDigits : (leadingDigits b k n).length = k := by
  induction k generalizing n with
  | zero => rfl
  | succ k ih => rw [leadingDigits, List.length_cons, ih]

/-- The first digit, and what it leaves to the others. -/
theorem div_and_mod_lt (fits : n < b ^ (k + 1)) : n / b ^ k < b ∧ n % b ^ k < b ^ k := by
  have first : n / b ^ k < b := Nat.div_lt_of_lt_mul (by rwa [← Nat.pow_succ])
  exact ⟨first, Nat.mod_lt n (Nat.pow_pos (Nat.zero_lt_of_lt first))⟩

theorem lt_of_mem_leadingDigits (fits : n < b ^ k) : ∀ d ∈ leadingDigits b k n, d < b := by
  induction k generalizing n with
  | zero => exact fun d member => absurd member List.not_mem_nil
  | succ k ih =>
    obtain ⟨first, others⟩ := div_and_mod_lt fits
    rw [leadingDigits, List.forall_mem_cons]
    exact ⟨first, ih others⟩

/-- The digits stand for the number. -/
theorem ofDigits_leadingDigits (fits : n < b ^ k) : Nat.ofDigits b (leadingDigits b k n).reverse = n := by
  induction k generalizing n with
  | zero => exact (Nat.lt_one_iff.mp fits).symm
  | succ k ih =>
    rw [leadingDigits, List.reverse_cons, Nat.ofDigits_append, List.length_reverse, length_leadingDigits,
      Nat.ofDigits_singleton, ih (div_and_mod_lt fits).2]
    exact Nat.mod_add_div n (b ^ k)

end LeadingDigits

section Fields

variable {α : Type*} {width : ℕ}

/-- Each entry is a text and the field behind it. -/
def layOut (entries : List (List α × List α)) : List α := entries.flatMap fun entry => entry.1 ++ entry.2

/-- The fields behind texts of these lengths. -/
def fieldsBehind (width : ℕ) : List ℕ → List α → List (List α)
  | [], _ => []
  | length :: lengths, record =>
    (record.drop length).take width :: fieldsBehind width lengths ((record.drop length).drop width)

/-- The reader finds the fields that were laid out. -/
theorem fieldsBehind_layOut (entries : List (List α × List α)) (rest : List α)
    (uniform : ∀ entry ∈ entries, entry.2.length = width) :
    fieldsBehind width (entries.map fun entry => entry.1.length) (layOut entries ++ rest) =
      entries.map Prod.snd := by
  induction entries with
  | nil => rfl
  | cons entry entries ih =>
    obtain ⟨whole, others⟩ := List.forall_mem_cons.mp uniform
    have record : layOut (entry :: entries) ++ rest =
        entry.1 ++ (entry.2 ++ (layOut entries ++ rest)) := by
      simp only [layOut, List.flatMap_cons, List.append_assoc]
    rw [record, List.map_cons, List.map_cons, fieldsBehind, List.drop_left, List.take_left' whole,
      List.drop_left' whole, ih others]

end Fields
