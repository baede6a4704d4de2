import Mathlib.Data.Nat.Digits.Defs
import Mathlib.Data.Nat.ModEq

/-! # Sums with end-around carry

A one's-complement adder for digits up to `m` adds carries at the low end again. So it computes modulo `m`,
but for one thing: `0` and `m` are different results, and only zeros add up to `0`. `SameSum` is what two
numbers have in common that such an adder does not tell apart, whatever the order of its steps.
-/

/-- The same result of an adder with end-around carry. -/
def SameSum (m a b : ℕ) : Prop := a ≡ b [MOD m] ∧ (a = 0 ↔ b = 0)

namespace SameSum

variable {m a b c d : ℕ}

theorem refl (m a : ℕ) : SameSum m a a := ⟨.refl a, .rfl⟩

theorem symm (same : SameSum m a b) : SameSum m b a := ⟨same.1.symm, same.2.symm⟩

theorem trans (one : SameSum m a b) (two : SameSum m b c) : SameSum m a c := ⟨one.1.trans two.1, one.2.trans two.2⟩

theorem add (one : SameSum m a b) (two : SameSum m c d) : SameSum m (a + c) (b + d) := by
  refine ⟨one.1.add two.1, ?_⟩
  rw [Nat.add_eq_zero_iff, Nat.add_eq_zero_iff, one.2, two.2]

theorem add_left (a : ℕ) (same : SameSum m b c) : SameSum m (a + b) (a + c) := (refl m a).add same

theorem add_right (same : SameSum m a b) (c : ℕ) : SameSum m (a + c) (b + c) := same.add (refl m c)

theorem mul_left (same : SameSum m a b) (positive : 0 < c) : SameSum m (c * a) (c * b) := by
  refine ⟨same.1.mul_left c, ?_⟩
  rw [Nat.mul_eq_zero, Nat.mul_eq_zero, or_iff_right positive.ne', or_iff_right positive.ne', same.2]

/-- Results are canonical. -/
theorem unique (same : SameSum m a b) (left : a ≤ m) (right : b ≤ m) : a = b := by
  have residue : a % m = b % m := same.1
  rcases Nat.lt_or_eq_of_le left with below | rfl
  · rcases Nat.lt_or_eq_of_le right with below' | rfl
    · rwa [Nat.mod_eq_of_lt below, Nat.mod_eq_of_lt below'] at residue
    · rw [Nat.mod_self, Nat.mod_eq_of_lt below] at residue
      rw [residue, same.2.mp residue]
  · rcases Nat.lt_or_eq_of_le right with below' | rfl
    · rw [Nat.mod_self, Nat.mod_eq_of_lt below'] at residue
      rw [← residue, same.2.mpr residue.symm]
    · rfl

end SameSum

section Folding

variable {m n : ℕ}

/-- Carries are added at the low end. -/
theorem sameSum_fold (m n : ℕ) : SameSum m (n / (m + 1) + n % (m + 1)) n := by
  have split := Nat.div_add_mod n (m + 1)
  constructor
  · have multiple : n = n / (m + 1) + n % (m + 1) + m * (n / (m + 1)) := by
      rw [Nat.add_mul, Nat.one_mul] at split
      omega
    conv_rhs => rw [multiple]
    exact (Nat.add_mul_mod_self_left _ m _).symm
  · constructor
    · intro zero
      obtain ⟨quotient, remainder⟩ := Nat.add_eq_zero_iff.mp zero
      rw [quotient, remainder] at split
      exact split.symm
    · rintro rfl
      rw [Nat.zero_div, Nat.zero_mod]

/-- A second carry is small enough for a single fold. -/
theorem fold_le (small : n ≤ 2 * m) : n / (m + 1) + n % (m + 1) ≤ m := by
  rcases Nat.lt_or_ge n (m + 1) with below | above
  · rw [Nat.div_eq_of_lt below, Nat.mod_eq_of_lt below]
    omega
  · have quotient : n / (m + 1) = 1 := Nat.div_eq_of_lt_le (by omega) (by omega)
    have split := Nat.div_add_mod n (m + 1)
    rw [quotient] at split ⊢
    omega

theorem fold_le_double (small : n < (m + 1) * (m + 1)) : n / (m + 1) + n % (m + 1) ≤ 2 * m := by
  have quotient : n / (m + 1) < m + 1 := Nat.div_lt_of_lt_mul small
  have remainder : n % (m + 1) < m + 1 := Nat.mod_lt n (Nat.succ_pos m)
  omega

end Folding

section Digits

variable {b m n low high : ℕ} {digits front back : List ℕ}

/-- Digits of base `b` in pairs, the low one first. -/
def pairSum (b : ℕ) : List ℕ → ℕ
  | low :: high :: rest => low + b * high + pairSum b rest
  | [last] => last
  | [] => 0

/-- Two digits further means nothing. -/
theorem sameSum_square (base : m + 1 = b * b) (n : ℕ) : SameSum m (b * b * n) n := by
  rw [← base, Nat.add_mul, Nat.one_mul]
  constructor
  · exact Nat.mul_add_mod m n n
  · rw [Nat.add_eq_zero_iff]
    exact and_iff_right_of_imp fun zero => by rw [zero, Nat.mul_zero]

/-- The sum of the pairs is the number that the digits stand for. -/
theorem sameSum_pairSum (base : m + 1 = b * b) (digits : List ℕ) :
    SameSum m (pairSum b digits) (Nat.ofDigits b digits) := by
  induction digits using pairSum.induct with
  | case1 low high rest ih =>
    have value : Nat.ofDigits b (low :: high :: rest) = low + b * high + b * b * Nat.ofDigits b rest := by
      simp only [Nat.ofDigits_cons]
      ring
    rw [value]
    exact (ih.trans (sameSum_square base _).symm).add_left _
  | case2 last =>
    rw [Nat.ofDigits_singleton]
    exact .refl m last
  | case3 => exact .refl m 0

/-- A swap of the two digits is a shift by one. -/
theorem sameSum_swap (base : m + 1 = b * b) (n : ℕ) : SameSum m (n % b * b + n / b) (b * n) := by
  have value : b * n = b * b * (n / b) + n % b * b := by
    conv_lhs => rw [← Nat.div_add_mod n b]
    ring
  rw [value, Nat.add_comm]
  exact (sameSum_square base _).symm.add_right _

theorem sameSum_pow (base : m + 1 = b * b) (k n : ℕ) : SameSum m ((b * b) ^ k * n) n := by
  induction k with
  | zero =>
    rw [Nat.pow_zero, Nat.one_mul]
    exact .refl m n
  | succ k ih =>
    rw [Nat.pow_succ, Nat.mul_comm _ (b * b), Nat.mul_assoc]
    exact (sameSum_square base _).trans ih

/-- What is behind an even number of digits is added as it is, what is behind an odd number is shifted by one. -/
theorem sameSum_append (base : m + 1 = b * b) (front back : List ℕ) :
    SameSum m (Nat.ofDigits b (front ++ back))
      (Nat.ofDigits b front + if front.length % 2 = 0 then Nat.ofDigits b back else b * Nat.ofDigits b back) := by
  rw [Nat.ofDigits_append]
  refine .add_left _ ?_
  have length := Nat.div_add_mod front.length 2
  split
  · next even =>
    rw [← length, even, Nat.add_zero, Nat.pow_mul, Nat.pow_two]
    exact sameSum_pow base _ _
  · next odd =>
    have odd : front.length % 2 = 1 := Nat.mod_two_ne_zero.mp odd
    rw [← length, odd, Nat.pow_succ, Nat.pow_mul, Nat.pow_two, Nat.mul_assoc]
    exact sameSum_pow base _ _

/-- A sum and its complement make all ones. -/
theorem sameSum_complement {sum : ℕ} (same : SameSum m sum n) (le : sum ≤ m) : SameSum m (m - sum + n) m := by
  have whole : SameSum m (m - sum + n) (m - sum + sum) := same.symm.add_left _
  rwa [Nat.sub_add_cancel le] at whole

/-- Another digit in one place is another sum. -/
theorem not_sameSum_of_digit (base : m + 1 = b * b) {digit other : ℕ} (small : digit < b) (small' : other < b)
    (differs : digit ≠ other) :
    ¬ SameSum m (Nat.ofDigits b (front ++ digit :: back)) (Nat.ofDigits b (front ++ other :: back)) := by
  intro same
  have congruent := same.1
  simp only [Nat.ofDigits_append, Nat.ofDigits_cons] at congruent
  have coprime : Nat.gcd m b = 1 := by
    have square : Nat.Coprime m (b * b) := by
      rw [← base]
      exact Nat.coprime_self_add_right.mpr (Nat.coprime_one_right m)
    exact square.coprime_mul_right_right
  have equal : digit ≡ other [MOD m] :=
    ((congruent.add_left_cancel' _).cancel_left_of_coprime (Nat.Coprime.pow_right _ coprime)).add_right_cancel' _
  have below : b ≤ m := by
    have two : 2 ≤ b := by omega
    have := Nat.mul_le_mul_right b two
    omega
  have residue : digit % m = other % m := equal
  rw [Nat.mod_eq_of_lt (by omega), Nat.mod_eq_of_lt (by omega)] at residue
  exact differs residue

end Digits
