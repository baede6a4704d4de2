import Mathlib.Logic.Function.Iterate

/-! # Probing candidates in turn

Candidates come one after the other, each from the last one, and the first that is free is taken. After a
given number of them, the search ends without one. Where the candidates go round a cycle, it ends so only if
none of the cycle is free.
-/

/-- Probe the candidate behind `a`, and as many more as given. With the last one that was probed, and whether
it is free. -/
def probe {α : Type*} (succ : α → α) (taken : α → Bool) : ℕ → α → α × Bool
  | 0, a => (succ a, !taken (succ a))
  | more + 1, a => if taken (succ a) then probe succ taken more (succ a) else (succ a, true)

section Probe

variable {α : Type*} {succ : α → α} {taken : α → Bool} {more : ℕ} {a : α}

/-- What is found is the first that is free. -/
theorem probe_found (found : (probe succ taken more a).2 = true) : ∃ k ≤ more,
    (probe succ taken more a).1 = succ^[k + 1] a ∧ taken (succ^[k + 1] a) = false ∧
      ∀ j < k, taken (succ^[j + 1] a) = true := by
  induction more generalizing a with
  | zero => exact ⟨0, Nat.le_refl 0, rfl, by simpa [probe] using found, by simp⟩
  | succ more ih =>
    cases here : taken (succ a) with
    | false => exact ⟨0, Nat.zero_le _, by simp [probe, here], here, by simp⟩
    | true =>
      simp only [probe, here, if_true] at found ⊢
      obtain ⟨k, below, same, free, before⟩ := ih found
      refine ⟨k + 1, by omega, same, free, ?_⟩
      intro j less
      cases j with
      | zero => exact here
      | succ j => exact before j (by omega)

/-- A search that ends without a candidate has seen none that is free. -/
theorem probe_failed (failed : (probe succ taken more a).2 = false) :
    ∀ k ≤ more, taken (succ^[k + 1] a) = true := by
  induction more generalizing a with
  | zero =>
    intro k below
    obtain rfl : k = 0 := by omega
    simpa [probe] using failed
  | succ more ih =>
    cases here : taken (succ a) with
    | false => simp [probe, here] at failed
    | true =>
      simp only [probe, here, if_true] at failed
      intro k below
      cases k with
      | zero => exact here
      | succ k => exact ih failed k (by omega)

end Probe
