import Mathlib.Data.List.Perm.Lattice
import Mathlib.Data.List.Nodup

/-! # Pools of equal elements

A pool of a fixed number of elements keeps those that are free in a list, and hands out and takes back the
first of it.
-/

/-- The elements of a pool are the free ones and those in use. -/
structure Stocked (size : ℕ) (tab : List ℕ) (used : ℕ → Prop) : Prop where
  nodup : tab.Nodup
  whole : ∀ element, element < size ↔ element ∈ tab ∨ used element
  apart : ∀ element ∈ tab, ¬ used element

section Stocked

variable {size element : ℕ} {tab : List ℕ} {used used' : ℕ → Prop}

theorem stocked_range (size : ℕ) : Stocked size (List.range size).reverse fun _ => False where
  nodup := List.nodup_reverse.mpr List.nodup_range
  whole element := by simp
  apart _ _ := not_false

theorem Stocked.malloc (stocked : Stocked size (element :: tab) used) :
    Stocked size tab fun e => e = element ∨ used e where
  nodup := (List.nodup_cons.mp stocked.nodup).2
  whole e := by
    rw [stocked.whole, List.mem_cons]
    tauto
  apart e member := by
    rintro (rfl | inUse)
    · exact (List.nodup_cons.mp stocked.nodup).1 member
    · exact stocked.apart e (List.mem_cons_of_mem _ member) inUse

theorem Stocked.free (stocked : Stocked size tab used) (inUse : used element) :
    Stocked size (element :: tab) fun e => e ≠ element ∧ used e where
  nodup := List.nodup_cons.mpr ⟨fun member => stocked.apart element member inUse, stocked.nodup⟩
  whole e := by
    rw [stocked.whole, List.mem_cons]
    rcases eq_or_ne e element with rfl | other
    · simp [inUse]
    · simp [other]
  apart e member := by
    rintro ⟨other, inUse⟩
    exact stocked.apart e ((List.mem_cons.mp member).resolve_left other) inUse

theorem Stocked.congr (stocked : Stocked size tab used) (same : ∀ e, used' e ↔ used e) :
    Stocked size tab used' := by
  rwa [show used' = used from funext fun e => propext (same e)]

theorem Stocked.mem_iff (stocked : Stocked size tab used) : element ∈ tab ↔ element < size ∧ ¬ used element := by
  rw [stocked.whole]
  constructor
  · intro member
    exact ⟨.inl member, stocked.apart element member⟩
  · rintro ⟨member | inUse, unused⟩
    · exact member
    · exact absurd inUse unused

/-- The free elements are those that are not in use, in some order. -/
theorem Stocked.perm {other : List ℕ} (one : Stocked size tab used) (two : Stocked size other used) :
    tab.Perm other := by
  refine (List.perm_ext_iff_of_nodup one.nodup two.nodup).mpr fun element => ?_
  rw [one.mem_iff, two.mem_iff]

theorem Stocked.restored (stocked : Stocked size tab used) (nothing : ∀ element, ¬ used element) :
    tab.Perm (List.range size) :=
  ((stocked.congr fun e => iff_of_false not_false (nothing e)).perm (stocked_range size)).trans (List.reverse_perm _)

end Stocked
