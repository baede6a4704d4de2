import Mathlib.Algebra.GroupWithZero.Nat
import Mathlib.Data.List.Chain
import Mathlib.Data.List.Nodup

/-! # Regions tiled by used and free blocks

A region is a list of tiles, each with its extent, and a tile's place is the extent of those before it.
An allocator carves a used tile out of a free one and later declares it free again; `coalesce` joins all
neighbouring free tiles. None of this moves the other used tiles, so `placesUsed`, the places and
extents in use, is what a client knows of a region.
-/

/-- A stretch of a region, in use or not. -/
structure Tile where
  extent : ℕ
  used : Bool
deriving DecidableEq, Repr

namespace Tile

abbrev free (extent : ℕ) : Tile := ⟨extent, false⟩
abbrev taken (extent : ℕ) : Tile := ⟨extent, true⟩

/-- Two neighbours that are not both free. -/
def Apart (first second : Tile) : Prop := first.used = true ∨ second.used = true

end Tile

namespace Tiling

/-- The extent of a region. -/
def span (tiles : List Tile) : ℕ := (tiles.map Tile.extent).sum

/-- No free tile is followed by a free one. -/
def Separated (tiles : List Tile) : Prop := tiles.IsChain Tile.Apart

/-- Place and extent of every tile in use, from `place` on. -/
def placesUsed : ℕ → List Tile → List (ℕ × ℕ)
  | _, [] => []
  | place, tile :: rest =>
    (if tile.used then [(place, tile.extent)] else []) ++ placesUsed (place + tile.extent) rest

/-- The place of the lowest free tile, or the end of the region. -/
def lowestFree : ℕ → List Tile → ℕ
  | place, [] => place
  | place, tile :: rest => if tile.used then lowestFree (place + tile.extent) rest else place

/-- The lowest free tile with an extent of at least `need`. -/
def firstFit (need : ℕ) : ℕ → List Tile → Option ℕ
  | _, [] => none
  | place, tile :: rest =>
    if tile.used = false ∧ need ≤ tile.extent then some place
    else firstFit need (place + tile.extent) rest

/-- A tile shortened to `keep`, where a rest of at least `spare` remains; else the whole tile. -/
def carve (keep spare extent : ℕ) : List Tile :=
  if keep + spare ≤ extent then [.taken keep, .free (extent - keep)] else [.taken extent]

/-- A used tile shortened to `keep`: a free neighbour takes what is left over, else it is carved. -/
def shorten (keep spare extent : ℕ) : List Tile → List Tile
  | ⟨neighbour, false⟩ :: rest => .taken keep :: .free (neighbour + (extent - keep)) :: rest
  | rest => carve keep spare extent ++ rest

/-- One tile in front of others, joined with the next one where both are free. -/
def join (tile : Tile) : List Tile → List Tile
  | [] => [tile]
  | next :: rest =>
    if tile.used || next.used then tile :: next :: rest else .free (tile.extent + next.extent) :: rest

/-- All neighbouring free tiles joined. -/
def coalesce (tiles : List Tile) : List Tile := tiles.foldr join []

/-- Replace the tile at `target`, and what is behind it. -/
def edit (f : ℕ → List Tile → List Tile) (target : ℕ) : ℕ → List Tile → List Tile
  | _, [] => []
  | place, tile :: rest =>
    if place = target then f tile.extent rest else tile :: edit f target (place + tile.extent) rest

/-- Serve a request from the lowest free tile that is large enough. -/
def allot (need spare : ℕ) (tiles : List Tile) : List Tile :=
  match firstFit need 0 tiles with
  | none => tiles
  | some place => edit (fun extent rest => carve need spare extent ++ rest) place 0 tiles

/-- Shorten the tile at `place`. -/
def trim (need spare place : ℕ) (tiles : List Tile) : List Tile := edit (shorten need spare) place 0 tiles

/-- Free the tile at `place`, and join whatever can be joined. -/
def release (place : ℕ) (tiles : List Tile) : List Tile :=
  coalesce (edit (fun extent rest => .free extent :: rest) place 0 tiles)

section Measures

variable {tile : Tile} {first second tiles : List Tile} {place need : ℕ}

@[simp] theorem span_nil : span [] = 0 := rfl

@[simp] theorem span_cons : span (tile :: tiles) = tile.extent + span tiles := by
  rw [span, List.map_cons, List.sum_cons, span]

@[simp] theorem span_append : span (first ++ second) = span first + span second := by
  rw [span, List.map_append, List.sum_append, span, span]

theorem extent_le_span (member : tile ∈ tiles) : tile.extent ≤ span tiles := by
  obtain ⟨first, second, rfl⟩ := List.append_of_mem member
  rw [span_append, span_cons]
  omega

@[simp] theorem placesUsed_append :
    placesUsed place (first ++ second) = placesUsed place first ++ placesUsed (place + span first) second := by
  induction first generalizing place with
  | nil => rfl
  | cons tile rest ih =>
    simp only [List.cons_append, placesUsed, ih, span_cons, List.append_assoc, Nat.add_assoc]

/-- A place in use lies inside its region. -/
theorem bounds_of_mem_placesUsed {at' extent : ℕ} (member : (at', extent) ∈ placesUsed place tiles) :
    place ≤ at' ∧ at' + extent ≤ place + span tiles := by
  induction tiles generalizing place with
  | nil => exact absurd member List.not_mem_nil
  | cons tile rest ih =>
    rw [span_cons]
    rcases List.mem_append.mp member with here | behind
    · split at here
      · obtain ⟨rfl, rfl⟩ := Prod.mk.inj (List.mem_singleton.mp here)
        omega
      · exact absurd here List.not_mem_nil
    · have := ih behind
      omega

/-- A place in use is the place of one tile, which cuts the region in two. -/
theorem mem_placesUsed_iff {at' extent : ℕ} :
    (at', extent) ∈ placesUsed place tiles ↔
      ∃ first second, tiles = first ++ .taken extent :: second ∧ at' = place + span first := by
  constructor
  · intro member
    induction tiles generalizing place with
    | nil => exact absurd member List.not_mem_nil
    | cons tile rest ih =>
      rcases List.mem_append.mp member with here | behind
      · split at here
        · next inUse =>
          obtain ⟨rfl, rfl⟩ := Prod.mk.inj (List.mem_singleton.mp here)
          refine ⟨[], rest, ?_, rfl⟩
          rcases tile with ⟨extent, used⟩
          cases inUse
          rfl
        · exact absurd here List.not_mem_nil
      · obtain ⟨first, second, rfl, rfl⟩ := ih behind
        exact ⟨tile :: first, second, rfl, by rw [span_cons, Nat.add_assoc]⟩
  · rintro ⟨first, second, rfl, rfl⟩
    rw [placesUsed_append]
    exact List.mem_append_right _ (List.mem_append_left _ List.mem_cons_self)

/-- Two places in use do not overlap. -/
theorem pairwise_placesUsed (place : ℕ) (tiles : List Tile) :
    (placesUsed place tiles).Pairwise fun low high => low.1 + low.2 ≤ high.1 := by
  induction tiles generalizing place with
  | nil => exact List.Pairwise.nil
  | cons tile rest ih =>
    rw [placesUsed, List.pairwise_append]
    refine ⟨by split <;> simp, ih _, ?_⟩
    intro low here high behind
    split at here
    · rw [List.mem_singleton.mp here]
      exact (bounds_of_mem_placesUsed behind).1
    · exact absurd here List.not_mem_nil

/-- Two places in use, in either order. -/
theorem placesUsed_apart {one other : ℕ × ℕ} (member : one ∈ placesUsed place tiles)
    (memberOther : other ∈ placesUsed place tiles) (differ : one.1 ≠ other.1) :
    one.1 + one.2 ≤ other.1 ∨ other.1 + other.2 ≤ one.1 := by
  have either : (placesUsed place tiles).Pairwise fun low high : ℕ × ℕ =>
      low.1 + low.2 ≤ high.1 ∨ high.1 + high.2 ≤ low.1 := (pairwise_placesUsed place tiles).imp .inl
  have symmetric : Std.Symm fun low high : ℕ × ℕ => low.1 + low.2 ≤ high.1 ∨ high.1 + high.2 ≤ low.1 :=
    ⟨fun _ _ => Or.symm⟩
  exact either.forall member memberOther fun same => differ (congrArg Prod.fst same)

/-- A cut of the row never lies inside a tile. -/
theorem span_outside {front back : List Tile} (same : first ++ tile :: second = front ++ back) :
    span front ≤ span first ∨ span first + tile.extent ≤ span front := by
  rcases List.append_eq_append_iff.mp same with ⟨middle, rfl, behind⟩ | ⟨middle, rfl, _⟩
  · cases middle with
    | nil => exact .inl (by rw [List.append_nil])
    | cons head others =>
      cases behind
      rw [span_append, span_cons]
      exact .inr (by omega)
  · rw [span_append]
    exact .inl (by omega)

/-- A tile behind an earlier cut is one of those in front of a later one. -/
theorem mem_of_span_lt {front back : List Tile} {other : Tile}
    (same : first ++ second = front ++ other :: back) (earlier : span front < span first) : other ∈ first := by
  rcases List.append_eq_append_iff.mp same with ⟨middle, rfl, _⟩ | ⟨middle, rfl, behind⟩
  · rw [span_append] at earlier
    omega
  · cases middle with
    | nil =>
      rw [List.append_nil] at earlier
      omega
    | cons head others =>
      cases behind
      exact List.mem_append_right _ List.mem_cons_self

/-- A region without a tile in use is a row of free tiles. -/
theorem placesUsed_eq_nil_iff (place : ℕ) :
    placesUsed place tiles = [] ↔ ∀ tile ∈ tiles, tile.used = false := by
  induction tiles generalizing place with
  | nil => simp [placesUsed]
  | cons tile rest ih =>
    rw [placesUsed, List.append_eq_nil_iff, ih, List.forall_mem_cons]
    refine and_congr_left' ?_
    cases tile.used <;> simp

/-- Separated and free throughout, a region is one tile. -/
theorem eq_singleton_of_free (separated : Separated tiles) (someTile : tiles ≠ [])
    (free : ∀ tile ∈ tiles, tile.used = false) : tiles = [.free (span tiles)] := by
  cases tiles with
  | nil => exact absurd rfl someTile
  | cons tile rest =>
    obtain ⟨here, others⟩ := List.forall_mem_cons.mp free
    cases rest with
    | nil =>
      rcases tile with ⟨extent, used⟩
      cases here
      rfl
    | cons next rest =>
      rcases separated.rel with first | second
      · rw [here] at first
        contradiction
      · rw [others next List.mem_cons_self] at second
        contradiction

end Measures

section Search

variable {tiles : List Tile} {place need : ℕ}

/-- What the search finds is the lowest free tile that is large enough. -/
theorem firstFit_eq_some_iff {found : ℕ} :
    firstFit need place tiles = some found ↔
      ∃ first extent second, tiles = first ++ .free extent :: second ∧ found = place + span first ∧
        need ≤ extent ∧ ∀ tile ∈ first, tile.used = false → tile.extent < need := by
  induction tiles generalizing place with
  | nil => simp [firstFit]
  | cons tile rest ih =>
    rw [firstFit]
    split
    · next fits =>
      constructor
      · rintro ⟨rfl⟩
        rcases tile with ⟨extent, used⟩
        obtain ⟨rfl, enough⟩ := fits
        exact ⟨[], extent, rest, rfl, rfl, enough, by simp⟩
      · rintro ⟨first, extent, second, same, rfl, enough, lower⟩
        cases first with
        | nil => rfl
        | cons head first =>
          cases same
          exact absurd fits.2 (Nat.not_le.mpr (lower tile List.mem_cons_self fits.1))
    · next misfit =>
      rw [ih]
      constructor
      · rintro ⟨first, extent, second, rfl, rfl, enough, lower⟩
        refine ⟨tile :: first, extent, second, rfl, by rw [span_cons, Nat.add_assoc], enough, ?_⟩
        rw [List.forall_mem_cons]
        exact ⟨fun free => Nat.lt_of_not_le fun large => misfit ⟨free, large⟩, lower⟩
      · rintro ⟨first, extent, second, same, rfl, enough, lower⟩
        cases first with
        | nil =>
          cases same
          exact absurd ⟨rfl, enough⟩ misfit
        | cons head first =>
          cases same
          exact ⟨first, extent, second, rfl, by rw [span_cons, Nat.add_assoc], enough,
            fun tile member => lower tile (List.mem_cons_of_mem _ member)⟩

theorem firstFit_eq_none_iff :
    firstFit need place tiles = none ↔ ∀ tile ∈ tiles, tile.used = false → tile.extent < need := by
  induction tiles generalizing place with
  | nil => simp [firstFit]
  | cons tile rest ih =>
    rw [firstFit, List.forall_mem_cons]
    split
    · next fits => simp [fits.1, fits.2]
    · next misfit =>
      rw [ih]
      exact ⟨fun others => ⟨fun free => Nat.lt_of_not_le fun large => misfit ⟨free, large⟩, others⟩,
        And.right⟩

/-- Nothing below the lowest free tile is worth searching. -/
theorem firstFit_skip {first : List Tile} (inUse : ∀ tile ∈ first, tile.used = true) :
    firstFit need place (first ++ tiles) = firstFit need (place + span first) tiles := by
  induction first generalizing place with
  | nil => rfl
  | cons tile rest ih =>
    obtain ⟨here, others⟩ := List.forall_mem_cons.mp inUse
    rw [List.cons_append, firstFit, if_neg (by simp [here]), ih others, span_cons, Nat.add_assoc]

/-- The tiles below the lowest free one are all in use. -/
theorem exists_lowestFree (place : ℕ) (tiles : List Tile) :
    ∃ first second, tiles = first ++ second ∧ (∀ tile ∈ first, tile.used = true) ∧
      lowestFree place tiles = place + span first ∧ ∀ tile ∈ second.head?, tile.used = false := by
  induction tiles generalizing place with
  | nil => exact ⟨[], [], rfl, by simp, rfl, by simp⟩
  | cons tile rest ih =>
    rw [lowestFree]
    split
    · next inUse =>
      obtain ⟨first, second, rfl, used, lowest, head⟩ := ih (place + tile.extent)
      refine ⟨tile :: first, second, rfl, List.forall_mem_cons.mpr ⟨inUse, used⟩, ?_, head⟩
      rw [lowest, span_cons, Nat.add_assoc]
    · next idle => exact ⟨[], tile :: rest, rfl, by simp, rfl, by simpa using idle⟩

/-- A free tile is found before the end. -/
theorem lowestFree_lt (place : ℕ) (idle : ∃ tile ∈ tiles, tile.used = false)
    (room : ∀ tile ∈ tiles, 0 < tile.extent) :
    lowestFree place tiles < place + span tiles := by
  induction tiles generalizing place with
  | nil => simp at idle
  | cons tile rest ih =>
    obtain ⟨here, others⟩ := List.forall_mem_cons.mp room
    rw [lowestFree, span_cons]
    split
    · next inUse =>
      rw [← Nat.add_assoc]
      refine ih _ ?_ others
      obtain ⟨other, member, free⟩ := idle
      rcases List.mem_cons.mp member with rfl | behind
      · rw [inUse] at free
        contradiction
      · exact ⟨other, behind, free⟩
    · omega

theorem lowestFree_append_used {first : List Tile} (inUse : ∀ tile ∈ first, tile.used = true) :
    lowestFree place (first ++ tiles) = lowestFree (place + span first) tiles := by
  induction first generalizing place with
  | nil => rfl
  | cons tile rest ih =>
    obtain ⟨here, others⟩ := List.forall_mem_cons.mp inUse
    rw [List.cons_append, lowestFree, if_pos here, ih others, span_cons, Nat.add_assoc]

/-- The lowest free tile depends on what is behind only through its lowest free tile. -/
theorem lowestFree_append_congr {other : List Tile} (same : ∀ place, lowestFree place tiles = lowestFree place other)
    (first : List Tile) : lowestFree place (first ++ tiles) = lowestFree place (first ++ other) := by
  induction first generalizing place with
  | nil => exact same place
  | cons tile rest ih => rw [List.cons_append, List.cons_append, lowestFree, lowestFree, ih]

/-- Behind a free tile, changes do not matter to the lowest one. -/
theorem lowestFree_append_free {first second : List Tile} (idle : ∃ tile ∈ first, tile.used = false) :
    lowestFree place (first ++ second) = lowestFree place first := by
  induction first generalizing place with
  | nil => simp at idle
  | cons tile rest ih =>
    rw [List.cons_append, lowestFree, lowestFree]
    split
    · next inUse =>
      refine ih ?_
      obtain ⟨other, member, free⟩ := idle
      rcases List.mem_cons.mp member with rfl | behind
      · rw [inUse] at free
        contradiction
      · exact ⟨other, behind, free⟩
    · rfl

theorem le_lowestFree (place : ℕ) (tiles : List Tile) : place ≤ lowestFree place tiles := by
  obtain ⟨first, _, _, _, lowest, _⟩ := exists_lowestFree place tiles
  omega

/-- Either the tiles in front decide which is the lowest, or those behind them do. -/
theorem lowestFree_front {first : List Tile} (room : ∀ tile ∈ first, 0 < tile.extent) :
    (lowestFree 0 first < span first ∧ ∀ row, lowestFree 0 (first ++ row) = lowestFree 0 first) ∨
      ∀ row, lowestFree 0 (first ++ row) = lowestFree (span first) row := by
  by_cases idle : ∃ tile ∈ first, tile.used = false
  · have below := lowestFree_lt 0 idle room
    rw [Nat.zero_add] at below
    exact .inl ⟨below, fun row => lowestFree_append_free idle⟩
  · have inUse : ∀ tile ∈ first, tile.used = true := by simpa using idle
    refine .inr fun row => ?_
    rw [lowestFree_append_used inUse, Nat.zero_add]

end Search

section Carve

variable {first second : List Tile} {keep spare extent place : ℕ}

theorem span_carve (fits : keep ≤ extent) : span (carve keep spare extent) = extent := by
  unfold carve
  split
  · simp only [span_cons, span_nil]
    omega
  · rfl

/-- Used tiles go next to anything. -/
theorem separated_taken (left : Separated first) (right : Separated second) :
    Separated (first ++ .taken extent :: second) := by
  rw [Separated, List.isChain_append]
  refine ⟨left, ?_, fun last _ next head => ?_⟩
  · rw [List.isChain_cons]
    exact ⟨fun next _ => .inl rfl, right⟩
  · cases head
    exact .inr rfl

theorem separated_append_left (separated : Separated (first ++ second)) : Separated first :=
  (List.isChain_append.mp separated).1

theorem separated_append_right (separated : Separated (first ++ second)) : Separated second :=
  (List.isChain_append.mp separated).2.1

/-- What may stand behind a free tile may stand behind one of another extent. -/
theorem separated_free_cons (separated : Separated (.free extent :: second)) (other : ℕ) :
    Separated (.free other :: second) := by
  rw [Separated, List.isChain_cons] at separated ⊢
  exact separated

/-- A free tile may be carved. -/
theorem separated_carve_free (keep spare : ℕ) (separated : Separated (first ++ .free extent :: second)) :
    Separated (first ++ carve keep spare extent ++ second) := by
  have left := separated_append_left separated
  have right := separated_append_right separated
  have behind : Separated second := by
    rw [Separated, List.isChain_cons] at right
    exact right.2
  rw [List.append_assoc]
  unfold carve
  split
  · exact separated_taken left (separated_free_cons right _)
  · exact separated_taken left behind

/-- The tile that a search found is in use after it is carved, and no other is touched. -/
theorem placesUsed_carve_free (first second : List Tile) (spare place : ℕ) (fits : keep ≤ extent) :
    placesUsed place (first ++ carve keep spare extent ++ second) =
      placesUsed place first ++ (place + span first, if keep + spare ≤ extent then keep else extent) ::
        placesUsed (place + span first + extent) second := by
  rw [List.append_assoc, placesUsed_append, placesUsed_append, span_carve fits]
  congr 1
  unfold carve
  split <;> rfl

end Carve

section Shorten

variable {first second : List Tile} {keep spare extent place : ℕ}

/-- Nothing is left over. -/
theorem shorten_self (positive : 0 < spare) : shorten extent spare extent second = .taken extent :: second := by
  unfold shorten
  split
  · rw [Nat.sub_self, Nat.add_zero]
  · rw [carve, if_neg (by omega)]
    rfl

/-- A shortened tile ends in a tile in use, with the region behind it. -/
theorem exists_shorten (keep spare extent : ℕ) (second : List Tile) :
    (∃ neighbour rest, second = .free neighbour :: rest ∧
      shorten keep spare extent second = .taken keep :: .free (neighbour + (extent - keep)) :: rest) ∨
    ((∀ tile ∈ second.head?, tile.used = true) ∧
      shorten keep spare extent second = carve keep spare extent ++ second) := by
  rcases second with _ | ⟨⟨neighbour, used⟩, rest⟩
  · exact .inr ⟨by simp, rfl⟩
  · cases used with
    | false => exact .inl ⟨neighbour, rest, rfl, rfl⟩
    | true => exact .inr ⟨by simp, rfl⟩

theorem separated_shorten (keep spare : ℕ) (separated : Separated (first ++ .taken extent :: second)) :
    Separated (first ++ shorten keep spare extent second) := by
  have left := separated_append_left separated
  have right := separated_append_right separated
  rw [Separated, List.isChain_cons] at right
  obtain ⟨_, behind⟩ := right
  rcases exists_shorten keep spare extent second with ⟨neighbour, rest, rfl, same⟩ | ⟨used, same⟩
  · rw [same]
    exact separated_taken left (separated_free_cons behind _)
  · rw [same]
    unfold carve
    split
    · refine separated_taken left ?_
      change Separated (.free (extent - keep) :: second)
      rw [Separated, List.isChain_cons]
      exact ⟨fun next head => .inr (used next head), behind⟩
    · exact separated_taken left behind

/-- A shortened tile is the only one whose extent in use changes. -/
theorem placesUsed_shorten (first second : List Tile) (spare place : ℕ) (fits : keep ≤ extent) :
    ∃ left, (left = keep ∨ left = extent) ∧
      placesUsed place (first ++ shorten keep spare extent second) =
        placesUsed place first ++ (place + span first, left) ::
          placesUsed (place + span first + extent) second := by
  rcases exists_shorten keep spare extent second with ⟨neighbour, rest, rfl, same⟩ | ⟨_, same⟩
  · refine ⟨keep, .inl rfl, ?_⟩
    rw [same, placesUsed_append]
    simp only [placesUsed, if_true, Bool.false_eq_true, if_false, List.nil_append, List.cons_append]
    congr 3
    omega
  · rw [same, ← List.append_assoc, placesUsed_carve_free first second spare place fits]
    refine ⟨_, ?_, rfl⟩
    split
    · exact .inl rfl
    · exact .inr rfl

end Shorten

section Coalesce

variable {tile : Tile} {first second tiles : List Tile} {extent place : ℕ}

/-- Joining keeps the kind of the first tile. -/
theorem exists_join (tile : Tile) (tiles : List Tile) :
    ∃ extent rest, join tile tiles = ⟨extent, tile.used⟩ :: rest := by
  rcases tile with ⟨extent, used⟩
  cases tiles with
  | nil => exact ⟨extent, [], rfl⟩
  | cons next rest =>
    cases used with
    | true => exact ⟨extent, next :: rest, rfl⟩
    | false =>
      rcases next with ⟨more, nextUsed⟩
      cases nextUsed with
      | true => exact ⟨extent, _ :: rest, rfl⟩
      | false => exact ⟨extent + more, rest, rfl⟩

@[simp] theorem placesUsed_join : placesUsed place (join tile tiles) = placesUsed place (tile :: tiles) := by
  cases tiles with
  | nil => rfl
  | cons next rest =>
    rw [join]
    split
    · rfl
    · next idle =>
      simp only [Bool.not_eq_true, Bool.or_eq_false_iff] at idle
      simp only [placesUsed, idle.1, idle.2, Bool.false_eq_true, if_false, List.nil_append, Nat.add_assoc]

@[simp] theorem lowestFree_join : lowestFree place (join tile tiles) = lowestFree place (tile :: tiles) := by
  cases tiles with
  | nil => rfl
  | cons next rest =>
    rw [join]
    split
    · rfl
    · next idle =>
      simp only [Bool.not_eq_true, Bool.or_eq_false_iff] at idle
      simp only [lowestFree, idle.1, Bool.false_eq_true, if_false]

theorem separated_join (separated : Separated tiles) : Separated (join tile tiles) := by
  cases tiles with
  | nil => exact List.isChain_singleton tile
  | cons next rest =>
    rw [join]
    split
    · next apart =>
      rw [Separated, List.isChain_cons]
      refine ⟨fun other head => ?_, separated⟩
      cases head
      simpa [Tile.Apart] using apart
    · next idle =>
      simp only [Bool.not_eq_true, Bool.or_eq_false_iff] at idle
      rcases next with ⟨more, used⟩
      obtain ⟨_, rfl⟩ := idle
      exact separated_free_cons separated _

theorem separated_coalesce (tiles : List Tile) : Separated (coalesce tiles) := by
  induction tiles with
  | nil => exact List.isChain_nil
  | cons tile rest ih => exact separated_join ih

/-- Clients do not notice. -/
@[simp] theorem placesUsed_coalesce (place : ℕ) (tiles : List Tile) :
    placesUsed place (coalesce tiles) = placesUsed place tiles := by
  induction tiles generalizing place with
  | nil => rfl
  | cons tile rest ih =>
    change placesUsed place (join tile (coalesce rest)) = _
    rw [placesUsed_join, placesUsed, placesUsed, ih]

@[simp] theorem lowestFree_coalesce (place : ℕ) (tiles : List Tile) :
    lowestFree place (coalesce tiles) = lowestFree place tiles := by
  induction tiles generalizing place with
  | nil => rfl
  | cons tile rest ih =>
    change lowestFree place (join tile (coalesce rest)) = _
    rw [lowestFree_join, lowestFree, lowestFree, ih]

theorem join_eq_cons (separated : Separated (tile :: tiles)) : join tile tiles = tile :: tiles := by
  cases tiles with
  | nil => rfl
  | cons next rest =>
    have apart : Tile.Apart tile next := separated.rel
    rw [join, if_pos (by simpa [Tile.Apart] using apart)]

theorem coalesce_eq_self (separated : Separated tiles) : coalesce tiles = tiles := by
  induction tiles with
  | nil => rfl
  | cons tile rest ih =>
    change join tile (coalesce rest) = _
    rw [ih (List.IsChain.tail separated), join_eq_cons separated]

/-- In front of a tile that keeps its kind, a separated row stays as it is. -/
theorem foldr_join (separated : Separated (first ++ [tile])) (extent : ℕ) (rest : List Tile) :
    first.foldr join (⟨extent, tile.used⟩ :: rest) = first ++ ⟨extent, tile.used⟩ :: rest := by
  induction first with
  | nil => rfl
  | cons head first ih =>
    rw [List.cons_append, Separated, List.isChain_cons] at separated
    rw [List.foldr_cons, ih separated.2]
    cases first with
    | nil =>
      have apart : Tile.Apart head tile := separated.1 tile rfl
      rw [List.nil_append, join, if_pos (by simpa [Tile.Apart] using apart), List.cons_append, List.nil_append]
    | cons next first =>
      have apart : Tile.Apart head next := separated.1 next rfl
      rw [List.cons_append, join, if_pos (by simpa [Tile.Apart] using apart), List.cons_append,
        List.cons_append]

/-- Around one tile that was freed, joining it with its two neighbours joins everything. -/
theorem coalesce_freed (separated : Separated (first ++ .taken extent :: second)) :
    coalesce (first ++ .free extent :: second) =
      match first.getLast? with
      | none => join (.free extent) second
      | some last => first.dropLast ++ join last (join (.free extent) second) := by
  have behind : Separated second := List.IsChain.tail (separated_append_right separated)
  have inner : coalesce (.free extent :: second) = join (.free extent) second := by
    change join _ (coalesce second) = _
    rw [coalesce_eq_self behind]
  rw [coalesce, List.foldr_append]
  change first.foldr join (coalesce (.free extent :: second)) = _
  rw [inner]
  cases first using List.reverseRecOn with
  | nil => rfl
  | append_singleton front last =>
    rw [List.getLast?_concat, List.foldr_append, List.dropLast_concat, List.foldr_cons, List.foldr_nil]
    change _ = front ++ join last (join (.free extent) second)
    obtain ⟨joint, rest, joined⟩ := exists_join last (join (.free extent) second)
    rw [joined]
    exact foldr_join (separated_append_left separated) joint rest

end Coalesce

section Serving

variable {Request : Type*} {needs : Request → ℕ} {tiles first second : List Tile} {live : List (ℕ × Request)}
  {spare extent place : ℕ}

/-- An edit happens at the tile that it names. -/
theorem edit_append (f : ℕ → List Tile → List Tile) (place : ℕ) (tile : Tile) (second : List Tile)
    (room : ∀ tile ∈ first, 0 < tile.extent) :
    edit f (place + span first) place (first ++ tile :: second) = first ++ f tile.extent second := by
  induction first generalizing place with
  | nil => rw [span_nil, Nat.add_zero, List.nil_append, edit, if_pos rfl, List.nil_append]
  | cons head rest ih =>
    obtain ⟨here, others⟩ := List.forall_mem_cons.mp room
    rw [List.cons_append, edit, if_neg (by rw [span_cons]; omega), span_cons, ← Nat.add_assoc, ih _ others,
      List.cons_append]

theorem allot_of_none {need : ℕ} (full : firstFit need 0 tiles = none) : allot need spare tiles = tiles := by
  rw [allot, full]

theorem allot_eq {need : ℕ} (room : ∀ tile ∈ first, 0 < tile.extent)
    (found : firstFit need 0 (first ++ .free extent :: second) = some (span first)) :
    allot need spare (first ++ .free extent :: second) = first ++ carve need spare extent ++ second := by
  have here := edit_append (fun extent rest => carve need spare extent ++ rest) 0 (.free extent) second room
  rw [Nat.zero_add] at here
  rw [allot, found]
  exact here.trans (List.append_assoc ..).symm

theorem trim_eq {need : ℕ} (room : ∀ tile ∈ first, 0 < tile.extent) :
    trim need spare (span first) (first ++ .taken extent :: second) =
      first ++ shorten need spare extent second := by
  have here := edit_append (shorten need spare) 0 (.taken extent) second room
  rwa [Nat.zero_add] at here

theorem release_eq (room : ∀ tile ∈ first, 0 < tile.extent) :
    release (span first) (first ++ .taken extent :: second) = coalesce (first ++ .free extent :: second) := by
  have here := edit_append (fun extent rest => .free extent :: rest) 0 (.taken extent) second room
  rw [Nat.zero_add] at here
  rw [release, here]

/-- The tiles in use are those of the live requests, each of which has what it needs. -/
structure Serves (needs : Request → ℕ) (tiles : List Tile) (live : List (ℕ × Request)) : Prop where
  exact : (live.map Prod.fst).Perm ((placesUsed 0 tiles).map Prod.fst)
  granted : ∀ a ∈ live, ∃ extent, (a.1, extent) ∈ placesUsed 0 tiles ∧ needs a.2 ≤ extent

/-- Used tiles that are not empty start at different places. -/
theorem nodup_placesUsed (place : ℕ) (room : ∀ tile ∈ tiles, 0 < tile.extent) :
    ((placesUsed place tiles).map Prod.fst).Nodup := by
  have positive : ∀ used ∈ placesUsed place tiles, 0 < used.2 := by
    intro used member
    obtain ⟨first, second, rfl, _⟩ := mem_placesUsed_iff.mp member
    exact room _ (List.mem_append_right _ List.mem_cons_self)
  rw [List.Nodup, List.pairwise_map]
  refine List.Pairwise.imp_of_mem ?_ (pairwise_placesUsed place tiles)
  intro low high memberLow _ apart
  have := positive low memberLow
  omega

/-- One place in use has one extent. -/
theorem placesUsed_unique (room : ∀ tile ∈ tiles, 0 < tile.extent) {at' one other : ℕ}
    (member : (at', one) ∈ placesUsed place tiles) (memberOther : (at', other) ∈ placesUsed place tiles) :
    one = other := by
  have injective := List.inj_on_of_nodup_map (nodup_placesUsed place room)
  exact congrArg Prod.snd (injective member memberOther rfl)

theorem Serves.nodup (serves : Serves needs tiles live) (room : ∀ tile ∈ tiles, 0 < tile.extent) :
    (live.map Prod.fst).Nodup := serves.exact.nodup_iff.mpr (nodup_placesUsed 0 room)

/-- A live place is the place of a tile in use. -/
theorem Serves.split (serves : Serves needs tiles live) (member : place ∈ live.map Prod.fst) :
    ∃ first extent second, tiles = first ++ .taken extent :: second ∧ place = span first := by
  obtain ⟨⟨_, extent⟩, used, rfl⟩ := List.mem_map.mp (serves.exact.mem_iff.mp member)
  obtain ⟨first, second, same, there⟩ := mem_placesUsed_iff.mp used
  exact ⟨first, extent, second, same, by rw [there, Nat.zero_add]⟩

/-- Nothing live, nothing in use: the whole region is one free tile again. -/
theorem Serves.restored (serves : Serves needs tiles []) (separated : Separated tiles) (someTile : tiles ≠ []) :
    tiles = [.free (span tiles)] := by
  refine eq_singleton_of_free separated someTile ((placesUsed_eq_nil_iff 0).mp ?_)
  exact List.map_eq_nil_iff.mp serves.exact.nil_eq.symm

/-- A request that is served becomes live at the place found. -/
theorem Serves.allot {need : ℕ} {request : Request} (serves : Serves needs (first ++ .free extent :: second) live)
    (fits : need ≤ extent) (enough : needs request ≤ need) :
    Serves needs (first ++ carve need spare extent ++ second) ((span first, request) :: live) := by
  obtain ⟨exact', granted⟩ := serves
  rw [placesUsed_append] at exact' granted
  have before : placesUsed (0 + span first) (.free extent :: second) =
      placesUsed (0 + span first + extent) second := rfl
  rw [before] at exact' granted
  have after := placesUsed_carve_free first second spare 0 fits
  refine ⟨?_, ?_⟩
  · rw [after, List.map_append, List.map_cons, List.map_cons, Nat.zero_add]
    rw [List.map_append, Nat.zero_add] at exact'
    exact (exact'.cons _).trans List.perm_middle.symm
  · rw [after, List.forall_mem_cons]
    constructor
    · refine ⟨if need + spare ≤ extent then need else extent, List.mem_append_right _ ?_, ?_⟩
      · rw [Nat.zero_add]
        exact List.mem_cons_self
      · change needs request ≤ _
        split
        · exact enough
        · exact enough.trans fits
    · intro a member
      obtain ⟨extent', used, large⟩ := granted a member
      refine ⟨extent', ?_, large⟩
      rcases List.mem_append.mp used with low | high
      · exact List.mem_append_left _ low
      · exact List.mem_append_right _ (List.mem_cons_of_mem _ high)

/-- A tile that is freed was that of the request given back. -/
theorem Serves.release (serves : Serves needs (first ++ .taken extent :: second) live)
    (room : ∀ tile ∈ first ++ .taken extent :: second, 0 < tile.extent) :
    Serves needs (coalesce (first ++ .free extent :: second)) (live.filter fun a => a.1 ≠ span first) := by
  have nodup := nodup_placesUsed 0 room
  obtain ⟨exact', granted⟩ := serves
  rw [placesUsed_append, List.map_append] at nodup exact'
  rw [placesUsed_append] at granted
  have here : placesUsed (0 + span first) (.taken extent :: second) =
      (span first, extent) :: placesUsed (0 + span first + extent) second := by
    rw [Nat.zero_add]
    rfl
  rw [here] at nodup exact' granted
  rw [List.map_cons] at nodup exact'
  have after : placesUsed 0 (coalesce (first ++ .free extent :: second)) =
      placesUsed 0 first ++ placesUsed (0 + span first + extent) second := by
    rw [placesUsed_coalesce, placesUsed_append]
    rfl
  refine ⟨?_, ?_⟩
  · obtain ⟨apart, _⟩ := List.nodup_cons.mp (List.nodup_middle.mp nodup)
    have others : ∀ place ∈ (placesUsed 0 first).map Prod.fst ++
        (placesUsed (0 + span first + extent) second).map Prod.fst, decide (place ≠ span first) = true := by
      intro place member
      exact decide_eq_true fun equal => apart (equal ▸ member)
    have kept := (exact'.trans List.perm_middle).filter (· ≠ span first)
    rw [List.filter_cons_of_neg (by simp), List.filter_eq_self.mpr others, List.filter_map] at kept
    rw [after, List.map_append]
    exact kept
  · intro a member
    obtain ⟨alive, other⟩ := List.mem_filter.mp member
    obtain ⟨extent', used, large⟩ := granted a alive
    refine ⟨extent', ?_, large⟩
    rw [after]
    rcases List.mem_append.mp used with low | high
    · exact List.mem_append_left _ low
    · rcases List.mem_cons.mp high with same | high
      · have : a.1 = span first := (Prod.mk.inj same).1
        simp [this] at other
      · exact List.mem_append_right _ high

/-- A tile that is shortened leaves every request with what it needs, if the new one fits. -/
theorem Serves.trim {need : ℕ} {request : Request} (serves : Serves needs (first ++ .taken extent :: second) live)
    (room : ∀ tile ∈ first ++ .taken extent :: second, 0 < tile.extent) (fits : need ≤ extent)
    (enough : needs request ≤ need) :
    Serves needs (first ++ shorten need spare extent second)
      (live.map fun a => if a.1 = span first then (a.1, request) else a) := by
  have nodup := nodup_placesUsed 0 room
  obtain ⟨exact', granted⟩ := serves
  obtain ⟨left, size, after⟩ := placesUsed_shorten first second spare 0 fits
  have large : need ≤ left := by omega
  have before : placesUsed 0 (first ++ .taken extent :: second) =
      placesUsed 0 first ++ (0 + span first, extent) :: placesUsed (0 + span first + extent) second := by
    rw [placesUsed_append]
    rfl
  rw [before] at nodup exact' granted
  rw [List.map_append, List.map_cons] at nodup exact'
  have places : (live.map fun a => if a.1 = span first then (a.1, request) else a).map Prod.fst =
      live.map Prod.fst := by
    rw [List.map_map]
    refine List.map_congr_left fun a _ => ?_
    simp only [Function.comp_apply]
    split <;> rfl
  refine ⟨?_, ?_⟩
  · rw [places, after, List.map_append, List.map_cons]
    exact exact'
  · intro b member
    obtain ⟨a, alive, rfl⟩ := List.mem_map.mp member
    rw [after]
    split
    · next here =>
      exact ⟨left, List.mem_append_right _ (List.mem_cons.mpr (.inl (by rw [here, Nat.zero_add]))),
        enough.trans large⟩
    · next elsewhere =>
      obtain ⟨extent', used, large'⟩ := granted a alive
      refine ⟨extent', ?_, large'⟩
      rcases List.mem_append.mp used with low | high
      · exact List.mem_append_left _ low
      · rcases List.mem_cons.mp high with same | high
        · exact absurd ((Prod.mk.inj same).1.trans (Nat.zero_add _)) elsewhere
        · exact List.mem_append_right _ (List.mem_cons_of_mem _ high)

/-- Serving a request leaves the tiles in use as they are. -/
theorem mem_placesUsed_allot {need : ℕ} (room : ∀ tile ∈ tiles, 0 < tile.extent) {used : ℕ × ℕ}
    (member : used ∈ placesUsed 0 tiles) : used ∈ placesUsed 0 (allot need spare tiles) := by
  cases found : firstFit need 0 tiles with
  | none =>
    rw [allot_of_none found]
    exact member
  | some place =>
    obtain ⟨first, extent, second, rfl, there, fits, _⟩ := firstFit_eq_some_iff.mp found
    rw [Nat.zero_add] at there
    subst there
    rw [allot_eq (fun tile inside => room tile (List.mem_append_left _ inside)) found,
      placesUsed_carve_free first second spare 0 fits]
    rw [placesUsed_append] at member
    rcases List.mem_append.mp member with low | high
    · exact List.mem_append_left _ low
    · exact List.mem_append_right _ (List.mem_cons_of_mem _ high)

/-- Freeing a tile leaves the others as they are. -/
theorem mem_placesUsed_of_release (room : ∀ tile ∈ first, 0 < tile.extent) {used : ℕ × ℕ}
    (member : used ∈ placesUsed 0 (release (span first) (first ++ .taken extent :: second))) :
    used ∈ placesUsed 0 (first ++ .taken extent :: second) := by
  rw [release_eq room, placesUsed_coalesce, placesUsed_append] at member
  rw [placesUsed_append]
  rcases List.mem_append.mp member with low | high
  · exact List.mem_append_left _ low
  · exact List.mem_append_right _ (List.mem_cons_of_mem _ high)

/-- A tile that is trimmed does not grow. -/
theorem exists_of_mem_placesUsed_trim {need : ℕ} (room : ∀ tile ∈ first, 0 < tile.extent) (fits : need ≤ extent)
    {used : ℕ × ℕ}
    (member : used ∈ placesUsed 0 (trim need spare (span first) (first ++ .taken extent :: second))) :
    ∃ before, (used.1, before) ∈ placesUsed 0 (first ++ .taken extent :: second) ∧ used.2 ≤ before := by
  obtain ⟨left, size, after⟩ := placesUsed_shorten first second spare 0 fits
  rw [trim_eq room, after] at member
  rw [placesUsed_append]
  rcases List.mem_append.mp member with low | high
  · exact ⟨used.2, List.mem_append_left _ low, le_rfl⟩
  · rcases List.mem_cons.mp high with rfl | high
    · exact ⟨extent, List.mem_append_right _ List.mem_cons_self, by simp only; omega⟩
    · exact ⟨used.2, List.mem_append_right _ (List.mem_cons_of_mem _ high), le_rfl⟩

end Serving

end Tiling
