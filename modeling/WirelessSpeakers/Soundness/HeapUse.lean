import Mathlib.Order.Bounds.Basic
import WirelessSpeakers.Soundness.RamHeap

/-! # What the users of the heap may rely on

Over every sequence of calls in which only live pointers are given back or trimmed, the used tiles of
the heap are those of the live pointers. So every call returns, no two blocks overlap, and a heap
without live pointers is as large as it was.
-/

namespace WirelessSpeakers.Soundness

open Model Tiling

/-- The heap is laid out as the tiles, and those in use are the blocks of the live pointers. -/
structure Sound (s : HeapUse) (tiles : List Tile) : Prop extends Represents s.heap tiles where
  serves : Serves footprint tiles (s.live.map fun a => (a.mem, a.size))
  behind : ∀ a ∈ s.live, sizeofStructMem ≤ a.rmem

section Sound

variable {s t : HeapUse} {tiles : List Tile}

theorem Sound.pointer_mem (sound : Sound s tiles) {a : Allocation} (alive : a ∈ s.live) :
    pointer a.mem = a.rmem := Nat.sub_add_cancel (sound.behind a alive)

/-- A live pointer points into a tile in use. -/
theorem Sound.split (sound : Sound s tiles) {rmem : ℕ} (alive : rmem ∈ s.live.map Allocation.rmem) :
    ∃ first extent second, tiles = first ++ .taken extent :: second ∧ rmem = pointer (span first) := by
  obtain ⟨a, member, rfl⟩ := List.mem_map.mp alive
  have place : a.mem ∈ (s.live.map fun a => (a.mem, a.size)).map Prod.fst := by
    rw [List.map_map]
    exact List.mem_map_of_mem member
  obtain ⟨first, extent, second, same, there⟩ := sound.serves.split place
  exact ⟨first, extent, second, same, by rw [← there, sound.pointer_mem member]⟩

theorem Sound.rmem_eq_iff (sound : Sound s tiles) {a : Allocation} (alive : a ∈ s.live) (place : ℕ) :
    a.rmem = pointer place ↔ a.mem = place := by
  rw [← sound.pointer_mem alive, pointer, pointer]
  omega

theorem initial_sound : Sound {} [.free memSizeAligned] where
  toRepresents := memInit_represents
  serves := ⟨List.Perm.nil, by simp⟩
  behind := by simp

theorem Sound.malloc (sound : Sound s tiles) (size : BitVec 16) (positive : size ≠ 0) :
    ∃ heap, s.heap.memMalloc size = some (heap, (firstFit (footprint size) 0 tiles).map pointer) ∧
      Sound ⟨heap, ((firstFit (footprint size) 0 tiles).map fun place =>
        ⟨pointer place, size⟩).toList ++ s.live⟩ (allot (footprint size) spareRoom tiles) := by
  obtain ⟨heap, returns, represents⟩ := memMalloc_refines sound.toRepresents positive
  refine ⟨heap, returns, represents, ?_, ?_⟩
  · cases found : firstFit (footprint size) 0 tiles with
    | none =>
      rw [allot_of_none found]
      exact sound.serves
    | some place =>
      obtain ⟨first, extent, second, rfl, there, fits, _⟩ := firstFit_eq_some_iff.mp found
      rw [Nat.zero_add] at there
      subst there
      rw [allot_eq (fun tile member => sound.room tile (List.mem_append_left _ member)) found]
      exact sound.serves.allot fits le_rfl
  · intro a member
    rcases List.mem_append.mp member with here | alive
    · obtain ⟨place, _, rfl⟩ := Option.map_eq_some_iff.mp (Option.mem_toList.mp here)
      exact Nat.le_add_left _ _
    · exact sound.behind a alive

theorem Sound.free (sound : Sound s tiles) {rmem : ℕ} (alive : rmem ∈ s.live.map Allocation.rmem) :
    ∃ heap, s.heap.memFree (some rmem) = some heap ∧
      Sound ⟨heap, s.live.filter (·.rmem ≠ rmem)⟩ (release (rmem - sizeofStructMem) tiles) := by
  obtain ⟨first, extent, second, rfl, rfl⟩ := sound.split alive
  obtain ⟨heap, returns, represents⟩ := memFree_refines sound.toRepresents
  obtain ⟨_, _, back⟩ := sound.pointer_legal
  rw [back]
  refine ⟨heap, returns, represents, ?_, fun a member => sound.behind a (List.mem_filter.mp member).1⟩
  have places : (s.live.filter (·.rmem ≠ pointer (span first))).map (fun a => (a.mem, a.size)) =
      (s.live.map fun a => (a.mem, a.size)).filter fun a => a.1 ≠ span first := by
    rw [List.filter_map]
    congr 1
    refine List.filter_congr fun a member => ?_
    simp only [Function.comp_apply, ne_eq, sound.rmem_eq_iff member]
  rw [release_eq fun tile member => sound.room tile (List.mem_append_left _ member)]
  change Serves footprint _ ((s.live.filter _).map _)
  rw [places]
  exact sound.serves.release sound.room

theorem Sound.trim (sound : Sound s tiles) {rmem : ℕ} {newsize : BitVec 16}
    (alive : rmem ∈ s.live.map Allocation.rmem)
    (fits : rmem + blockSize newsize ≤ (s.heap.ram (rmem - sizeofStructMem)).next) :
    ∃ heap, s.heap.memTrim rmem newsize = some (heap, some rmem) ∧
      Sound ⟨heap, HeapUse.resize s.live rmem newsize⟩
        (Tiling.trim (footprint newsize) spareRoom (rmem - sizeofStructMem) tiles) := by
  obtain ⟨first, extent, second, rfl, rfl⟩ := sound.split alive
  obtain ⟨_, _, back⟩ := sound.pointer_legal
  rw [back] at fits ⊢
  have enough : footprint newsize ≤ extent := by
    rw [sound.header] at fits
    unfold pointer at fits
    unfold footprint
    simp only at fits
    omega
  obtain ⟨heap, returns, represents⟩ := memTrim_refines sound.toRepresents enough
  refine ⟨heap, returns, represents, ?_, ?_⟩
  · have places : (HeapUse.resize s.live (pointer (span first)) newsize).map (fun a => (a.mem, a.size)) =
        (s.live.map fun a => (a.mem, a.size)).map fun a => if a.1 = span first then (a.1, newsize) else a := by
      rw [HeapUse.resize, List.map_map, List.map_map]
      refine List.map_congr_left fun a member => ?_
      simp only [Function.comp_apply, sound.rmem_eq_iff member]
      split <;> rfl
    rw [trim_eq fun tile member => sound.room tile (List.mem_append_left _ member)]
    change Serves footprint _ ((HeapUse.resize _ _ _).map _)
    rw [places]
    exact sound.serves.trim sound.room enough le_rfl
  · intro b member
    obtain ⟨a, alive, rfl⟩ := List.mem_map.mp member
    have := sound.behind a alive
    split <;> exact this

/-- A size above that of the block is refused with NULL, or stops the system. -/
theorem Sound.trim_large (sound : Sound s tiles) {rmem : ℕ} {newsize : BitVec 16}
    (alive : rmem ∈ s.live.map Allocation.rmem)
    (large : (s.heap.ram (rmem - sizeofStructMem)).next < rmem + blockSize newsize) :
    s.heap.memTrim rmem newsize = if memSizeAligned < blockSize newsize then some (s.heap, none) else none := by
  obtain ⟨first, extent, second, rfl, rfl⟩ := sound.split alive
  obtain ⟨_, legal, back⟩ := sound.pointer_legal
  have header := sound.header
  have whole := sound.whole
  have room := (sound.fit (.taken extent) (List.mem_append_right _ List.mem_cons_self)).1
  rw [span_append, span_cons] at whole
  change span first + (extent + span second) = memSizeAligned at whole
  change sizeofStructMem + minSizeAligned ≤ extent at room
  have capacity : memSize (((span first + extent : ℕ) : ℤ) - span first - sizeofStructMem) =
      extent - sizeofStructMem := by
    have small : memSizeAligned < 2 ^ 16 := by decide
    unfold memSize
    omega
  rw [back, header] at large
  unfold pointer at large
  simp only at large
  have refused : ¬ blockSize newsize ≤ extent - sizeofStructMem := by omega
  unfold RamHeap.memTrim
  simp only [back, header, capacity, if_pos legal, if_neg refused]

end Sound

theorem Sound.malloc_zero {s : HeapUse} : s.heap.memMalloc 0 = some (s.heap, none) := by
  unfold RamHeap.memMalloc
  rw [if_pos rfl]

/-- What a call that returns has done. -/
theorem Sound.step_cases {s t : HeapUse} {tiles : List Tile} (sound : Sound s tiles) {call : HeapCall}
    (step : heapUse.step s call = some t) :
    t = s ∨
    (∃ size result, size ≠ 0 ∧ s.heap.memMalloc size = some (t.heap, result) ∧
      Sound t (allot (footprint size) spareRoom tiles)) ∨
    (∃ rmem, rmem ∈ s.live.map Allocation.rmem ∧ s.heap.memFree (some rmem) = some t.heap ∧
      Sound t (release (rmem - sizeofStructMem) tiles)) ∨
    ∃ rmem newsize result, rmem ∈ s.live.map Allocation.rmem ∧
      rmem + blockSize newsize ≤ (s.heap.ram (rmem - sizeofStructMem)).next ∧
      s.heap.memTrim rmem newsize = some (t.heap, result) ∧
      Sound t (Tiling.trim (footprint newsize) spareRoom (rmem - sizeofStructMem) tiles) := by
  simp only [heapUse] at step
  cases call with
  | malloc size =>
    simp only [HeapUse.step] at step
    by_cases positive : size = 0
    · rw [positive, Sound.malloc_zero] at step
      cases step
      exact .inl rfl
    · obtain ⟨heap, returns, after⟩ := sound.malloc size positive
      simp only [returns, Option.map_some, Option.map_map, Option.some_inj] at step
      subst step
      exact .inr (.inl ⟨size, _, positive, returns, after⟩)
  | free rmem =>
    simp only [HeapUse.step] at step
    split at step
    · next alive =>
      obtain ⟨heap, returns, after⟩ := sound.free alive
      rw [returns] at step
      cases step
      exact .inr (.inr (.inl ⟨rmem, alive, returns, after⟩))
    · contradiction
  | trim rmem newsize =>
    simp only [HeapUse.step] at step
    split at step
    · next alive =>
      rcases Nat.lt_or_ge (s.heap.ram (rmem - sizeofStructMem)).next (rmem + blockSize newsize) with large | small
      · rw [sound.trim_large alive large] at step
        split at step
        · cases step
          exact .inl rfl
        · contradiction
      · obtain ⟨heap, returns, after⟩ := sound.trim alive small
        rw [returns] at step
        cases step
        exact .inr (.inr (.inr ⟨rmem, newsize, _, alive, small, returns, after⟩))
    · contradiction

/-- It leaves a heap that is laid out again. -/
theorem Sound.step {s t : HeapUse} {tiles : List Tile} (sound : Sound s tiles) {call : HeapCall}
    (step : heapUse.step s call = some t) : ∃ tiles', Sound t tiles' := by
  obtain rfl | ⟨_, _, _, _, after⟩ | ⟨_, _, _, after⟩ | ⟨_, _, _, _, _, _, after⟩ := sound.step_cases step
  · exact ⟨tiles, sound⟩
  · exact ⟨_, after⟩
  · exact ⟨_, after⟩
  · exact ⟨_, after⟩

/-- Every state that calls lead to is laid out. -/
theorem reachable_sound {s : HeapUse} (reachable : heapUse.Reachable s) : ∃ tiles, Sound s tiles := by
  refine TapeMachine.invariant (P := fun s => ∃ tiles, Sound s tiles) ⟨_, initial_sound⟩ ?_ reachable
  rintro s call t - ⟨tiles, sound⟩ step
  exact sound.step step

/-- A block of 100 bytes, trimmed to 40. -/
def oneBlock : List HeapCall := [.malloc 100#16, .trim 8 40#16]

/-- The block of a live pointer. -/
theorem Sound.block {s : HeapUse} {tiles : List Tile} (sound : Sound s tiles) {a : Allocation}
    (alive : a ∈ s.live) : ∃ extent, (a.mem, extent) ∈ placesUsed 0 tiles ∧ footprint a.size ≤ extent ∧
      (s.heap.ram a.mem).next = a.mem + extent := by
  have there : (a.mem, a.size) ∈ s.live.map fun a => (a.mem, a.size) := List.mem_map_of_mem alive
  obtain ⟨extent, used, enough⟩ := sound.serves.granted _ there
  refine ⟨extent, used, enough, ?_⟩
  obtain ⟨first, second, rfl, place⟩ := mem_placesUsed_iff.mp used
  simp only at place
  rw [place, Nat.zero_add, sound.header]

/-- A block holds at least what was asked for, unless rounding wrapped around. -/
theorem le_blockSize_iff (size : BitVec 16) : size.toNat ≤ blockSize size ↔ size.toNat ≤ 65532 := by
  have below := size.isLt
  have aligned : memSize (memAlignSize size.toNat) =
      if size.toNat ≤ 65532 then (size.toNat + 3) / 4 * 4 else 0 := by
    unfold memSize memAlignSize memAlignment
    split <;> omega
  unfold blockSize minSizeAligned
  simp only [aligned]
  split_ifs <;> omega

theorem Sound.apart {s : HeapUse} {tiles : List Tile} (sound : Sound s tiles) :
    s.live.Pairwise fun a b => (s.heap.ram a.mem).next ≤ b.mem ∨ (s.heap.ram b.mem).next ≤ a.mem := by
  have distinct := sound.serves.nodup sound.room
  rw [List.map_map, List.Nodup, List.pairwise_map] at distinct
  refine distinct.imp_of_mem fun {a b} aliveA aliveB apart => ?_
  obtain ⟨extentA, usedA, _, nextA⟩ := sound.block aliveA
  obtain ⟨extentB, usedB, _, nextB⟩ := sound.block aliveB
  rw [nextA, nextB]
  exact placesUsed_apart usedA usedB apart

theorem Sound.inside {s : HeapUse} {tiles : List Tile} (sound : Sound s tiles) {a : Allocation} (alive : a ∈ s.live) :
    a.rmem = a.mem + sizeofStructMem ∧ a.rmem % memAlignment = 0 ∧
      a.rmem + minSizeAligned ≤ (s.heap.ram a.mem).next ∧ (s.heap.ram a.mem).next ≤ memSizeAligned ∧
      (a.rmem + a.size.toNat ≤ (s.heap.ram a.mem).next ↔ a.size.toNat ≤ 65532) := by
  obtain ⟨extent, used, enough, next⟩ := sound.block alive
  have pointed := sound.pointer_mem alive
  have inside := (bounds_of_mem_placesUsed used).2
  have whole := sound.whole
  have least := (blockSize_bounds a.size).1
  have covers := le_blockSize_iff a.size
  have total : memSizeAligned < 65532 := by decide
  unfold pointer at pointed
  unfold footprint at enough
  refine ⟨pointed.symm, ?_, ?_, ?_, ?_⟩
  · obtain ⟨first, _, second, same, there⟩ := sound.split (List.mem_map_of_mem alive)
    subst same
    rw [there]
    exact sound.pointer_legal.1
  · omega
  · omega
  · omega

/-- The blocks of the live pointers lie in the heap, aligned and apart from each other, each with its
header in front; and a block is as large as its request exactly if that is at most 65532 bytes. -/
theorem blocks_apart {s : HeapUse} (reachable : heapUse.Reachable s) :
    (s.live.Pairwise fun a b =>
      (s.heap.ram a.mem).next ≤ b.mem ∨ (s.heap.ram b.mem).next ≤ a.mem) ∧
    ∀ a ∈ s.live, a.rmem = a.mem + sizeofStructMem ∧ a.rmem % memAlignment = 0 ∧
      a.rmem + minSizeAligned ≤ (s.heap.ram a.mem).next ∧ (s.heap.ram a.mem).next ≤ memSizeAligned ∧
      (a.rmem + a.size.toNat ≤ (s.heap.ram a.mem).next ↔ a.size.toNat ≤ 65532) := by
  obtain ⟨tiles, sound⟩ := reachable_sound reachable
  exact ⟨sound.apart, fun a alive => sound.inside alive⟩

theorem oneBlock_apart : ∃ s, heapUse.run (oneBlock ++ [.malloc 65535#16]) = some s ∧
    ∀ a ∈ s.live, a.rmem % memAlignment = 0 ∧
      (a.rmem + a.size.toNat ≤ (s.heap.ram a.mem).next ↔ a.size.toNat ≤ 65532) := by
  refine ⟨_, rfl, fun a alive => ?_⟩
  obtain ⟨_, aligned, _, _, large⟩ := (blocks_apart ⟨oneBlock ++ [.malloc 65535#16], rfl⟩).2 a alive
  exact ⟨aligned, large⟩

theorem Sound.restored {s : HeapUse} {tiles : List Tile} (sound : Sound s tiles) (nothing : s.live = []) :
    tiles = [.free memSizeAligned] ∧ s.heap.lfree = 0 ∧ s.heap.ram 0 = ⟨memSizeAligned, 0, false⟩ := by
  have serves := sound.serves
  rw [nothing] at serves
  have someTile : tiles ≠ [] := by
    rintro rfl
    exact absurd sound.whole (by decide)
  have one := serves.restored sound.separated someTile
  rw [sound.whole] at one
  subst one
  exact ⟨rfl, sound.lowest, sound.linked.1⟩

/-- With nothing live, the heap is one free block again: any request but for 0 bytes that fits into an empty heap,
as `mem_malloc` rounds it, is served, at the pointer that `mem_malloc` returned first. -/
theorem heap_restored {s : HeapUse} (reachable : heapUse.Reachable s) (nothing : s.live = []) :
    s.heap.lfree = 0 ∧ s.heap.ram 0 = ⟨memSizeAligned, 0, false⟩ ∧
    ∀ size, size ≠ 0 → footprint size ≤ memSizeAligned →
      ∃ heap, s.heap.memMalloc size = some (heap, some sizeofStructMem) := by
  obtain ⟨tiles, sound⟩ := reachable_sound reachable
  obtain ⟨rfl, lowest, header⟩ := sound.restored nothing
  refine ⟨lowest, header, fun size positive fits => ?_⟩
  obtain ⟨heap, returns, _⟩ := sound.malloc size positive
  rw [firstFit, if_pos ⟨rfl, fits⟩] at returns
  exact ⟨heap, returns⟩

theorem oneBlock_restored : ∃ s, heapUse.run (oneBlock ++ [.free 8]) = some s ∧ s.heap.lfree = 0 :=
  ⟨_, rfl, (heap_restored ⟨oneBlock ++ [.free 8], rfl⟩ rfl).1⟩

/-- Both links agree, the list goes up to `ram_end`, no free block is followed by a free one, and
`lfree` is the lowest free block. -/
theorem list_consistent {s : HeapUse} (reachable : heapUse.Reachable s) :
    (∀ p, Listed s.heap p → p ≠ memSizeAligned →
      p < (s.heap.ram p).next ∧ (s.heap.ram p).next ≤ memSizeAligned ∧
      ((s.heap.ram p).next ≠ memSizeAligned → (s.heap.ram (s.heap.ram p).next).prev = p ∧
        ((s.heap.ram p).used = true ∨ (s.heap.ram (s.heap.ram p).next).used = true))) ∧
    IsLeast {p | Listed s.heap p ∧ (p = memSizeAligned ∨ (s.heap.ram p).used = false)} s.heap.lfree := by
  obtain ⟨tiles, sound⟩ := reachable_sound reachable
  have whole := sound.whole
  constructor
  · intro p listed inner
    obtain ⟨first, second, rfl, rfl⟩ := sound.listed_iff.mp listed
    rcases sound.toLaid.behind with ⟨_, atEnd⟩ | ⟨tile, rest, rfl, _, header⟩
    · exact absurd atEnd inner
    · have room := sound.room tile (List.mem_append_right _ List.mem_cons_self)
      have cut : Laid s.heap ((first ++ [tile]) ++ rest) := by
        rw [List.append_assoc]
        exact sound.toLaid
      have after := cut.behind
      rw [span_append, span_cons, span_nil, Nat.add_zero] at after
      rw [span_append, span_cons] at whole
      rw [header]
      refine ⟨by simp only; omega, by simp only; omega, fun further => ?_⟩
      rcases after with ⟨_, atEnd⟩ | ⟨next, others, rfl, _, headerNext⟩
      · exact absurd atEnd further
      · simp only [headerNext, lastPlace_concat, Nat.zero_add, true_and]
        exact (separated_append_right sound.separated).rel
  · obtain ⟨first, second, rfl, inUse, lowest, idle⟩ := exists_lowestFree 0 tiles
    rw [sound.lowest, lowest, Nat.zero_add]
    constructor
    · refine ⟨sound.listed_cut, ?_⟩
      rcases sound.toLaid.behind with ⟨_, atEnd⟩ | ⟨tile, rest, rfl, _, header⟩
      · exact .inl atEnd
      · right
        rw [header]
        exact idle tile rfl
    · rintro p ⟨listed, free⟩
      obtain ⟨front, back, same, rfl⟩ := sound.listed_iff.mp listed
      by_contra! earlier
      cases back with
      | nil =>
        rw [same, List.append_nil] at whole
        rw [← List.append_nil front, ← same, span_append] at earlier
        omega
      | cons tile others =>
        have member := mem_of_span_lt same earlier
        rw [span_append] at whole
        have header : (s.heap.ram (span front)).used = tile.used := by
          have laid : Laid s.heap (front ++ tile :: others) := same ▸ sound.toLaid
          rw [laid.header]
        rcases free with atEnd | free
        · omega
        · rw [header, inUse tile member] at free
          contradiction

theorem oneBlock_consistent : ∃ s, heapUse.run oneBlock = some s ∧
    IsLeast {p | Listed s.heap p ∧ (p = memSizeAligned ∨ (s.heap.ram p).used = false)} 48 :=
  ⟨_, rfl, (list_consistent ⟨oneBlock, rfl⟩).2⟩

/-- A free block of the list with room for the request, as `mem_malloc` rounds it. -/
def Candidate (heap : RamHeap) (size : BitVec 16) (p : ℕ) : Prop :=
  Listed heap p ∧ p ≠ memSizeAligned ∧ (heap.ram p).used = false ∧ p + footprint size ≤ (heap.ram p).next

theorem candidate_iff {heap : RamHeap} {tiles : List Tile} (laid : Laid heap tiles) {size : BitVec 16} {p : ℕ} :
    Candidate heap size p ↔ ∃ first extent second, tiles = first ++ .free extent :: second ∧ p = span first ∧
      footprint size ≤ extent := by
  constructor
  · rintro ⟨listed, inner, free, fits⟩
    obtain ⟨first, second, rfl, rfl⟩ := laid.listed_iff.mp listed
    rcases laid.behind with ⟨_, atEnd⟩ | ⟨⟨extent, used⟩, rest, rfl, _, header⟩
    · exact absurd atEnd inner
    · rw [header] at free fits
      simp only at free fits
      subst free
      exact ⟨first, extent, rest, rfl, rfl, by omega⟩
  · rintro ⟨first, extent, second, rfl, rfl, fits⟩
    have whole := laid.whole
    have room := (laid.fit (.free extent) (List.mem_append_right _ List.mem_cons_self)).pos
    rw [span_append, span_cons] at whole
    refine ⟨laid.listed_cut, by omega, ?_, ?_⟩
    · rw [laid.header]
    · rw [laid.header]
      simp only
      omega

theorem firstFit_isLeast {heap : RamHeap} {tiles : List Tile} (laid : Laid heap tiles) {size : BitVec 16} {p : ℕ}
    (found : firstFit (footprint size) 0 tiles = some p) : IsLeast {p | Candidate heap size p} p := by
  obtain ⟨first, extent, second, rfl, there, fits, lower⟩ := firstFit_eq_some_iff.mp found
  rw [Nat.zero_add] at there
  subst there
  refine ⟨(candidate_iff laid).mpr ⟨first, extent, second, rfl, rfl, fits⟩, ?_⟩
  rintro q candidate
  obtain ⟨front, large, back, same, rfl, enough⟩ := (candidate_iff laid).mp candidate
  by_contra! earlier
  exact absurd enough (Nat.not_le.mpr (lower _ (mem_of_span_lt same earlier) rfl))

/-- `mem_malloc` takes the lowest free block with room for the request as it rounds it, and NULL means that there is
none, although the scan starts at `lfree` and gives up where the rest of the heap is too small. -/
theorem malloc_isLeast {s : HeapUse} (reachable : heapUse.Reachable s) (size : BitVec 16) (positive : size ≠ 0) :
    ∃ heap result, s.heap.memMalloc size = some (heap, result) ∧
      ∀ rmem, result = some rmem ↔ ∃ p, IsLeast {p | Candidate s.heap size p} p ∧ rmem = pointer p := by
  obtain ⟨tiles, sound⟩ := reachable_sound reachable
  obtain ⟨heap, returns, _⟩ := sound.malloc size positive
  refine ⟨heap, _, returns, fun rmem => ?_⟩
  rw [Option.map_eq_some_iff]
  constructor
  · rintro ⟨p, found, rfl⟩
    exact ⟨p, firstFit_isLeast sound.toLaid found, rfl⟩
  · rintro ⟨p, least, rfl⟩
    refine ⟨p, ?_, rfl⟩
    cases found : firstFit (footprint size) 0 tiles with
    | none =>
      obtain ⟨first, extent, second, rfl, _, enough⟩ := (candidate_iff sound.toLaid).mp least.1
      have small := firstFit_eq_none_iff.mp found (.free extent) (List.mem_append_right _ List.mem_cons_self) rfl
      exact absurd enough (Nat.not_le.mpr small)
    | some q => rw [(firstFit_isLeast sound.toLaid found).unique least]

theorem oneBlock_least : ∃ s heap result, heapUse.run oneBlock = some s ∧
    s.heap.memMalloc 64#16 = some (heap, result) ∧
    ∀ rmem, result = some rmem ↔ ∃ p, IsLeast {p | Candidate s.heap 64#16 p} p ∧ rmem = pointer p := by
  obtain ⟨heap, result, returns, least⟩ := malloc_isLeast ⟨oneBlock, rfl⟩ 64#16 (by decide)
  exact ⟨_, heap, result, rfl, returns, least⟩

/-- A header is never between a pointer and the end of its block. -/
theorem Sound.listed_outside {s : HeapUse} {tiles : List Tile} (sound : Sound s tiles) {p extent k : ℕ}
    (used : (p, extent) ∈ placesUsed 0 tiles) (listed : Listed s.heap k) : k ≤ p ∨ p + extent ≤ k := by
  obtain ⟨first, second, rfl, there⟩ := mem_placesUsed_iff.mp used
  obtain ⟨front, back, same, rfl⟩ := sound.listed_iff.mp listed
  rw [there, Nat.zero_add]
  exact span_outside same

/-- A call writes headers of the rows before and after it, and makes no block larger. -/
theorem Sound.writes {s t : HeapUse} {tiles : List Tile} (sound : Sound s tiles) {call : HeapCall}
    (step : heapUse.step s call = some t) {k : ℕ} (written : t.heap.ram k ≠ s.heap.ram k) :
    ∃ tiles', Sound t tiles' ∧ (Listed s.heap k ∨ Listed t.heap k) ∧
      ∀ p one other, (p, one) ∈ placesUsed 0 tiles → (p, other) ∈ placesUsed 0 tiles' → other ≤ one := by
  obtain rfl | ⟨size, result, positive, returns, after⟩ | ⟨rmem, alive, returns, after⟩ |
    ⟨rmem, newsize, result, alive, small, returns, after⟩ := sound.step_cases step
  · exact absurd rfl written
  · refine ⟨_, after, memMalloc_listed sound.toRepresents positive returns written, fun p one other before now =>
      ?_⟩
    exact (placesUsed_unique after.room now (mem_placesUsed_allot sound.room before)).le
  · obtain ⟨first, extent, second, rfl, rfl⟩ := sound.split alive
    obtain ⟨_, _, back⟩ := sound.pointer_legal
    rw [back] at after
    refine ⟨_, after, .inl (memFree_listed sound.toRepresents returns written), fun p one other before now => ?_⟩
    exact (placesUsed_unique sound.room (mem_placesUsed_of_release
      (fun tile member => sound.room tile (List.mem_append_left _ member)) now) before).le
  · obtain ⟨first, extent, second, rfl, rfl⟩ := sound.split alive
    obtain ⟨_, _, back⟩ := sound.pointer_legal
    rw [back] at after small
    have enough : footprint newsize ≤ extent := by
      rw [sound.header] at small
      unfold pointer at small
      unfold footprint
      simp only at small
      omega
    refine ⟨_, after, memTrim_listed sound.toRepresents enough returns written, fun p one other before now => ?_⟩
    obtain ⟨larger, was, le⟩ := exists_of_mem_placesUsed_trim
      (fun tile member => sound.room tile (List.mem_append_left _ member)) enough now
    rw [← placesUsed_unique sound.room was before]
    exact le

/-- No call writes a header between a pointer that stays live and the end of its block: what the users
store there stays. -/
theorem blocks_untouched {s t : HeapUse} (reachable : heapUse.Reachable s) (call : HeapCall)
    (step : heapUse.step s call = some t) {a b : Allocation} (before : a ∈ s.live) (after : b ∈ t.live)
    (same : b.rmem = a.rmem) {k : ℕ} (written : t.heap.ram k ≠ s.heap.ram k) :
    k + sizeofStructMem ≤ b.rmem ∨ (t.heap.ram b.mem).next ≤ k := by
  obtain ⟨tiles, sound⟩ := reachable_sound reachable
  obtain ⟨tiles', sound', listed, shrinks⟩ := sound.writes step written
  obtain ⟨extent, used, _, _⟩ := sound.block before
  obtain ⟨extent', used', _, next⟩ := sound'.block after
  have place : b.mem = a.mem := congrArg (· - sizeofStructMem) same
  have pointed := sound'.pointer_mem after
  unfold pointer at pointed
  rw [next, ← pointed, place]
  rw [place] at used'
  have smaller := shrinks a.mem extent extent' used used'
  rcases listed with old | new
  · have := sound.listed_outside used old
    omega
  · have := sound'.listed_outside used' new
    omega

theorem oneBlock_untouched : ∃ s t, heapUse.run oneBlock = some s ∧ heapUse.step s (.malloc 64#16) = some t ∧
    t.heap.ram 48 ≠ s.heap.ram 48 ∧ (48 + sizeofStructMem ≤ 8 ∨ (t.heap.ram 0).next ≤ 48) := by
  refine ⟨_, _, rfl, rfl, by decide, ?_⟩
  exact blocks_untouched (a := ⟨8, 40#16⟩) (b := ⟨8, 40#16⟩) (k := 48) ⟨oneBlock, rfl⟩ (.malloc 64#16) rfl
    (by decide) (by decide) rfl (by decide)

end WirelessSpeakers.Soundness
