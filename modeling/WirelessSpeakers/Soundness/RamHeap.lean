import WirelessSpeakers.Machine.Tiling
import WirelessSpeakers.Model.RamHeap

/-! # The headers of the heap tile it

The linked headers stand for a row of tiles, used and free, that fills `ram` and has no two free
neighbours. Every call acts on the row as a first-fit allocator does: `mem_malloc` carves the lowest
free tile that is large enough, `mem_trim` shortens a tile, `mem_free` frees one and joins all that
can be joined, though it looks at the two neighbours only.
-/

namespace WirelessSpeakers.Soundness

open Model Tiling

/-- From `place` on, behind the header at `prev`, the headers of `ram` are linked as the tiles. -/
def Linked (ram : ℕ → Mem) : ℕ → ℕ → List Tile → Prop
  | _, _, [] => True
  | prev, place, tile :: rest =>
    ram place = ⟨place + tile.extent, prev, tile.used⟩ ∧ Linked ram place (place + tile.extent) rest

/-- The place of the last tile, or `prev` if there is none. -/
def lastPlace : ℕ → ℕ → List Tile → ℕ
  | prev, _, [] => prev
  | _, place, tile :: rest => lastPlace place (place + tile.extent) rest

/-- Room for a header and the smallest block, in steps of the alignment. -/
def Fit (tile : Tile) : Prop := sizeofStructMem + minSizeAligned ≤ tile.extent ∧ tile.extent % memAlignment = 0

section Rows

variable {ram ram' : ℕ → Mem} {prev place : ℕ} {first second tiles : List Tile} {tile : Tile}

theorem linked_append : Linked ram prev place (first ++ second) ↔
    Linked ram prev place first ∧ Linked ram (lastPlace prev place first) (place + span first) second := by
  induction first generalizing prev place with
  | nil => simp [Linked, lastPlace]
  | cons tile rest ih =>
    rw [List.cons_append, Linked, ih, Linked, lastPlace, span_cons, Nat.add_assoc, and_assoc]

theorem lastPlace_concat : lastPlace prev place (first ++ [tile]) = place + span first := by
  induction first generalizing prev place with
  | nil => rfl
  | cons head rest ih => rw [List.cons_append, lastPlace, ih, span_cons, Nat.add_assoc]

theorem Fit.pos (fit : Fit tile) : 0 < tile.extent := Nat.lt_of_lt_of_le (by decide) fit.1

/-- Only the headers of a row matter to it. -/
theorem Linked.congr (linked : Linked ram prev place tiles) (fit : ∀ tile ∈ tiles, Fit tile)
    (same : ∀ k, place ≤ k → k < place + span tiles → ram' k = ram k) : Linked ram' prev place tiles := by
  induction tiles generalizing prev place with
  | nil => trivial
  | cons tile rest ih =>
    obtain ⟨here, others⟩ := List.forall_mem_cons.mp fit
    have room := here.pos
    rw [span_cons] at same
    refine ⟨?_, ih linked.2 others fun k low high => same k (by omega) (by omega)⟩
    rw [same place le_rfl (by omega)]
    exact linked.1

/-- A row behind another header. -/
theorem Linked.repoint {prev' : ℕ} (linked : Linked ram prev place tiles) (fit : ∀ tile ∈ tiles, Fit tile)
    (here : tiles ≠ [] → ram' place = { ram place with prev := prev' })
    (same : ∀ k, place < k → k < place + span tiles → ram' k = ram k) : Linked ram' prev' place tiles := by
  cases tiles with
  | nil => trivial
  | cons tile rest =>
    obtain ⟨first, others⟩ := List.forall_mem_cons.mp fit
    have room := first.pos
    rw [span_cons] at same
    refine ⟨?_, linked.2.congr others fun k low high => same k (by omega) (by omega)⟩
    rw [here (List.cons_ne_nil _ _), linked.1]

/-- A row is aligned throughout. -/
theorem span_aligned (fit : ∀ tile ∈ tiles, Fit tile) : span tiles % memAlignment = 0 := by
  induction tiles with
  | nil => rfl
  | cons tile rest ih =>
    obtain ⟨here, others⟩ := List.forall_mem_cons.mp fit
    have aligned := here.2
    have behind := ih others
    rw [span_cons]
    unfold memAlignment at aligned behind ⊢
    omega

/-- A row with the fewest bytes for its number of tiles. -/
theorem length_le_span (fit : ∀ tile ∈ tiles, Fit tile) : tiles.length ≤ span tiles := by
  induction tiles with
  | nil => exact le_rfl
  | cons tile rest ih =>
    obtain ⟨here, others⟩ := List.forall_mem_cons.mp fit
    have room := here.pos
    have behind := ih others
    rw [List.length_cons, span_cons]
    omega

theorem lowestFree_le (place : ℕ) (first second : List Tile) (extent : ℕ) :
    lowestFree place (first ++ .free extent :: second) ≤ place + span first := by
  induction first generalizing place with
  | nil => exact le_rfl
  | cons head rest ih =>
    rw [List.cons_append, lowestFree, span_cons]
    split
    · rw [← Nat.add_assoc]
      exact ih _
    · omega

end Rows

/-- The headers of the heap are linked as the tiles, which fill it up to `ram_end`. -/
structure Laid (heap : RamHeap) (tiles : List Tile) : Prop where
  linked : Linked heap.ram 0 0 tiles
  finish : (heap.ram memSizeAligned).next = memSizeAligned ∧ (heap.ram memSizeAligned).used = true
  whole : span tiles = memSizeAligned
  fit : ∀ tile ∈ tiles, Fit tile

/-- Between two calls no free tile has a free neighbour, and `lfree` is the lowest. -/
structure Represents (heap : RamHeap) (tiles : List Tile) : Prop extends Laid heap tiles where
  lowest : heap.lfree = lowestFree 0 tiles
  separated : Separated tiles

section Laid

variable {heap heap' : RamHeap} {tiles first second old new : List Tile} {tile : Tile}

theorem Laid.split (laid : Laid heap (first ++ second)) :
    Linked heap.ram (lastPlace 0 0 first) (span first) second := by
  have behind := (linked_append.mp laid.linked).2
  rwa [Nat.zero_add] at behind

/-- The header of a tile. -/
theorem Laid.header (laid : Laid heap (first ++ tile :: second)) :
    heap.ram (span first) = ⟨span first + tile.extent, lastPlace 0 0 first, tile.used⟩ := laid.split.1

/-- What stands behind a tile: the next header, or `ram_end`. -/
theorem Laid.behind (laid : Laid heap (first ++ second)) :
    (second = [] ∧ span first = memSizeAligned) ∨
      ∃ next rest, second = next :: rest ∧ span first < memSizeAligned ∧
        heap.ram (span first) = ⟨span first + next.extent, lastPlace 0 0 first, next.used⟩ := by
  have whole := laid.whole
  rw [span_append] at whole
  cases second with
  | nil => exact .inl ⟨rfl, whole⟩
  | cons next rest =>
    have room := (laid.fit next (List.mem_append_right _ List.mem_cons_self)).pos
    rw [span_cons] at whole
    exact .inr ⟨next, rest, rfl, by omega, laid.header⟩

/-- Tiles in the middle of the row are replaced by others of the same extent. -/
theorem Laid.replace (old new : List Tile) (laid : Laid heap (first ++ (old ++ second)))
    (fit : ∀ tile ∈ new, Fit tile)
    (same : span new = span old) (below : ∀ k, k < span first → heap'.ram k = heap.ram k)
    (inside : Linked heap'.ram (lastPlace 0 0 first) (span first) new)
    (next : heap'.ram (span first + span old) =
        { heap.ram (span first + span old) with prev := lastPlace (lastPlace 0 0 first) (span first) new } ∨
      (span first + span old = memSizeAligned ∧
        heap'.ram (span first + span old) = heap.ram (span first + span old)))
    (above : ∀ k, span first + span old < k → heap'.ram k = heap.ram k) :
    Laid heap' (first ++ (new ++ second)) := by
  have whole := laid.whole
  rw [span_append, span_append] at whole
  have fits := laid.fit
  simp only [List.forall_mem_append] at fits
  obtain ⟨fitFirst, _, fitSecond⟩ := fits
  obtain ⟨linkedFirst, rest⟩ := linked_append.mp laid.linked
  rw [Nat.zero_add] at rest
  have linkedSecond := (linked_append.mp rest).2
  refine ⟨linked_append.mpr ⟨?_, ?_⟩, ?_, ?_, ?_⟩
  · refine linkedFirst.congr fitFirst fun k _ high => below k ?_
    omega
  · rw [Nat.zero_add]
    refine linked_append.mpr ⟨inside, ?_⟩
    rw [same]
    refine linkedSecond.repoint fitSecond (fun someTile => ?_) fun k low _ => above k low
    rcases next with linked | ⟨atEnd, _⟩
    · exact linked
    · have none : span second = 0 := by omega
      cases second with
      | nil => exact absurd rfl someTile
      | cons head others =>
        have room := (fitSecond head List.mem_cons_self).pos
        rw [span_cons] at none
        omega
  · obtain ⟨finish, inUse⟩ := laid.finish
    rcases Nat.lt_or_ge (span first + span old) memSizeAligned with inner | outer
    · rw [above _ inner]
      exact ⟨finish, inUse⟩
    · have atEnd : span first + span old = memSizeAligned := by omega
      rw [atEnd] at next
      rcases next with linked | ⟨_, kept⟩
      · rw [linked]
        exact ⟨finish, inUse⟩
      · rw [kept]
        exact ⟨finish, inUse⟩
  · rw [span_append, span_append, same]
    exact whole
  · simp only [List.forall_mem_append]
    exact ⟨fitFirst, fit, fitSecond⟩

end Laid

section Plug

variable {heap : RamHeap} {first second : List Tile} {extent : ℕ}

/-- Behind the last tile of a part, the next header points back to it, unless `ram_end` is there. -/
theorem Laid.pointsBack (tiles : List Tile) (laid : Laid heap (first ++ (tiles ++ second))) :
    heap.ram (span first + span tiles) =
        { heap.ram (span first + span tiles) with prev := lastPlace (lastPlace 0 0 first) (span first) tiles } ∨
      span first + span tiles = memSizeAligned := by
  have together : lastPlace 0 0 (first ++ tiles) = lastPlace (lastPlace 0 0 first) (span first) tiles := by
    cases tiles using List.reverseRecOn with
    | nil => simp [lastPlace]
    | append_singleton front last =>
      rw [← List.append_assoc, lastPlace_concat, lastPlace_concat, span_append, Nat.zero_add]
  rw [← List.append_assoc] at laid
  have behind := laid.behind
  rw [span_append, together] at behind
  rcases behind with ⟨_, atEnd⟩ | ⟨next, rest, _, _, header⟩
  · exact .inr atEnd
  · left
    rw [header]

/-- `mem->used` is all that changes. -/
theorem Laid.setUsed {used : Bool} (laid : Laid heap (first ++ ⟨extent, used⟩ :: second)) (now : Bool) :
    Laid (heap.setUsed (span first) now) (first ++ ⟨extent, now⟩ :: second) := by
  have fits := laid.fit ⟨extent, used⟩ (List.mem_append_right _ List.mem_cons_self)
  have room : 0 < extent := fits.pos
  have back := Laid.pointsBack [⟨extent, used⟩] laid
  simp only [span_cons, span_nil, Nat.add_zero, lastPlace] at back
  refine Laid.replace [⟨extent, used⟩] [⟨extent, now⟩] laid
    (fun tile member => ?_) rfl (fun k low => ?_) ⟨?_, trivial⟩ ?_ (fun k high => ?_)
  · rw [List.mem_singleton.mp member]
    exact fits
  · exact Function.update_of_ne (by omega) _ _
  · simp only [RamHeap.setUsed, Function.update_self, laid.header]
  · simp only [span_cons, span_nil, Nat.add_zero, lastPlace]
    have other : (heap.setUsed (span first) now).ram (span first + extent) = heap.ram (span first + extent) :=
      Function.update_of_ne (by omega) _ _
    rw [other]
    exact back.imp_right fun atEnd => ⟨atEnd, rfl⟩
  · simp only [span_cons, span_nil] at high
    exact Function.update_of_ne (by omega) _ _

/-- A header takes over the next one: both halves of `plug_holes` do this. -/
theorem Laid.absorb {more lfree : ℕ} (laid : Laid heap (first ++ .free extent :: .free more :: second)) :
    Laid (({ heap with lfree }.setNext (span first) (span first + extent + more)).setPrev
      (span first + extent + more) (span first)) (first ++ .free (extent + more) :: second) := by
  have fits := laid.fit (.free extent) (List.mem_append_right _ List.mem_cons_self)
  have fitsMore := laid.fit (.free more) (List.mem_append_right _ (List.mem_cons_of_mem _ List.mem_cons_self))
  have room := fits.pos
  have roomMore := fitsMore.pos
  simp only at room roomMore
  refine Laid.replace [.free extent, .free more] [.free (extent + more)] laid ?_ ?_
    (fun k low => ?_) ⟨?_, trivial⟩ (.inl ?_) (fun k high => ?_)
  · intro tile member
    obtain ⟨large, aligned⟩ := fits
    obtain ⟨_, alignedMore⟩ := fitsMore
    rw [List.mem_singleton.mp member]
    unfold memAlignment at aligned alignedMore
    refine ⟨Nat.le_add_right_of_le large, ?_⟩
    unfold memAlignment
    simp only at aligned alignedMore ⊢
    omega
  · simp only [span_cons, span_nil, Nat.add_zero]
  · simp only [RamHeap.setPrev, RamHeap.setNext]
    rw [Function.update_of_ne (by omega), Function.update_of_ne (by omega)]
  · simp only [RamHeap.setPrev, RamHeap.setNext]
    rw [Function.update_of_ne (by omega), Function.update_self, laid.header]
    simp only [Nat.add_assoc]
  · simp only [span_cons, span_nil, Nat.add_zero, lastPlace, RamHeap.setPrev, RamHeap.setNext, ← Nat.add_assoc]
    rw [Function.update_self, Function.update_of_ne (by omega)]
  · simp only [span_cons, span_nil] at high
    simp only [RamHeap.setPrev, RamHeap.setNext]
    rw [Function.update_of_ne (by omega), Function.update_of_ne (by omega)]

theorem Laid.plugForward (laid : Laid heap (first ++ .free extent :: second)) (low : heap.lfree ≤ span first) :
    Laid (heap.plugForward (span first)) (first ++ join (.free extent) second) ∧
      (heap.plugForward (span first)).lfree = heap.lfree := by
  have room := (laid.fit (.free extent) (List.mem_append_right _ List.mem_cons_self)).pos
  simp only at room
  have cut : Laid heap ((first ++ [.free extent]) ++ second) := by
    rwa [List.append_assoc]
  have next : (heap.ram (span first)).next = span first + extent := by rw [laid.header]
  have behind := cut.behind
  simp only [span_append, span_cons, span_nil, Nat.add_zero] at behind
  unfold RamHeap.plugForward
  simp only [next]
  rcases behind with ⟨rfl, atEnd⟩ | ⟨⟨more, used⟩, rest, rfl, inner, header⟩
  · rw [if_neg (by omega)]
    exact ⟨laid, rfl⟩
  · rw [header]
    cases used with
    | true =>
      rw [if_neg (by simp)]
      exact ⟨laid, rfl⟩
    | false =>
      rw [if_pos ⟨by omega, rfl, by omega⟩]
      exact ⟨laid.absorb, if_neg (by omega)⟩

theorem Laid.plugBackward (laid : Laid heap (first ++ .free extent :: second))
    (low : heap.lfree = lowestFree 0 (first ++ .free extent :: second)) :
    Laid (heap.plugBackward (span first)) (match first.getLast? with
      | none => .free extent :: second
      | some last => first.dropLast ++ join last (.free extent :: second)) ∧
      (heap.plugBackward (span first)).lfree = heap.lfree := by
  have header := laid.header
  unfold RamHeap.plugBackward
  cases first using List.reverseRecOn with
  | nil =>
    rw [span_nil] at header ⊢
    simp only [header, lastPlace]
    rw [if_neg (by simp)]
    exact ⟨laid, rfl⟩
  | append_singleton front last =>
    rw [List.append_assoc, List.singleton_append] at laid low
    have before := laid.header
    rcases last with ⟨less, used⟩
    have room : 0 < less := (laid.fit ⟨less, used⟩ (List.mem_append_right _ List.mem_cons_self)).pos
    rw [lastPlace_concat, Nat.zero_add, span_append, span_cons, span_nil, Nat.add_zero] at header
    rw [List.getLast?_concat, List.dropLast_concat, span_append, span_cons, span_nil, Nat.add_zero]
    simp only [header, before]
    cases used with
    | true =>
      rw [if_neg (by simp)]
      exact ⟨laid, rfl⟩
    | false =>
      rw [if_pos ⟨by omega, rfl⟩]
      refine ⟨laid.absorb, if_neg ?_⟩
      have lower : heap.lfree ≤ 0 + span front := low.trans_le (lowestFree_le 0 front _ less)
      omega

/-- A header is put behind a shorter block: `mem_malloc` and both branches of `mem_trim` do this. -/
theorem Laid.divide (old : List Tile) {used : Bool} {keep lfree stop rest : ℕ}
    (laid : Laid heap (first ++ (⟨extent, used⟩ :: old ++ second))) (fit : Fit ⟨keep, used⟩)
    (large : sizeofStructMem + minSizeAligned ≤ rest) (all : keep + rest = extent + span old)
    (stops : stop = span first + (extent + span old)) :
    let divided := ({ heap with lfree }.setMem (span first + keep) ⟨stop, span first, false⟩).setNext
      (span first) (span first + keep)
    Laid (if stop ≠ memSizeAligned then divided.setPrev stop (span first + keep) else divided)
      (first ++ (⟨keep, used⟩ :: .free rest :: second)) := by
  intro divided
  have header : heap.ram (span first) = ⟨_, lastPlace 0 0 first, used⟩ := laid.header
  have aligned := span_aligned fun tile member => laid.fit tile
    (List.mem_append_right _ (List.mem_append_left second member))
  rw [span_cons] at aligned
  have room : 0 < keep := fit.pos
  have positive : 0 < sizeofStructMem + minSizeAligned := by decide
  have fits : ∀ tile ∈ [(⟨keep, used⟩ : Tile), .free rest], Fit tile := by
    simp only [List.forall_mem_cons]
    refine ⟨fit, ⟨large, ?_⟩, by simp⟩
    have alignedKeep := fit.2
    unfold memAlignment at aligned alignedKeep ⊢
    simp only at aligned alignedKeep ⊢
    omega
  have same : span [⟨keep, used⟩, .free rest] = span (⟨extent, used⟩ :: old) := by
    simp only [span_cons, span_nil]
    omega
  have stopsOld : span first + span (⟨extent, used⟩ :: old) = stop := by rw [span_cons, stops]
  have here : divided.ram (span first) = ⟨span first + keep, lastPlace 0 0 first, used⟩ := by
    simp only [divided, RamHeap.setNext, RamHeap.setMem]
    rw [Function.update_self, Function.update_of_ne (by omega), header]
  have behind : divided.ram (span first + keep) = ⟨span first + keep + rest, span first, false⟩ := by
    simp only [divided, RamHeap.setNext, RamHeap.setMem]
    rw [Function.update_of_ne (by omega), Function.update_self, stops, ← all, Nat.add_assoc]
  have elsewhere : ∀ k, k ≠ span first → k ≠ span first + keep → divided.ram k = heap.ram k := by
    intro k first second
    simp only [divided, RamHeap.setNext, RamHeap.setMem]
    rw [Function.update_of_ne first, Function.update_of_ne second]
  split
  · have other : ∀ k, k ≠ stop → (divided.setPrev stop (span first + keep)).ram k = divided.ram k :=
      fun k differs => Function.update_of_ne differs _ _
    refine Laid.replace (⟨extent, used⟩ :: old) [⟨keep, used⟩, .free rest] laid fits same (fun k low => ?_)
      ⟨?_, ?_, trivial⟩ (.inl ?_) (fun k high => ?_)
    · rw [other k (by omega), elsewhere k (by omega) (by omega)]
    · rw [other _ (by omega), here]
    · rw [other _ (by simp only; omega), behind]
    · rw [stopsOld, ← elsewhere stop (by omega) (by omega)]
      exact Function.update_self _ _ _
    · rw [stopsOld] at high
      rw [other k (by omega), elsewhere k (by omega) (by omega)]
  · next atEnd =>
    refine Laid.replace (⟨extent, used⟩ :: old) [⟨keep, used⟩, .free rest] laid fits same
      (fun k low => elsewhere k (by omega) (by omega)) ⟨here, behind, trivial⟩ (.inr ⟨?_, ?_⟩)
        (fun k high => ?_)
    · rw [stopsOld]
      exact not_not.mp atEnd
    · rw [stopsOld]
      exact elsewhere stop (by omega) (by omega)
    · rw [stopsOld] at high
      exact elsewhere k (by omega) (by omega)

end Plug

section Calls

variable {heap : RamHeap} {tiles first second : List Tile} {extent : ℕ}

theorem memInit_represents : Represents .memInit [.free memSizeAligned] where
  linked := ⟨rfl, trivial⟩
  finish := by decide
  whole := rfl
  fit tile member := by
    rw [List.mem_singleton.mp member]
    exact ⟨by decide, by decide⟩
  lowest := rfl
  separated := List.isChain_singleton _

theorem Laid.room (laid : Laid heap tiles) : ∀ tile ∈ tiles, 0 < tile.extent :=
  fun tile member => (laid.fit tile member).pos

/-- The pointer that belongs to a tile: behind its header. -/
def pointer (place : ℕ) : ℕ := place + sizeofStructMem

/-- Marking a tile as free makes it the lowest, or leaves the lowest one. -/
theorem lowestFree_freed (room : ∀ tile ∈ first, 0 < tile.extent) (here : 0 < extent) :
    lowestFree 0 (first ++ .free extent :: second) =
      if span first < lowestFree 0 (first ++ .taken extent :: second) then span first
      else lowestFree 0 (first ++ .taken extent :: second) := by
  have least := le_lowestFree (span first + extent) second
  rcases lowestFree_front room with ⟨below, front⟩ | behind
  · rw [front, front, if_neg (by omega)]
  · rw [behind, behind]
    simp only [lowestFree, Bool.false_eq_true, if_false, if_true]
    rw [if_pos (by omega)]

/-- A live pointer is accepted by the checks in front. -/
theorem Laid.pointer_legal {tile : Tile} (laid : Laid heap (first ++ tile :: second)) :
    pointer (span first) % memAlignment = 0 ∧ pointer (span first) < memSizeAligned ∧
      pointer (span first) - sizeofStructMem = span first := by
  have aligned := span_aligned fun tile member => laid.fit tile (List.mem_append_left _ member)
  have large := (laid.fit tile (List.mem_append_right _ List.mem_cons_self)).1
  have whole := laid.whole
  rw [span_append, span_cons] at whole
  unfold pointer memAlignment sizeofStructMem minSizeAligned at *
  omega

/-- `mem_free` frees the tile and joins all free neighbours of the row, although it looks at two. -/
theorem memFree_refines (represents : Represents heap (first ++ .taken extent :: second)) :
    ∃ heap', heap.memFree (some (pointer (span first))) = some heap' ∧
      Represents heap' (release (span first) (first ++ .taken extent :: second)) := by
  obtain ⟨aligned, legal, back⟩ := represents.pointer_legal
  have header := represents.header
  have room : 0 < extent := (represents.fit (.taken extent) (List.mem_append_right _ List.mem_cons_self)).pos
  have rooms := fun tile (member : tile ∈ first) => represents.room tile (List.mem_append_left _ member)
  rw [release_eq rooms]
  have marked := represents.toLaid.setUsed false
  -- the block is marked, and `lfree` is brought up to date
  have freed : Laid { heap.setUsed (span first) false with
      lfree := if span first < heap.lfree then span first else heap.lfree }
      (first ++ .free extent :: second) := ⟨marked.linked, marked.finish, marked.whole, marked.fit⟩
  have lowest : (if span first < heap.lfree then span first else heap.lfree) =
      lowestFree 0 (first ++ .free extent :: second) := by
    rw [lowestFree_freed rooms room, represents.lowest]
  have least : lowestFree 0 (first ++ .free extent :: second) ≤ span first := by
    simpa using lowestFree_le 0 first second extent
  obtain ⟨forward, sameLowest⟩ := freed.plugForward (lowest.trans_le least)
  obtain ⟨joint, rest, joined⟩ := exists_join (.free extent) second
  have lowestJoined : lowestFree 0 (first ++ join (.free extent) second) =
      lowestFree 0 (first ++ .free extent :: second) :=
    lowestFree_append_congr (fun _ => lowestFree_join) first
  have shape := coalesce_freed represents.separated
  rw [joined] at forward lowestJoined shape
  obtain ⟨backward, keptLowest⟩ := forward.plugBackward
    ((sameLowest.trans lowest).trans lowestJoined.symm)
  have plugged : heap.memFree (some (pointer (span first))) = some (RamHeap.plugBackward (RamHeap.plugForward
      { heap.setUsed (span first) false with
        lfree := if span first < heap.lfree then span first else heap.lfree } (span first)) (span first)) := by
    unfold RamHeap.memFree RamHeap.plugHoles
    simp only [back]
    rw [if_pos ⟨aligned, legal, by rw [header]⟩]
    have guards := freed.header
    have inside := freed.whole
    rw [span_append, span_cons] at inside
    have next : span first + (Tile.free extent).extent ≤ memSizeAligned := by omega
    refine if_pos ⟨by omega, ?_, ?_⟩
    · exact congrArg Mem.used guards
    · exact (congrArg Mem.next guards).trans_le next
  refine ⟨_, plugged, ?_, ?_, separated_coalesce _⟩
  · rw [shape]
    exact backward
  · rw [keptLowest, sameLowest, lowestFree_coalesce]
    exact lowest

/-- What a block of this size takes from the heap. -/
def footprint (size : BitVec 16) : ℕ := blockSize size + sizeofStructMem

/-- The smallest rest that is worth a block of its own. -/
def spareRoom : ℕ := sizeofStructMem + minSizeAligned

theorem blockSize_bounds (size : BitVec 16) :
    minSizeAligned ≤ blockSize size ∧ blockSize size % memAlignment = 0 ∧ blockSize size < 2 ^ 16 := by
  have cut : memSize (memAlignSize size.toNat) % memAlignment = 0 ∧
      memSize (memAlignSize size.toNat) < 2 ^ 16 := by
    unfold memSize memAlignSize memAlignment
    omega
  simp only [blockSize]
  split
  · exact ⟨le_rfl, by decide, by decide⟩
  · next large => exact ⟨Nat.le_of_not_lt large, cut⟩

theorem footprint_fit (size : BitVec 16) (used : Bool) : Fit ⟨footprint size, used⟩ := by
  obtain ⟨large, aligned, _⟩ := blockSize_bounds size
  simp only [Fit, footprint, sizeofStructMem, minSizeAligned, memAlignment] at *
  omega

/-- `mem_trim` shortens the tile, if the new size is not larger than the block. -/
theorem memTrim_refines {newsize : BitVec 16} (represents : Represents heap (first ++ .taken extent :: second))
    (fits : footprint newsize ≤ extent) :
    ∃ heap', heap.memTrim (pointer (span first)) newsize = some (heap', some (pointer (span first))) ∧
      Represents heap' (trim (footprint newsize) spareRoom (span first) (first ++ .taken extent :: second)) := by
  obtain ⟨aligned, legal, back⟩ := represents.pointer_legal
  have header := represents.header
  have large := (represents.fit (.taken extent) (List.mem_append_right _ List.mem_cons_self)).1
  have rooms := fun tile (member : tile ∈ first) => represents.room tile (List.mem_append_left _ member)
  have whole := represents.whole
  rw [span_append, span_cons] at whole
  change span first + (extent + span second) = memSizeAligned at whole
  change sizeofStructMem + minSizeAligned ≤ extent at large
  have capacity : memSize (((span first + extent : ℕ) : ℤ) - span first - sizeofStructMem) =
      extent - sizeofStructMem := by
    have small : memSizeAligned < 2 ^ 16 := by decide
    unfold memSize
    omega
  have cut : Laid heap ((first ++ [.taken extent]) ++ second) := by
    rw [List.append_assoc]
    exact represents.toLaid
  have behind := cut.behind
  rw [span_append, span_cons, span_nil, Nat.add_zero] at behind
  change _ ∨ ∃ next rest, _ ∧ span first + extent < _ ∧ heap.ram (span first + extent) = _ at behind
  rw [trim_eq rooms]
  have size : ¬ memSizeAligned < blockSize newsize := by
    unfold footprint at fits
    omega
  have shrinks : blockSize newsize ≤ extent - sizeofStructMem := by
    unfold footprint at fits
    omega
  have next : span first + sizeofStructMem + blockSize newsize = span first + footprint newsize := by
    unfold footprint
    omega
  have equal : blockSize newsize = extent - sizeofStructMem ↔ footprint newsize = extent := by
    unfold footprint
    omega
  have separated := separated_shorten (footprint newsize) spareRoom represents.separated
  unfold RamHeap.memTrim
  simp only [back, header, capacity]
  rw [if_neg size, if_pos legal, if_pos shrinks]
  simp only [next, equal]
  split
  · next same =>
    rw [same, shorten_self (by decide)]
    exact ⟨heap, rfl, represents⟩
  · next smaller =>
    have shorter : footprint newsize < extent := by omega
    rcases exists_shorten (footprint newsize) spareRoom extent second with
      ⟨neighbour, rest, rfl, shape⟩ | ⟨inUse, shape⟩
    · -- the free neighbour moves towards the block
      rw [shape] at separated ⊢
      have roomNeighbour := (represents.fit (.free neighbour)
        (List.mem_append_right _ (List.mem_cons_of_mem _ List.mem_cons_self))).1
      change sizeofStructMem + minSizeAligned ≤ neighbour at roomNeighbour
      rcases behind with ⟨empty, _⟩ | ⟨_, _, same, inner, headerNext⟩
      · exact absurd empty (List.cons_ne_nil _ _)
      obtain ⟨rfl, rfl⟩ := List.cons.inj same
      simp only [headerNext, if_true]
      refine ⟨_, rfl, ?_, ?_, separated⟩
      · refine Laid.divide [.free neighbour] represents.toLaid (footprint_fit newsize true) (by omega) ?_ ?_
        · simp only [span_cons, span_nil]
          omega
        · simp only [span_cons, span_nil]
          omega
      · rw [apply_ite RamHeap.lfree]
        simp only [RamHeap.setPrev_lfree, RamHeap.setNext_lfree, RamHeap.setMem_lfree, ite_self]
        rw [represents.lowest]
        rcases lowestFree_front rooms with ⟨below, front⟩ | front
        · rw [front, front, if_neg (by omega)]
        · rw [front, front]
          simp [lowestFree]
    · -- the next block is in use, or it is `ram_end`
      have inUseNext : (heap.ram (span first + extent)).used = true := by
        rcases behind with ⟨_, atEnd⟩ | ⟨next, rest, rfl, _, headerNext⟩
        · rw [atEnd]
          exact represents.finish.2
        · rw [headerNext]
          exact inUse next rfl
      have splits : blockSize newsize + sizeofStructMem + minSizeAligned ≤ extent - sizeofStructMem ↔
          footprint newsize + spareRoom ≤ extent := by
        unfold footprint spareRoom
        omega
      simp only [inUseNext, Bool.true_eq_false, if_false, splits]
      rw [shape] at separated ⊢
      unfold carve at separated ⊢
      split
      · next room =>
        rw [if_pos room] at separated
        unfold spareRoom at room
        refine ⟨_, rfl, ?_, ?_, separated⟩
        · refine Laid.divide [] represents.toLaid (footprint_fit newsize true) (by omega) ?_ ?_
          · rw [span_nil]
            omega
          · rw [span_nil, Nat.add_zero]
        · have least := le_lowestFree (span first + extent) second
          rw [apply_ite RamHeap.lfree]
          simp only [RamHeap.setPrev_lfree, RamHeap.setNext_lfree, RamHeap.setMem_lfree, ite_self]
          rw [represents.lowest]
          rcases lowestFree_front rooms with ⟨below, front⟩ | front
          · rw [front, front, if_neg (by omega)]
          · rw [front, front, if_pos (by simp only [lowestFree, if_true]; omega)]
            rfl
      · next room =>
        rw [if_neg room] at separated
        exact ⟨heap, rfl, represents⟩

/-- The scan finds the first fit. -/
theorem scan_eq {size prev place fuel : ℕ} (linked : Linked heap.ram prev place tiles)
    (fit : ∀ tile ∈ tiles, Fit tile) (whole : place + span tiles = memSizeAligned)
    (enough : tiles.length < fuel) :
    heap.scan size fuel place = some (firstFit (size + sizeofStructMem) place tiles) := by
  induction tiles generalizing prev place fuel with
  | nil =>
    obtain ⟨rest, rfl⟩ := Nat.exists_eq_add_of_lt enough
    rw [span_nil, Nat.add_zero] at whole
    rw [RamHeap.scan, if_neg (by omega), firstFit]
  | cons tile behind ih =>
    obtain ⟨rest, rfl⟩ := Nat.exists_eq_add_of_lt enough
    obtain ⟨here, others⟩ := List.forall_mem_cons.mp fit
    have large := here.1
    have header := linked.1
    rw [span_cons] at whole
    have difference : sizeT (((place + tile.extent : ℕ) : ℤ) - (place + sizeofStructMem)) =
        tile.extent - sizeofStructMem := by
      have small : memSizeAligned < 2 ^ 32 := by decide
      unfold sizeT
      omega
    rw [RamHeap.scan]
    simp only [header, difference, firstFit]
    split
    · have fits : size ≤ tile.extent - sizeofStructMem ↔ size + sizeofStructMem ≤ tile.extent := by omega
      simp only [fits]
      split
      · rfl
      · rw [List.length_cons] at enough ⊢
        exact ih linked.2 others (by omega) (by omega)
    · next above =>
      have low : ∀ other ∈ tile :: behind, other.used = false → other.extent < size + sizeofStructMem := by
        intro other member _
        have inside := extent_le_span member
        rw [span_cons] at inside
        have positive : 0 < sizeofStructMem := by decide
        omega
      have none : firstFit (size + sizeofStructMem) place (tile :: behind) = none := firstFit_eq_none_iff.mpr low
      rw [firstFit] at none
      rw [none]

/-- The walk along the blocks in use ends at the lowest free one. -/
theorem nextFree_eq {prev place fuel : ℕ} (linked : Linked heap.ram prev place tiles)
    (whole : place + span tiles = memSizeAligned) (room : ∀ tile ∈ tiles, 0 < tile.extent)
    (enough : tiles.length < fuel) : heap.nextFree fuel place = some (lowestFree place tiles) := by
  induction tiles generalizing prev place fuel with
  | nil =>
    obtain ⟨rest, rfl⟩ := Nat.exists_eq_add_of_lt enough
    rw [RamHeap.nextFree, if_neg (by simpa using fun _ => whole), lowestFree]
  | cons tile behind ih =>
    obtain ⟨rest, rfl⟩ := Nat.exists_eq_add_of_lt enough
    obtain ⟨here, others⟩ := List.forall_mem_cons.mp room
    rw [span_cons] at whole
    have inner : place ≠ memSizeAligned := by omega
    rw [RamHeap.nextFree, linked.1, lowestFree]
    simp only [inner, ne_eq, not_false_eq_true, and_true]
    rw [List.length_cons] at enough ⊢
    split
    · exact ih linked.2 (by omega) others (by omega)
    · rfl

/-- `mem_malloc` before `lfree` is looked at: the tile is carved. -/
theorem Laid.take {size : BitVec 16} (laid : Laid heap (first ++ .free extent :: second))
    (fits : footprint size ≤ extent) :
    Laid (heap.take (blockSize size) (span first)) (first ++ carve (footprint size) spareRoom extent ++ second) ∧
      (heap.take (blockSize size) (span first)).lfree = heap.lfree := by
  have header := laid.header
  have whole := laid.whole
  have large := (laid.fit (.free extent) (List.mem_append_right _ List.mem_cons_self)).1
  rw [span_append, span_cons] at whole
  change span first + (extent + span second) = memSizeAligned at whole
  change sizeofStructMem + minSizeAligned ≤ extent at large
  have marked := laid.setUsed true
  have difference : sizeT (((span first + extent : ℕ) : ℤ) - (span first + sizeofStructMem)) =
      extent - sizeofStructMem := by
    have small : memSizeAligned < 2 ^ 32 := by decide
    unfold sizeT
    omega
  have splits : blockSize size + sizeofStructMem + minSizeAligned ≤ extent - sizeofStructMem ↔
      footprint size + spareRoom ≤ extent := by
    unfold footprint spareRoom
    omega
  have next : span first + sizeofStructMem + blockSize size = span first + footprint size := by
    unfold footprint
    omega
  rw [List.append_assoc]
  unfold RamHeap.take carve
  simp only [header, difference, splits, next]
  split
  · next room =>
    unfold spareRoom at room
    have apart : span first + footprint size ≠ span first := by
      have positive := (footprint_fit size true).pos
      simp only at positive
      omega
    -- the order of the stores does not matter
    have commute : ((heap.setMem (span first + footprint size) ⟨span first + extent, span first, false⟩).setNext
        (span first) (span first + footprint size)).setUsed (span first) true =
        ((heap.setUsed (span first) true).setMem (span first + footprint size)
          ⟨span first + extent, span first, false⟩).setNext (span first) (span first + footprint size) := by
      simp only [RamHeap.setMem, RamHeap.setNext, RamHeap.setUsed, Function.update_idem, Function.update_self,
        Function.update_of_ne apart.symm]
      rw [Function.update_comm apart.symm, Function.update_idem]
    rw [commute]
    refine ⟨?_, ?_⟩
    · refine Laid.divide [] marked (footprint_fit size true) (by omega) ?_ ?_
      · rw [span_nil]
        omega
      · rw [span_nil, Nat.add_zero]
    · rw [apply_ite RamHeap.lfree]
      simp only [RamHeap.setPrev_lfree, RamHeap.setNext_lfree, RamHeap.setMem_lfree, RamHeap.setUsed_lfree,
        ite_self]
  · exact ⟨marked, rfl⟩

/-- `lfree` moves on if its block was taken. -/
theorem Laid.adjustLfree {row : List Tile} (laid : Laid heap (first ++ row))
    (lowest : heap.lfree = lowestFree 0 (first ++ .free extent :: second)) :
    ∃ heap', heap.adjustLfree (span first) = some heap' ∧ Laid heap' (first ++ row) ∧
      heap'.lfree = lowestFree 0 (first ++ row) := by
  have rooms := fun tile (member : tile ∈ first) => laid.room tile (List.mem_append_left _ member)
  have rowRooms := fun tile (member : tile ∈ row) => laid.room tile (List.mem_append_right _ member)
  have whole := laid.whole
  have enough := length_le_span laid.fit
  rw [span_append] at whole enough
  rw [List.length_append] at enough
  unfold RamHeap.adjustLfree
  rcases lowestFree_front rooms with ⟨below, front⟩ | behind
  · rw [front] at lowest
    rw [if_neg (by omega), front]
    exact ⟨heap, rfl, laid, lowest⟩
  · rw [behind] at lowest
    have here : heap.lfree = span first := lowest
    have walk : heap.nextFree (memSizeAligned + 1) heap.lfree = some (lowestFree (span first) row) := by
      rw [here]
      exact nextFree_eq laid.split whole rowRooms (by omega)
    obtain ⟨inUse, rest, same, _, there, idle⟩ := exists_lowestFree (span first) row
    have free : lowestFree (span first) row = memSizeAligned ∨
        (heap.ram (lowestFree (span first) row)).used = false := by
      have cut : Laid heap ((first ++ inUse) ++ rest) := by
        rw [List.append_assoc, ← same]
        exact laid
      have next := cut.behind
      rw [span_append] at next
      rw [there]
      rcases next with ⟨_, atEnd⟩ | ⟨tile, _, rfl, _, header⟩
      · exact .inl atEnd
      · rw [header]
        exact .inr (idle tile rfl)
    rw [if_pos here.symm, walk, Option.bind_some, if_pos free, behind]
    exact ⟨_, rfl, ⟨laid.linked, laid.finish, laid.whole, laid.fit⟩, rfl⟩

theorem blockSize_lt_of_fits {size : BitVec 16} (laid : Laid heap (first ++ .free extent :: second))
    (fits : footprint size ≤ extent) : ¬ memSizeAligned < blockSize size := by
  have whole := laid.whole
  rw [span_append, span_cons] at whole
  unfold footprint at fits
  simp only at whole
  omega

/-- Starting at `lfree`, the scan misses nothing. -/
theorem scan_lfree {size : BitVec 16} (represents : Represents heap tiles) :
    heap.scan (blockSize size) (memSizeAligned + 1) heap.lfree = some (firstFit (footprint size) 0 tiles) := by
  obtain ⟨used, rest, rfl, inUse, lowest, _⟩ := exists_lowestFree 0 tiles
  have linked := represents.split
  have whole := represents.whole
  have enough := length_le_span represents.fit
  rw [span_append] at whole enough
  rw [List.length_append] at enough
  rw [represents.lowest, lowest, firstFit_skip inUse, Nat.zero_add]
  exact scan_eq linked (fun tile member => represents.fit tile (List.mem_append_right _ member)) whole (by omega)

/-- `mem_malloc` carves the lowest free tile that is large enough, and returns NULL if there is none. -/
theorem memMalloc_refines {size : BitVec 16} (represents : Represents heap tiles) (positive : size ≠ 0) :
    ∃ heap', heap.memMalloc size = some (heap', (firstFit (footprint size) 0 tiles).map pointer) ∧
      Represents heap' (allot (footprint size) spareRoom tiles) := by
  have walk : heap.scan (blockSize size) _ _ = _ := scan_lfree represents
  unfold RamHeap.memMalloc
  rw [if_neg positive]
  cases found : firstFit (footprint size) 0 tiles with
  | none =>
    rw [allot_of_none found]
    simp only [walk, found, Option.bind_some, Option.map_none]
    split
    · exact ⟨heap, rfl, represents⟩
    · exact ⟨heap, rfl, represents⟩
  | some place =>
    obtain ⟨first, extent, second, rfl, there, fits, _⟩ := firstFit_eq_some_iff.mp found
    rw [Nat.zero_add] at there
    subst there
    have rooms := fun tile (member : tile ∈ first) => represents.room tile (List.mem_append_left _ member)
    obtain ⟨taken, keptLowest⟩ := represents.toLaid.take fits
    have separated := separated_carve_free (footprint size) spareRoom represents.separated
    obtain ⟨alignedPointer, _, _⟩ := represents.pointer_legal
    rw [allot_eq rooms found]
    simp only [walk, found, Option.bind_some, Option.map_some]
    rw [if_neg (blockSize_lt_of_fits represents.toLaid fits)]
    rw [List.append_assoc] at taken separated ⊢
    obtain ⟨heap', adjust, laid', lowest'⟩ := taken.adjustLfree (keptLowest.trans represents.lowest)
    have whole := represents.whole
    rw [span_append, span_cons] at whole
    unfold footprint at fits
    simp only at whole
    rw [adjust, Option.bind_some, if_pos ⟨by omega, alignedPointer⟩]
    exact ⟨heap', rfl, laid', lowest', separated⟩

end Calls

/-- The offsets that the links lead to, from the first header up to `ram_end`. -/
inductive Listed (heap : RamHeap) : ℕ → Prop
  | first : Listed heap 0
  | next {p : ℕ} : Listed heap p → p ≠ memSizeAligned → Listed heap (heap.ram p).next

section Frames

variable {heap heap' : RamHeap} {tiles first second : List Tile} {extent k : ℕ}

/-- The links lead to the cuts of the row, and nowhere else. -/
theorem Laid.listed_iff (laid : Laid heap tiles) {p : ℕ} :
    Listed heap p ↔ ∃ first second, tiles = first ++ second ∧ p = span first := by
  constructor
  · intro listed
    induction listed with
    | first => exact ⟨[], tiles, rfl, rfl⟩
    | next _ inner ih =>
      obtain ⟨first, second, rfl, rfl⟩ := ih
      rcases laid.behind with ⟨_, atEnd⟩ | ⟨tile, rest, rfl, _, header⟩
      · exact absurd atEnd inner
      · refine ⟨first ++ [tile], rest, by rw [List.append_assoc, List.singleton_append], ?_⟩
        rw [header, span_append, span_cons, span_nil, Nat.add_zero]
  · rintro ⟨first, second, rfl, rfl⟩
    induction first using List.reverseRecOn generalizing second with
    | nil => exact .first
    | append_singleton front last ih =>
      rw [List.append_assoc, List.singleton_append] at laid
      have header := laid.header
      have whole := laid.whole
      have room := (laid.fit last (List.mem_append_right _ List.mem_cons_self)).pos
      rw [span_append, span_cons] at whole
      have step := (ih (last :: second) laid).next (by omega)
      rw [header] at step
      rw [span_append, span_cons, span_nil, Nat.add_zero]
      exact step

theorem Laid.listed_cut (laid : Laid heap (first ++ second)) : Listed heap (span first) :=
  laid.listed_iff.mpr ⟨first, second, rfl, rfl⟩

theorem plugForward_ram_of_ne {mem : ℕ} (other : k ≠ mem) (behind : k ≠ (heap.ram (heap.ram mem).next).next) :
    (heap.plugForward mem).ram k = heap.ram k := by
  unfold RamHeap.plugForward
  simp only
  split
  · simp only [RamHeap.setPrev, RamHeap.setNext]
    rw [Function.update_of_ne behind, Function.update_of_ne other]
  · rfl

theorem plugBackward_ram_of_ne {mem : ℕ} (before : k ≠ (heap.ram mem).prev) (behind : k ≠ (heap.ram mem).next) :
    (heap.plugBackward mem).ram k = heap.ram k := by
  unfold RamHeap.plugBackward
  simp only
  split
  · simp only [RamHeap.setPrev, RamHeap.setNext]
    rw [Function.update_of_ne behind, Function.update_of_ne before]
  · rfl

/-- What the first half of `plug_holes` leaves in the header that it starts from. -/
theorem plugForward_header (heap : RamHeap) (mem : ℕ) (inside : (heap.ram (heap.ram mem).next).next ≠ mem) :
    ((heap.plugForward mem).ram mem).prev = (heap.ram mem).prev ∧
      (((heap.plugForward mem).ram mem).next = (heap.ram mem).next ∨
        ((heap.plugForward mem).ram mem).next = (heap.ram (heap.ram mem).next).next) := by
  unfold RamHeap.plugForward
  simp only
  split
  · simp only [RamHeap.setPrev, RamHeap.setNext]
    rw [Function.update_of_ne inside.symm, Function.update_self]
    exact ⟨rfl, .inr rfl⟩
  · exact ⟨rfl, .inl rfl⟩

/-- The header behind a tile is listed, and its link leads further. -/
theorem Laid.listed_behind {used : Bool} (laid : Laid heap (first ++ ⟨extent, used⟩ :: second)) :
    Listed heap (span first + extent) ∧ span first + extent ≤ (heap.ram (span first + extent)).next ∧
      Listed heap (heap.ram (span first + extent)).next := by
  have cut : Laid heap ((first ++ [⟨extent, used⟩]) ++ second) := by
    rw [List.append_assoc]
    exact laid
  have listed := cut.listed_cut
  have after := cut.behind
  rw [span_append, span_cons, span_nil, Nat.add_zero] at after listed
  change _ ∨ ∃ next rest, _ ∧ span first + extent < _ ∧ heap.ram (span first + extent) = _ at after
  change Listed heap (span first + extent) at listed
  refine ⟨listed, ?_⟩
  rcases after with ⟨_, atEnd⟩ | ⟨tile, rest, _, inner, header⟩
  · have finish := laid.finish.1
    rw [← atEnd] at finish
    change (heap.ram (span first + extent)).next = span first + extent at finish
    rw [finish]
    exact ⟨le_rfl, listed⟩
  · have step := listed.next inner.ne
    rw [header] at step ⊢
    exact ⟨Nat.le_add_right _ _, step⟩

/-- `mem_free` writes headers of the old row only. -/
theorem memFree_listed (represents : Represents heap (first ++ .taken extent :: second))
    (returns : heap.memFree (some (pointer (span first))) = some heap') (written : heap'.ram k ≠ heap.ram k) :
    Listed heap k := by
  obtain ⟨_, _, back⟩ := represents.pointer_legal
  have room : 0 < extent := (represents.fit (.taken extent) (List.mem_append_right _ List.mem_cons_self)).pos
  by_contra unlisted
  -- the headers around the block
  have here : k ≠ span first := fun same => unlisted (same ▸ represents.listed_cut)
  have before : k ≠ lastPlace 0 0 first := by
    rintro rfl
    refine unlisted ?_
    cases first using List.reverseRecOn with
    | nil => exact .first
    | append_singleton front last =>
      rw [lastPlace_concat, Nat.zero_add]
      refine represents.listed_iff.mpr ⟨front, last :: .taken extent :: second, ?_, rfl⟩
      rw [List.append_assoc, List.singleton_append]
  obtain ⟨listed, further, listedNext⟩ := represents.listed_behind
  have next : k ≠ span first + extent := fun same => unlisted (same ▸ listed)
  have beyond : k ≠ (heap.ram (span first + extent)).next := fun same => unlisted (same ▸ listedNext)
  unfold RamHeap.memFree RamHeap.plugHoles at returns
  simp only [back] at returns
  split at returns
  · split at returns
    · cases returns
      have marked : ∀ j, j ≠ span first → (heap.setUsed (span first) false).ram j = heap.ram j :=
        fun j differs => Function.update_of_ne differs _ _
      have freed : (heap.setUsed (span first) false).ram (span first) =
          ⟨span first + extent, lastPlace 0 0 first, false⟩ := by
        simp only [RamHeap.setUsed, Function.update_self, represents.header]
      have markedNext := marked (span first + extent) (by omega)
      refine written ?_
      have header := plugForward_header { heap.setUsed (span first) false with
        lfree := if span first < (heap.setUsed (span first) false).lfree then span first
          else (heap.setUsed (span first) false).lfree } (span first) (by
            simp only [freed, markedNext]
            omega)
      simp only [freed, markedNext] at header
      rw [plugBackward_ram_of_ne, plugForward_ram_of_ne here, marked k here]
      · simp only [freed, markedNext]
        exact beyond
      · rw [header.1]
        exact before
      · rcases header.2 with same | same
        · rw [same]
          exact next
        · rw [same]
          exact beyond
    · contradiction
  · contradiction

/-- Where a header is put behind a shorter block, three headers are written. -/
theorem divide_ram (heap : RamHeap) (ptr2 lfree : ℕ) (header : Mem) {mem stop : ℕ} (apart : stop ≠ mem) :
    let divided := ({ heap with lfree }.setMem ptr2 header).setNext mem ptr2
    let linked := if stop ≠ memSizeAligned then divided.setPrev stop ptr2 else divided
    (linked.ram mem).next = ptr2 ∧ ∀ k, k ≠ mem → k ≠ ptr2 → k ≠ stop → linked.ram k = heap.ram k := by
  intro divided linked
  have next : (divided.ram mem).next = ptr2 := by
    simp only [divided, RamHeap.setNext, Function.update_self]
  have others : ∀ k, k ≠ mem → k ≠ ptr2 → divided.ram k = heap.ram k := by
    intro k first second
    simp only [divided, RamHeap.setNext, RamHeap.setMem]
    rw [Function.update_of_ne first, Function.update_of_ne second]
  simp only [linked]
  split
  · refine ⟨?_, fun k first second third => ?_⟩
    · simp only [RamHeap.setPrev]
      rw [Function.update_of_ne apart.symm]
      exact next
    · simp only [RamHeap.setPrev]
      rw [Function.update_of_ne third]
      exact others k first second
  · exact ⟨next, fun k first second _ => others k first second⟩

/-- `mem_trim` either changes nothing, or puts a header behind the shorter block. -/
theorem memTrim_cases {rmem : ℕ} {newsize : BitVec 16} {result : Option ℕ}
    (returns : heap.memTrim rmem newsize = some (heap', result)) :
    heap' = heap ∨ ∃ ptr2 stop lfree header,
      (((heap.ram (heap.ram (rmem - sizeofStructMem)).next).used = false ∧
          stop = (heap.ram (heap.ram (rmem - sizeofStructMem)).next).next) ∨
        stop = (heap.ram (rmem - sizeofStructMem)).next) ∧
      heap' = if stop ≠ memSizeAligned then
          (({ heap with lfree }.setMem ptr2 header).setNext (rmem - sizeofStructMem) ptr2).setPrev stop ptr2
        else ({ heap with lfree }.setMem ptr2 header).setNext (rmem - sizeofStructMem) ptr2 := by
  unfold RamHeap.memTrim at returns
  simp only at returns
  split at returns
  · cases returns
    exact .inl rfl
  · split at returns
    · split at returns
      · split at returns
        · cases returns
          exact .inl rfl
        · split at returns
          · next free =>
            cases returns
            exact .inr ⟨_, _, _, _, .inl ⟨free, rfl⟩, rfl⟩
          · split at returns
            · cases returns
              exact .inr ⟨_, _, _, _, .inr rfl, rfl⟩
            · cases returns
              exact .inl rfl
      · contradiction
    · contradiction

/-- `mem_trim` writes headers of the old row and of the new one. -/
theorem memTrim_listed {newsize : BitVec 16} {result : Option ℕ}
    (represents : Represents heap (first ++ .taken extent :: second)) (fits : footprint newsize ≤ extent)
    (returns : heap.memTrim (pointer (span first)) newsize = some (heap', result))
    (written : heap'.ram k ≠ heap.ram k) : Listed heap k ∨ Listed heap' k := by
  obtain ⟨_, _, back⟩ := represents.pointer_legal
  have room : 0 < extent := (represents.fit (.taken extent) (List.mem_append_right _ List.mem_cons_self)).pos
  have whole := represents.whole
  rw [span_append, span_cons] at whole
  change span first + (extent + span second) = memSizeAligned at whole
  obtain ⟨listed, further, listedNext⟩ := represents.listed_behind
  obtain ⟨other, returns', represents'⟩ := memTrim_refines represents fits
  rw [returns] at returns'
  obtain ⟨rfl, -⟩ := Prod.mk.inj (Option.some.inj returns')
  rw [trim_eq fun tile member => represents.room tile (List.mem_append_left _ member)] at represents'
  by_contra! unlisted
  have inversion := memTrim_cases returns
  rw [back, represents.header] at inversion
  rcases inversion with rfl | ⟨ptr2, stop, lfree, header, place, same⟩
  · exact written rfl
  · have stops : stop ≠ span first ∧ k ≠ stop := by
      rcases place with ⟨_, rfl⟩ | rfl
      · exact ⟨by simp only; omega, fun equal => unlisted.1 (equal ▸ listedNext)⟩
      · exact ⟨by simp only; omega, fun equal => unlisted.1 (equal ▸ listed)⟩
    have here : k ≠ span first := fun equal => unlisted.1 (equal ▸ represents.listed_cut)
    obtain ⟨linked, others⟩ := divide_ram heap ptr2 lfree header stops.1
    rw [← same] at linked others
    have moved : k ≠ ptr2 := by
      intro equal
      have step := represents'.listed_cut.next (by omega)
      rw [linked, ← equal] at step
      exact unlisted.2 step
    exact written (others k here moved stops.2)

/-- A block that is taken has its own header written, the one split off, and the one behind it. -/
theorem take_ram {size mem : ℕ} (apart : (heap.ram mem).next ≠ mem) (here : k ≠ mem)
    (behind : k ≠ (heap.ram mem).next) (split : k ≠ ((heap.take size mem).ram mem).next) :
    (heap.take size mem).ram k = heap.ram k := by
  unfold RamHeap.take at split ⊢
  simp only at split ⊢
  split
  · next room =>
    rw [if_pos room] at split
    have moved : k ≠ mem + sizeofStructMem + size := by
      intro equal
      refine split ?_
      split <;>
        simp only [RamHeap.setPrev, RamHeap.setUsed, RamHeap.setNext, Function.update_self,
          Function.update_of_ne apart.symm, equal]
    split <;>
      simp only [RamHeap.setPrev, RamHeap.setUsed, RamHeap.setNext, RamHeap.setMem,
        Function.update_of_ne here, Function.update_of_ne behind, Function.update_of_ne moved]
  · exact Function.update_of_ne here _ _

theorem adjustLfree_ram {mem : ℕ} (returns : heap.adjustLfree mem = some heap') : heap'.ram = heap.ram := by
  unfold RamHeap.adjustLfree at returns
  split at returns
  · obtain ⟨cur, _, checked⟩ := Option.bind_eq_some_iff.mp returns
    split at checked
    · cases checked
      rfl
    · contradiction
  · cases returns
    rfl

/-- `mem_malloc` either changes nothing, or takes the block that the scan found. -/
theorem memMalloc_cases {size : BitVec 16} {result : Option ℕ}
    (returns : heap.memMalloc size = some (heap', result)) :
    heap' = heap ∨ ∃ mem, heap.scan (blockSize size) (memSizeAligned + 1) heap.lfree = some (some mem) ∧
      heap'.ram = (heap.take (blockSize size) mem).ram := by
  unfold RamHeap.memMalloc at returns
  simp only at returns
  split at returns
  · cases returns
    exact .inl rfl
  · split at returns
    · cases returns
      exact .inl rfl
    · obtain ⟨found, scanned, taken⟩ := Option.bind_eq_some_iff.mp returns
      cases found with
      | none =>
        cases taken
        exact .inl rfl
      | some mem =>
        obtain ⟨adjusted, adjust, checked⟩ := Option.bind_eq_some_iff.mp taken
        split at checked
        · cases checked
          exact .inr ⟨mem, scanned, adjustLfree_ram adjust⟩
        · contradiction

/-- `mem_malloc` writes headers of the old row and of the new one. -/
theorem memMalloc_listed {size : BitVec 16} {result : Option ℕ} (represents : Represents heap tiles)
    (positive : size ≠ 0) (returns : heap.memMalloc size = some (heap', result))
    (written : heap'.ram k ≠ heap.ram k) :
    Listed heap k ∨ Listed heap' k := by
  rcases memMalloc_cases returns with rfl | ⟨mem, scanned, same⟩
  · exact absurd rfl written
  obtain ⟨other, returns', represents'⟩ := memMalloc_refines represents positive
  rw [returns] at returns'
  obtain ⟨rfl, -⟩ := Prod.mk.inj (Option.some.inj returns')
  rw [scan_lfree represents] at scanned
  have found := Option.some.inj scanned
  obtain ⟨first, extent, second, rfl, there, fits, _⟩ := firstFit_eq_some_iff.mp found
  rw [Nat.zero_add] at there
  subst there
  rw [allot_eq (fun tile member => represents.room tile (List.mem_append_left _ member)) found,
    List.append_assoc] at represents'
  have room : 0 < extent := (represents.fit (.free extent) (List.mem_append_right _ List.mem_cons_self)).pos
  have whole := represents.whole
  rw [span_append, span_cons] at whole
  change span first + (extent + span second) = memSizeAligned at whole
  obtain ⟨listed, _, _⟩ := represents.listed_behind
  have next : (heap.ram (span first)).next = span first + extent := by rw [represents.header]
  by_contra! unlisted
  refine written ?_
  rw [same]
  refine take_ram (by omega) (fun equal => unlisted.1 (equal ▸ represents.listed_cut)) ?_ ?_
  · rw [next]
    exact fun equal => unlisted.1 (equal ▸ listed)
  · intro equal
    have step := represents'.listed_cut.next (by omega)
    rw [same, ← equal] at step
    exact unlisted.2 step

end Frames

end WirelessSpeakers.Soundness
