import WirelessSpeakers.Machine.Pool
import WirelessSpeakers.Model.PbufStore
import WirelessSpeakers.Soundness.HeapUse

/-! # One call to `pbuf.c`

What each call does to the counts and pointers of the pbufs, as operations on counted nodes, and that it
leaves every pbuf in memory of its own kind, with its payload inside.
-/

namespace WirelessSpeakers.Soundness

open Model Counted

/-- The pbufs as counted nodes. -/
def counted (s : PbufStore) : Counted PbufAddr where
  live := s.live
  next p := (s.pbufs p).next
  count p := (s.pbufs p).ref.toNat

/-- The memory that a type of pbuf comes from. -/
def Typed : PbufAddr → PbufType → Prop
  | .ram _, type => type = .ram
  | .pool _, type => type = .pool
  | .ref _, type => type = .rom ∨ type = .ref

/-- The payload lies in the memory of the pbuf, behind its own fields; ROM and REF have it elsewhere. -/
def Inside (blocks : List Allocation) (payload : ℤ) (len : ℕ) : PbufAddr → Prop
  | .ram rmem => sizeofStructPbuf ≤ payload ∧ ∀ a ∈ blocks, a.rmem = rmem → payload + len ≤ a.size.toNat
  | .pool _ => sizeofStructPbuf ≤ payload ∧ payload + len ≤ sizeofStructPbuf + pbufPoolBufsizeAligned
  | .ref _ => True

/-- The three sources of memory and the pbufs in use account for each other. -/
structure Housed (s : PbufStore) (blocks : List Allocation) : Prop where
  heap : ∃ tiles, Sound ⟨s.heap, blocks⟩ tiles
  small : ∀ a ∈ blocks, a.size.toNat ≤ 65532
  granted : ∀ rmem, rmem ∈ blocks.map Allocation.rmem ↔ .ram rmem ∈ s.live
  pool : Stocked pbufPoolSize s.poolTab fun element => .pool element ∈ s.live
  refs : Stocked mempNumPbuf s.pbufTab fun element => .ref element ∈ s.live
  suits : ∀ p ∈ s.live, Typed p (s.pbufs p).type
  inside : ∀ p ∈ s.live, Inside blocks (s.pbufs p).payload (s.pbufs p).len.toNat p

section Memory

variable {s : PbufStore} {blocks : List Allocation} {p q : PbufAddr} {pbuf : StructPbuf}

theorem read_eq (alive : p ∈ s.live) : s.read p = some (s.pbufs p) := if_pos alive

@[simp] theorem write_live : (s.write p pbuf).live = s.live := rfl

theorem write_of_ne (other : q ≠ p) : (s.write p pbuf).pbufs q = s.pbufs q := Function.update_of_ne other _ _

@[simp] theorem write_self : (s.write p pbuf).pbufs p = pbuf := Function.update_self _ _ _

theorem write_read : s.write p (s.pbufs p) = s := by
  unfold PbufStore.write
  rw [Function.update_eq_self]

theorem write_write {other : StructPbuf} : (s.write p other).write p pbuf = s.write p pbuf := by
  rw [PbufStore.write, PbufStore.write, Function.update_idem]
  rfl

theorem initial_housed : Housed {} [] where
  heap := ⟨_, initial_sound⟩
  small := by simp
  granted := by simp
  pool := (stocked_range _).congr (by simp)
  refs := (stocked_range _).congr (by simp)
  suits := by simp
  inside := by simp

/-- A pbuf may be changed where it keeps its type and its payload stays inside. -/
theorem Housed.write (housed : Housed s blocks) (type : pbuf.type = (s.pbufs p).type)
    (inside : p ∈ s.live → Inside blocks pbuf.payload pbuf.len.toNat p) : Housed (s.write p pbuf) blocks := by
  refine { housed with suits := fun q alive => ?_, inside := fun q alive => ?_ }
  · rcases eq_or_ne q p with rfl | other
    · rw [write_self, type]
      exact housed.suits q alive
    · rw [write_of_ne other]
      exact housed.suits q alive
  · rcases eq_or_ne q p with rfl | other
    · rw [write_self]
      exact inside alive
    · rw [write_of_ne other]
      exact housed.inside q alive

/-- Of all sources of memory, a pbuf is given back to its own. -/
theorem Housed.dealloc (housed : Housed s blocks) (alive : p ∈ s.live) :
    ∃ freed blocks', s.dealloc p (s.pbufs p).type = some freed ∧ freed.pbufs = s.pbufs ∧
      freed.live = s.live.erase p ∧ Housed freed blocks' := by
  have suits := housed.suits p alive
  have rest : ∀ q ∈ s.live.erase p, q ∈ s.live := fun q => Finset.mem_of_mem_erase
  cases p with
  | ram rmem =>
    obtain ⟨tiles, sound⟩ := housed.heap
    obtain ⟨heap, returns, sound'⟩ := sound.free ((housed.granted rmem).mpr alive)
    have type : (s.pbufs (.ram rmem)).type = .ram := suits
    refine ⟨{ s with heap, live := s.live.erase (.ram rmem) }, blocks.filter (·.rmem ≠ rmem), ?_, rfl, rfl, ?_⟩
    · rw [type]
      exact Option.map_eq_some_iff.mpr ⟨heap, returns, rfl⟩
    · refine ⟨⟨_, sound'⟩, fun a member => housed.small a (List.mem_of_mem_filter member), fun other => ?_, ?_,
        ?_, fun q member => housed.suits q (rest q member), fun q member => ?_⟩
      · simp only [List.mem_map, List.mem_filter, Finset.mem_erase, ← housed.granted, ne_eq, PbufAddr.ram.injEq,
          decide_not, Bool.not_eq_eq_eq_not, Bool.not_true, decide_eq_false_iff_not]
        constructor
        · rintro ⟨a, ⟨member, apart⟩, rfl⟩
          exact ⟨apart, a, member, rfl⟩
        · rintro ⟨apart, a, member, rfl⟩
          exact ⟨a, ⟨member, apart⟩, rfl⟩
      · exact housed.pool.congr fun e => by simp
      · exact housed.refs.congr fun e => by simp
      · have inside := housed.inside q (rest q member)
        cases q with
        | ram other => exact ⟨inside.1, fun a there => inside.2 a (List.mem_of_mem_filter there)⟩
        | pool _ => exact inside
        | ref _ => trivial
  | pool element =>
    have type : (s.pbufs (.pool element)).type = .pool := suits
    refine ⟨{ s with poolTab := element :: s.poolTab, live := s.live.erase (.pool element) }, blocks, ?_, rfl, rfl,
      housed.heap, housed.small, fun rmem => ?_, ?_, ?_, fun q member => housed.suits q (rest q member),
      fun q member => housed.inside q (rest q member)⟩
    · rw [type]
      rfl
    · rw [housed.granted, Finset.mem_erase]
      simp
    · exact (housed.pool.free alive).congr fun e => by simp
    · exact housed.refs.congr fun e => by simp
  | ref element =>
    refine ⟨{ s with pbufTab := element :: s.pbufTab, live := s.live.erase (.ref element) }, blocks, ?_, rfl, rfl,
      housed.heap, housed.small, fun rmem => ?_, ?_, ?_, fun q member => housed.suits q (rest q member),
      fun q member => housed.inside q (rest q member)⟩
    · rcases suits with type | type
      · rw [type]
        rfl
      · rw [type]
        rfl
    · rw [housed.granted, Finset.mem_erase]
      simp
    · exact housed.pool.congr fun e => by simp
    · exact (housed.refs.free alive).congr fun e => by simp

end Memory

section Counting

variable {s t : PbufStore} {p q : PbufAddr} {pbuf : StructPbuf}

theorem counted_write : counted (s.write p pbuf) =
    ⟨s.live, Function.update (counted s).next p pbuf.next, Function.update (counted s).count p pbuf.ref.toNat⟩ := by
  unfold counted PbufStore.write
  congr 1
  · exact Function.comp_update StructPbuf.next s.pbufs p pbuf
  · exact Function.comp_update (fun pbuf : StructPbuf => pbuf.ref.toNat) s.pbufs p pbuf

theorem counted_write_same (next : pbuf.next = (s.pbufs p).next) (ref : pbuf.ref = (s.pbufs p).ref) :
    counted (s.write p pbuf) = counted s := by
  rw [counted_write, next, ref]
  unfold counted
  congr 1
  · exact Function.update_eq_self _ _
  · exact Function.update_eq_self _ _

theorem counted_write_next (ref : pbuf.ref = (s.pbufs p).ref) :
    counted (s.write p pbuf) = (counted s).setNext p pbuf.next := by
  rw [counted_write, ref]
  unfold counted setNext
  congr 1
  exact Function.update_eq_self _ _

theorem counted_write_lower (next : pbuf.next = (s.pbufs p).next) (ref : pbuf.ref = (s.pbufs p).ref - 1)
    (positive : (s.pbufs p).ref ≠ 0) : counted (s.write p pbuf) = (counted s).lower p := by
  have less : pbuf.ref.toNat = (s.pbufs p).ref.toNat - 1 := by
    rw [ref]
    bv_omega
  rw [counted_write, next, less]
  unfold counted lower
  congr 1
  exact Function.update_eq_self _ _

theorem counted_write_raise (next : pbuf.next = (s.pbufs p).next) (ref : pbuf.ref = (s.pbufs p).ref + 1)
    (small : pbuf.ref ≠ 0) : counted (s.write p pbuf) = (counted s).raise p := by
  have more : pbuf.ref.toNat = (s.pbufs p).ref.toNat + 1 := by
    rw [ref] at small ⊢
    bv_omega
  rw [counted_write, next, more]
  unfold counted raise
  congr 1
  exact Function.update_eq_self _ _

theorem ref_ne_zero {held : Multiset PbufAddr} (exact : Exact (counted s) held) (alive : p ∈ s.live) :
    (s.pbufs p).ref ≠ 0 := by
  intro zero
  have positive : 0 < (s.pbufs p).ref.toNat := exact.positive p alive
  rw [zero] at positive
  exact absurd positive (by decide)

theorem count_eq_one_iff : (counted s).count p = 1 ↔ (s.pbufs p).ref = 1 := by
  constructor
  · intro one
    exact BitVec.eq_of_toNat_eq one
  · intro one
    change (s.pbufs p).ref.toNat = 1
    rw [one]
    rfl

end Counting

/-- What a `pbuf_free` leaves: counts of the chain are lowered and pbufs of it are gone. -/
structure Lowered (s t : PbufStore) (chain : List PbufAddr) : Prop where
  live : t.live ⊆ s.live
  fields : ∀ q, ∃ ref, t.pbufs q = { s.pbufs q with ref }
  off : ∀ q ∉ chain, t.pbufs q = s.pbufs q ∧ (q ∈ s.live → q ∈ t.live)

section Freeing

variable {s t u : PbufStore} {blocks : List Allocation} {p : PbufAddr} {chain : List PbufAddr}
  {held : Multiset PbufAddr}

theorem Lowered.refl (s : PbufStore) (chain : List PbufAddr) : Lowered s s chain where
  live := Finset.Subset.refl _
  fields q := ⟨(s.pbufs q).ref, rfl⟩
  off _ _ := ⟨rfl, id⟩

theorem Lowered.trans (first : Lowered s t [p]) (second : Lowered t u chain) : Lowered s u (p :: chain) where
  live := second.live.trans first.live
  fields q := by
    obtain ⟨_, here⟩ := first.fields q
    obtain ⟨ref, there⟩ := second.fields q
    exact ⟨ref, by rw [there, here]⟩
  off q outside := by
    rw [List.mem_cons, not_or] at outside
    obtain ⟨here, stays⟩ := first.off q (by simpa using outside.1)
    obtain ⟨there, remains⟩ := second.off q outside.2
    exact ⟨there.trans here, fun alive => remains (stays alive)⟩

theorem Lowered.mono {more : List PbufAddr} (lowered : Lowered s t chain) (sub : chain ⊆ more) : Lowered s t more :=
  { lowered with off := fun q outside => lowered.off q fun member => outside (sub member) }

/-- The last reference: the pbuf is freed, and the loop goes on with the next one. -/
theorem freeNext_last (housed : Housed s blocks) (alive : p ∈ s.live) (last : (s.pbufs p).ref = 1) :
    ∃ freed blocks', s.freeNext p = some (freed, true, (s.pbufs p).next) ∧
      counted freed = (counted s).discard p ∧ Housed freed blocks' ∧ Lowered s freed [p] := by
  have type : (s.write p { s.pbufs p with ref := (s.pbufs p).ref - 1 }).pbufs p =
      { s.pbufs p with ref := (s.pbufs p).ref - 1 } := write_self
  have written : Housed (s.write p { s.pbufs p with ref := (s.pbufs p).ref - 1 }) blocks :=
    housed.write rfl (housed.inside p)
  obtain ⟨freed, blocks', returns, pbufs, live, housed'⟩ := written.dealloc alive
  rw [type] at returns
  refine ⟨freed, blocks', ?_, ?_, housed', ?_, fun q => ?_, fun q outside => ?_⟩
  · unfold PbufStore.freeNext
    rw [read_eq alive, Option.bind_some, if_neg (by rw [last]; decide), if_pos (by rw [last]; decide)]
    exact Option.map_eq_some_iff.mpr ⟨freed, returns, rfl⟩
  · have lowered : counted (s.write p { s.pbufs p with ref := (s.pbufs p).ref - 1 }) = (counted s).lower p :=
      counted_write_lower rfl rfl (by rw [last]; decide)
    unfold Counted.discard
    rw [← lowered]
    unfold counted
    rw [live, pbufs]
    rfl
  · rw [live]
    exact Finset.erase_subset _ _
  · rw [pbufs]
    rcases eq_or_ne q p with rfl | other
    · exact ⟨_, write_self⟩
    · exact ⟨(s.pbufs q).ref, write_of_ne other⟩
  · have other : q ≠ p := by simpa using outside
    rw [pbufs, live]
    exact ⟨write_of_ne other, fun there => Finset.mem_erase.mpr ⟨other, there⟩⟩

/-- Another reference is left: the loop ends. -/
theorem freeNext_more (alive : p ∈ s.live) (positive : (s.pbufs p).ref ≠ 0) (more : (s.pbufs p).ref ≠ 1) :
    s.freeNext p = some (s.write p { s.pbufs p with ref := (s.pbufs p).ref - 1 }, false, none) := by
  unfold PbufStore.freeNext
  rw [read_eq alive, Option.bind_some, if_neg positive, if_neg (by bv_omega)]

theorem lowered_write (s : PbufStore) (p : PbufAddr) (ref : BitVec 16) :
    Lowered s (s.write p { s.pbufs p with ref }) [p] where
  live := Finset.Subset.refl _
  fields q := by
    rcases eq_or_ne q p with rfl | other
    · exact ⟨_, write_self⟩
    · exact ⟨(s.pbufs q).ref, write_of_ne other⟩
  off q outside := ⟨write_of_ne (by simpa using outside), id⟩

/-- A whole `pbuf_free`: it returns, and counts what it has freed in a `u8_t`. -/
theorem freeWalk_eq (h : Chain (counted s).next p? chain) (exact : Exact (counted s) (pointee p? + held))
    (housed : Housed s blocks) {fuel : ℕ} (enough : chain.length ≤ fuel) (count : BitVec 8) :
    ∃ t blocks', s.freeWalk fuel p? count = some (t, count + .ofNat 8 (s.live.card - t.live.card)) ∧
      counted t = release chain (counted s) ∧ Housed t blocks' ∧ Lowered s t chain := by
  induction chain generalizing s p? fuel blocks count with
  | nil =>
    cases h
    refine ⟨s, blocks, ?_, rfl, housed, .refl s []⟩
    rw [Nat.sub_self]
    unfold PbufStore.freeWalk
    simp
  | cons p rest ih =>
    obtain ⟨rfl, behind⟩ := Chain.cons_iff.mp h
    obtain ⟨fuel, rfl⟩ := Nat.exists_eq_add_of_le' (Nat.le_trans (Nat.le_add_left 1 _) enough)
    rw [pointee_some_add] at exact
    have alive : p ∈ s.live := exact.owned p (Multiset.mem_cons_self p held)
    have positive := ref_ne_zero exact alive
    unfold Counted.release PbufStore.freeWalk
    rcases eq_or_ne (s.pbufs p).ref 1 with last | more
    · rw [if_pos (count_eq_one_iff.mpr last)]
      obtain ⟨freed, blocks, step, gone, housed, lowered⟩ := freeNext_last housed alive last
      have exact := exact.discard (count_eq_one_iff.mpr last)
      rw [← gone] at exact ⊢
      have next : Chain (counted freed).next (s.pbufs p).next rest := by
        rw [gone]
        exact behind
      obtain ⟨t, blocks, walks, counts, housed, lowered'⟩ := ih next exact housed
        (by simpa using enough) (count + 1)
      refine ⟨t, blocks, ?_, counts, housed, lowered.trans lowered'⟩
      have one : freed.live.card + 1 = s.live.card := by
        have live : freed.live = s.live.erase p := congrArg Counted.live gone
        rw [live, Finset.card_erase_add_one alive]
      have fewer := Finset.card_le_card lowered'.live
      have total : s.live.card - t.live.card = 1 + (freed.live.card - t.live.card) := by omega
      rw [step, Option.bind_some, total, BitVec.ofNat_add, ← BitVec.add_assoc]
      exact walks
    · rw [if_neg (fun one => more (count_eq_one_iff.mp one)), freeNext_more alive positive more]
      refine ⟨s.write p { s.pbufs p with ref := (s.pbufs p).ref - 1 }, blocks, ?_,
        counted_write_lower rfl rfl positive, housed.write rfl (housed.inside p),
        (lowered_write s p _).mono (List.cons_subset_cons p (List.nil_subset rest))⟩
      rw [Option.bind_some, write_live, Nat.sub_self]
      unfold PbufStore.freeWalk
      simp

/-- `pbuf_free` gives up one reference. -/
theorem pbufFree_eq (exact : Exact (counted s) (p ::ₘ held)) (housed : Housed s blocks)
    (h : Chain (counted s).next (some p) chain) :
    ∃ t blocks', s.pbufFree p = some (t, .ofNat 8 (s.live.card - t.live.card)) ∧
      counted t = release chain (counted s) ∧ Exact (counted t) held ∧ Housed t blocks' ∧ Lowered s t chain := by
  have alive := exact.owned p (Multiset.mem_cons_self p held)
  have room := exact.chain_length_le alive h
  rw [← pointee_some_add] at exact
  obtain ⟨t, blocks, walks, counts, housed, lowered⟩ :=
    freeWalk_eq h exact housed (Nat.le_succ_of_le room) 0#8
  rw [BitVec.zero_add] at walks
  exact ⟨t, blocks, walks, counts, counts ▸ exact.release h, housed, lowered⟩

end Freeing

/-- The invariant that `struct pbuf` states for `tot_len`. -/
def Adds (s : PbufStore) (p : PbufAddr) : Prop :=
  (s.pbufs p).totLen = (s.pbufs p).len + (s.pbufs p).next.elim 0 fun q => (s.pbufs q).totLen

/-- The elements of the pool that are needed besides the first one. -/
def furtherPbufs (remLen : ℕ) : ℕ := (remLen + (pbufPoolBufsizeAligned - 1)) / pbufPoolBufsizeAligned

section Allocating

variable {s : PbufStore} {blocks : List Allocation} {p : PbufAddr} {pbuf : StructPbuf} {held : Multiset PbufAddr}

theorem counted_init (next : pbuf.next = none) (ref : pbuf.ref = 1) :
    counted (s.init p pbuf) = (counted s).insert p := by
  unfold counted PbufStore.init Counted.insert
  congr 1
  · exact (Function.comp_update StructPbuf.next s.pbufs p pbuf).trans (by rw [next]; rfl)
  · exact (Function.comp_update (fun pbuf : StructPbuf => pbuf.ref.toNat) s.pbufs p pbuf).trans (by rw [ref]; rfl)

theorem init_of_ne {q : PbufAddr} (other : q ≠ p) : (s.init p pbuf).pbufs q = s.pbufs q :=
    Function.update_of_ne other _ _

@[simp] theorem init_self : (s.init p pbuf).pbufs p = pbuf := Function.update_self _ _ _

theorem mem_init {q : PbufAddr} : q ∈ (s.init p pbuf).live ↔ q = p ∨ q ∈ s.live := Finset.mem_insert

/-- An element of `MEMP_PBUF_POOL` becomes a pbuf. -/
theorem Housed.initPool {element : ℕ} {rest : List ℕ} (housed : Housed s blocks) (pbuf : StructPbuf)
    (tab : s.poolTab = element :: rest)
    (type : pbuf.type = .pool) (inside : Inside blocks pbuf.payload pbuf.len.toNat (.pool element)) :
    .pool element ∉ s.live ∧ Housed ({ s with poolTab := rest }.init (.pool element) pbuf) blocks := by
  have pool := housed.pool
  rw [tab] at pool
  have fresh := pool.apart element List.mem_cons_self
  have elsewhere : ∀ q ∈ s.live, q ≠ .pool element := fun q alive same => fresh (same ▸ alive)
  refine ⟨fresh, housed.heap, housed.small, fun rmem => ?_, ?_, ?_, fun q member => ?_, fun q member => ?_⟩
  · rw [housed.granted, mem_init]
    simp
  · exact pool.malloc.congr fun e => by rw [mem_init]; simp
  · exact housed.refs.congr fun e => by rw [mem_init]; simp
  · rcases mem_init.mp member with rfl | alive
    · rw [init_self]
      exact type
    · rw [init_of_ne (elsewhere q alive)]
      exact housed.suits q alive
  · rcases mem_init.mp member with rfl | alive
    · rw [init_self]
      exact inside
    · rw [init_of_ne (elsewhere q alive)]
      exact housed.inside q alive

/-- An element of `MEMP_PBUF` becomes a pbuf. -/
theorem Housed.initRef {element : ℕ} {rest : List ℕ} (housed : Housed s blocks) (pbuf : StructPbuf)
    (tab : s.pbufTab = element :: rest)
    (type : pbuf.type = .rom ∨ pbuf.type = .ref) :
    .ref element ∉ s.live ∧ Housed ({ s with pbufTab := rest }.init (.ref element) pbuf) blocks := by
  have refs := housed.refs
  rw [tab] at refs
  have fresh := refs.apart element List.mem_cons_self
  have elsewhere : ∀ q ∈ s.live, q ≠ .ref element := fun q alive same => fresh (same ▸ alive)
  refine ⟨fresh, housed.heap, housed.small, fun rmem => ?_, ?_, ?_, fun q member => ?_, fun q member => ?_⟩
  · rw [housed.granted, mem_init]
    simp
  · exact housed.pool.congr fun e => by rw [mem_init]; simp
  · exact refs.malloc.congr fun e => by rw [mem_init]; simp
  · rcases mem_init.mp member with rfl | alive
    · rw [init_self]
      exact type
    · rw [init_of_ne (elsewhere q alive)]
      exact housed.suits q alive
  · rcases mem_init.mp member with rfl | alive
    · trivial
    · rw [init_of_ne (elsewhere q alive)]
      exact housed.inside q alive

/-- The pbufs in use are as they were, but for new ones. -/
structure Grown (s t : PbufStore) (chain : List PbufAddr) : Prop where
  fresh : ∀ q ∈ chain, q ∉ s.live
  live : ∀ q, q ∈ t.live ↔ q ∈ s.live ∨ q ∈ chain
  same : ∀ q ∈ s.live, t.pbufs q = s.pbufs q
  sums : ∀ q ∈ chain, Adds t q

/-- A block of the heap becomes a pbuf. -/
theorem Housed.initRam {heap : RamHeap} {rmem : ℕ} {size : BitVec 16} {tiles : List Tile} (housed : Housed s blocks)
    (pbuf : StructPbuf) (sound : Sound ⟨heap, ⟨rmem, size⟩ :: blocks⟩ tiles) (small : size.toNat ≤ 65532)
    (type : pbuf.type = .ram)
    (front : sizeofStructPbuf ≤ pbuf.payload) (inside : pbuf.payload + pbuf.len.toNat ≤ size.toNat) :
    .ram rmem ∉ s.live ∧ Housed ({ s with heap }.init (.ram rmem) pbuf) (⟨rmem, size⟩ :: blocks) := by
  have unused : rmem ∉ blocks.map Allocation.rmem := by
    intro again
    obtain ⟨a, member, same⟩ := List.mem_map.mp again
    have distinct := sound.serves.nodup sound.room
    rw [List.map_map, List.map_cons, List.nodup_cons] at distinct
    refine distinct.1 (List.mem_map.mpr ⟨a, member, ?_⟩)
    simp only [Function.comp_apply, Allocation.mem, same]
  have fresh : .ram rmem ∉ s.live := fun alive => unused ((housed.granted rmem).mpr alive)
  have elsewhere : ∀ q ∈ s.live, q ≠ .ram rmem := fun q alive same => fresh (same ▸ alive)
  refine ⟨fresh, ⟨_, sound⟩, ?_, fun other => ?_, ?_, ?_, fun q member => ?_, fun q member => ?_⟩
  · simpa using ⟨small, housed.small⟩
  · rw [List.map_cons, List.mem_cons, housed.granted, mem_init, PbufAddr.ram.injEq]
  · exact housed.pool.congr fun e => by rw [mem_init]; simp
  · exact housed.refs.congr fun e => by rw [mem_init]; simp
  · rcases mem_init.mp member with rfl | alive
    · rw [init_self]
      exact type
    · rw [init_of_ne (elsewhere q alive)]
      exact housed.suits q alive
  · rcases mem_init.mp member with rfl | alive
    · rw [init_self]
      refine ⟨front, fun a there here => ?_⟩
      rcases List.mem_cons.mp there with rfl | there
      · exact inside
      · exact absurd (List.mem_map.mpr ⟨a, there, here⟩) unused
    · rw [init_of_ne (elsewhere q alive)]
      have inside := housed.inside q alive
      cases q with
      | ram other =>
        refine ⟨inside.1, fun a there here => ?_⟩
        rcases List.mem_cons.mp there with rfl | there
        · exact absurd (congrArg PbufAddr.ram here).symm (elsewhere _ alive)
        · exact inside.2 a there here
      | pool _ => exact inside
      | ref _ => trivial

/-- Between two iterations of the loop: the chain up to `r`, and `rem_len`. -/
structure Building (before s : PbufStore) (blocks : List Allocation) (held : Multiset PbufAddr) (head : PbufAddr)
    (built : List PbufAddr) (r : PbufAddr) (length : BitVec 16) (payload : ℤ) (remLen : ℕ) : Prop where
  exact : Exact (counted s) (head ::ₘ held)
  housed : Housed s blocks
  chain : Chain (counted s).next (some head) (built ++ [r])
  fresh : ∀ q ∈ built ++ [r], q ∉ before.live
  live : ∀ q, q ∈ s.live ↔ q ∈ before.live ∨ q ∈ built ++ [r]
  same : ∀ q ∈ before.live, s.pbufs q = before.pbufs q
  sums : ∀ q ∈ built, Adds s q
  rest : (s.pbufs r).totLen = (s.pbufs r).len + .ofNat 16 remLen
  total : ((built ++ [r]).map fun q => (s.pbufs q).len.toNat).sum + remLen = length.toNat
  whole : (s.pbufs head).totLen = length ∧ (s.pbufs head).payload = payload

variable {before : PbufStore} {head r : PbufAddr} {built : List PbufAddr} {length : BitVec 16} {payload : ℤ}
  {remLen : ℕ}

/-- One iteration puts one more pbuf behind the last one. -/
theorem Building.step {element : ℕ} {rest : List ℕ}
    (building : Building before s blocks held head built r length payload remLen) (tab : s.poolTab = element :: rest) :
    Building before (({ s with poolTab := rest }.write r { s.pbufs r with next := some (.pool element) }).init
        (.pool element) (PbufStore.tailPbuf remLen))
      blocks held head (built ++ [r]) (.pool element) length payload (remLen - min remLen pbufPoolBufsizeAligned) := by
  have small : min remLen pbufPoolBufsizeAligned < 2 ^ 16 := Nat.lt_of_le_of_lt (Nat.min_le_right _ _) (by decide)
  have len : (PbufStore.tailPbuf remLen).len.toNat = min remLen pbufPoolBufsizeAligned := by
    rw [PbufStore.tailPbuf, BitVec.toNat_ofNat, Nat.mod_eq_of_lt small]
  have inside : Inside blocks (PbufStore.tailPbuf remLen).payload (PbufStore.tailPbuf remLen).len.toNat
      (.pool element) := by
    refine ⟨le_rfl, ?_⟩
    rw [len]
    have : min remLen pbufPoolBufsizeAligned ≤ pbufPoolBufsizeAligned := Nat.min_le_right _ _
    change ((sizeofStructPbuf : ℕ) : ℤ) + _ ≤ _
    omega
  obtain ⟨fresh, housed⟩ := building.housed.initPool (PbufStore.tailPbuf remLen) tab rfl inside
  generalize q_eq : PbufAddr.pool element = q at fresh housed ⊢
  generalize pbuf_eq : PbufStore.tailPbuf remLen = pbuf at housed len ⊢
  have next : pbuf.next = none := pbuf_eq ▸ rfl
  have known : ∀ a ∈ built ++ [r], a ∈ s.live := fun a member => (building.live a).mpr (.inr member)
  have old : ∀ a ∈ s.live, a ≠ q := fun a alive same => fresh (same ▸ alive)
  have alive := known r (by simp)
  have apart := old r alive
  have order : ({ s with poolTab := rest }.write r { s.pbufs r with next := some q }).init q pbuf =
      ({ s with poolTab := rest }.init q pbuf).write r
        { ({ s with poolTab := rest }.init q pbuf).pbufs r with next := some q } := by
    rw [init_of_ne apart]
    unfold PbufStore.init PbufStore.write
    congr 1
    exact Function.update_comm apart _ _ _
  have last : (s.pbufs r).next = none := by
    exact (building.chain.last_iff (by simp)).mpr rfl
  have inserted : counted ({ s with poolTab := rest }.init q pbuf) = (counted s).insert q :=
    counted_init next (pbuf_eq ▸ rfl)
  have linked : counted ((({ s with poolTab := rest }.write r { s.pbufs r with next := some q }).init q pbuf)) =
      ((counted s).insert q).setNext r (some q) := by
    rw [order, ← inserted]
    exact counted_write_next rfl
  have alone : Chain ((counted s).insert q).next (some q) [q] := by
    refine .cons ?_
    rw [insert_next_self]
    exact .nil
  have apartBuilt : ∀ b ∈ built, b ≠ r := by
    rintro b member rfl
    exact (List.nodup_append.mp building.chain.nodup).2.2 b member b (by simp) rfl
  have here : (({ s with poolTab := rest }.write r { s.pbufs r with next := some q }).init q pbuf).pbufs r =
      { s.pbufs r with next := some q } := (init_of_ne apart).trans write_self
  have off : ∀ a ∈ s.live, a ≠ r →
      (({ s with poolTab := rest }.write r { s.pbufs r with next := some q }).init q pbuf).pbufs a = s.pbufs a :=
    fun a alive other => (init_of_ne (old a alive)).trans (write_of_ne other)
  have kept : ∀ a ∈ s.live, ∃ next,
      (({ s with poolTab := rest }.write r { s.pbufs r with next := some q }).init q pbuf).pbufs a =
        { s.pbufs a with next } := by
    intro a alive
    rcases eq_or_ne a r with rfl | other
    · exact ⟨_, here⟩
    · exact ⟨(s.pbufs a).next, off a alive other⟩
  refine ⟨?_, ?_, ?_, fun a member => ?_, fun a => ?_, fun a old => ?_, fun a member => ?_, ?_, ?_, ?_⟩
  · rw [linked]
    refine (building.exact.insert fresh).link (Finset.mem_insert_of_mem alive) ?_ alone (by simpa using apart)
    rw [insert_next_of_ne _ apart]
    exact last
  · rw [order]
    exact housed.write rfl (housed.inside r)
  · rw [linked, List.append_assoc]
    refine building.chain.replaceEnd (fun b member => ?_) ?_
    · rw [setNext_next_of_ne _ (apartBuilt b member),
        insert_next_of_ne _ (old b (known b (List.mem_append_left _ member)))]
    · rw [setNext_next_self]
      refine .cons ?_
      rw [setNext_next_of_ne _ apart.symm, insert_next_self]
      exact .nil
  · rcases List.mem_append.mp member with behind | new
    · exact building.fresh a behind
    · rw [List.mem_singleton.mp new]
      exact fun older => fresh ((building.live q).mpr (.inl older))
  · rw [mem_init, List.mem_append, List.mem_singleton]
    change a = q ∨ a ∈ s.live ↔ _
    rw [building.live]
    tauto
  · have there := (building.live a).mpr (.inl old)
    rw [off a there, building.same a old]
    rintro rfl
    exact building.fresh a (by simp) old
  · unfold Adds
    rcases List.mem_append.mp member with before | new
    · rw [off a (known a member) (apartBuilt a before), building.sums a before]
      cases step : (s.pbufs a).next with
      | none => rfl
      | some b =>
        obtain ⟨_, same⟩ := kept b (known b (building.chain.mem_of_next member step))
        rw [Option.elim_some, Option.elim_some, same]
    · rw [List.mem_singleton.mp new, here]
      simp only [Option.elim_some, init_self]
      rw [building.rest, ← pbuf_eq]
      rfl
  · rw [init_self, ← pbuf_eq]
    change BitVec.ofNat 16 remLen = BitVec.ofNat 16 _ + BitVec.ofNat 16 _
    rw [← BitVec.ofNat_add, Nat.add_sub_cancel' (Nat.min_le_left _ _)]
  · rw [List.map_append, List.sum_append, List.map_singleton, List.sum_singleton, init_self, len,
      List.map_congr_left (g := fun q => (s.pbufs q).len.toNat), Nat.add_assoc,
      Nat.add_sub_cancel' (Nat.min_le_left _ _), building.total]
    intro a member
    obtain ⟨_, same⟩ := kept a (known a member)
    rw [same]
  · have lead : head ∈ s.live := building.exact.owned head (Multiset.mem_cons_self _ _)
    obtain ⟨_, same⟩ := kept head lead
    rw [same]
    exact building.whole

/-- With `rem_len` at zero, all of the chain is there. -/
theorem Building.grown (building : Building before s blocks held head built r length payload 0) :
    Grown before s (built ++ [r]) := by
  refine ⟨building.fresh, building.live, building.same, fun q member => ?_⟩
  rcases List.mem_append.mp member with behind | last
  · exact building.sums q behind
  · have ends : (s.pbufs r).next = none := (building.chain.last_iff (by simp)).mpr rfl
    have rest := building.rest
    rw [List.mem_singleton.mp last]
    unfold Adds
    rw [ends, rest]
    rfl

/-- Where the pool is empty, the pbufs taken so far go back. -/
theorem Building.giveUp (building : Building before s blocks held head built r length payload remLen)
    (start : Exact (counted before) held) :
    ∃ t count blocks', s.pbufFree head = some (t, count) ∧ Exact (counted t) held ∧ Housed t blocks' ∧
      Grown before t [] := by
  obtain ⟨t, blocks', returns, _, exact, housed, lowered⟩ := pbufFree_eq building.exact building.housed
    building.chain
  have same : ∀ q ∈ before.live, t.pbufs q = before.pbufs q := fun q old => by
    rw [(lowered.off q fun new => building.fresh q new old).1]
    exact building.same q old
  refine ⟨t, _, blocks', returns, exact, housed, by simp, fun q => ?_, same, by simp⟩
  simp only [List.not_mem_nil, or_false]
  constructor
  · refine exact.confined (· ∈ before.live) start.owned fun a b old step => start.closed a old b ?_
    change (before.pbufs a).next = some b
    rw [← same a old]
    exact step
  · exact fun old => (lowered.off q fun new => building.fresh q new old).2 ((building.live q).mpr (.inl old))

theorem furtherPbufs_step {remLen : ℕ} (positive : 0 < remLen) :
    furtherPbufs remLen = furtherPbufs (remLen - min remLen pbufPoolBufsizeAligned) + 1 := by
  unfold furtherPbufs pbufPoolBufsizeAligned
  omega

/-- The loop takes the pbufs that it needs, or none where there are too few. -/
theorem Building.allocTail (building : Building before s blocks held head built r length payload remLen)
    (start : Exact (counted before) held) (small : remLen < 0xffff) :
    if furtherPbufs remLen ≤ s.poolTab.length then
      ∃ t built' r', s.allocTail head s.poolTab r remLen = some (t, some head) ∧
        Building before t blocks held head built' r' length payload 0 ∧
          built'.length = built.length + furtherPbufs remLen
    else
      ∃ t blocks', s.allocTail head s.poolTab r remLen = some (t, none) ∧ Exact (counted t) held ∧
        Housed t blocks' ∧ Grown before t [] := by
  induction tab : s.poolTab generalizing s built r remLen with
  | nil =>
    unfold PbufStore.allocTail
    rcases Nat.eq_zero_or_pos remLen with rfl | positive
    · rw [if_pos (by decide), if_neg (by decide)]
      exact ⟨s, built, r, rfl, building, rfl⟩
    · rw [if_neg (by rw [furtherPbufs_step positive]; simp), if_pos positive]
      obtain ⟨t, count, blocks', returns, rest⟩ := building.giveUp start
      exact ⟨t, blocks', Option.map_eq_some_iff.mpr ⟨_, returns, rfl⟩, rest⟩
  | cons element tail ih =>
    unfold PbufStore.allocTail
    rcases Nat.eq_zero_or_pos remLen with rfl | positive
    · rw [if_pos (show furtherPbufs 0 ≤ _ from Nat.zero_le _), if_neg (by decide)]
      exact ⟨s, built, r, rfl, building, rfl⟩
    · have next := ih (building.step tab) (by omega) rfl
      rw [furtherPbufs_step positive, List.length_cons]
      simp only [if_pos positive, if_pos small, Nat.add_le_add_iff_right]
      split at next
      · next enough =>
        obtain ⟨t, built', r', returns, whole, count⟩ := next
        rw [if_pos enough]
        refine ⟨t, built', r', returns, whole, ?_⟩
        rw [count, List.length_append, List.length_singleton]
        omega
      · next short =>
        rw [if_neg short]
        exact next

theorem eq_add_ofNat_sub {whole part : BitVec 16} (le : part.toNat ≤ whole.toNat) :
    whole = part + .ofNat 16 (whole.toNat - part.toNat) := by
  bv_omega

/-- The elements of the pool for a length, the first one with room for headers in front. -/
def neededPbufs (layer : PbufLayer) (length : BitVec 16) : ℕ :=
  1 + furtherPbufs (length.toNat - (pbufPoolBufsizeAligned - memAlignSize layer.offset))

theorem memAlignSize_header (layer : PbufLayer) :
    memAlignSize (sizeofStructPbuf + layer.offset) = sizeofStructPbuf + memAlignSize layer.offset ∧
      memAlignSize layer.offset < pbufPoolBufsizeAligned := by
  cases layer <;> decide

/-- `pbuf_alloc` of a chain: all of it, or nothing. -/
theorem allocPool_eq (exact : Exact (counted s) held) (housed : Housed s blocks) (layer : PbufLayer)
    (length : BitVec 16) :
    if neededPbufs layer length ≤ s.poolTab.length then
      ∃ t p built r, s.allocPool layer length = some (t, some p) ∧ built.length + 1 = neededPbufs layer length ∧
        Building s t blocks held p built r length (memAlignSize (sizeofStructPbuf + layer.offset)) 0
    else
      ∃ t blocks', s.allocPool layer length = some (t, none) ∧ Exact (counted t) held ∧ Housed t blocks' ∧
        Grown s t [] := by
  obtain ⟨header, room⟩ := memAlignSize_header layer
  have below := length.isLt
  unfold PbufStore.allocPool neededPbufs
  cases tab : s.poolTab with
  | nil =>
    rw [if_neg (by simp)]
    exact ⟨s, blocks, rfl, exact, housed, by simp, by simp, by simp, by simp⟩
  | cons element rest =>
    have len : (PbufStore.headPbuf layer length).len.toNat =
        min length.toNat (pbufPoolBufsizeAligned - memAlignSize layer.offset) := by
      rw [PbufStore.headPbuf, BitVec.toNat_ofNat, Nat.mod_eq_of_lt (Nat.lt_of_le_of_lt (Nat.min_le_left _ _) below)]
    have payload : (PbufStore.headPbuf layer length).payload =
      (sizeofStructPbuf + memAlignSize layer.offset : ℕ) := by
      rw [← header]
      rfl
    have inside : (PbufStore.headPbuf layer length).payload + (PbufStore.headPbuf layer length).len.toNat ≤
        sizeofStructPbuf + pbufPoolBufsizeAligned := by
      rw [payload, len]
      omega
    obtain ⟨fresh, housed⟩ := housed.initPool (PbufStore.headPbuf layer length) tab rfl
      ⟨by rw [payload]; omega, inside⟩
    have first : Building s ({ s with poolTab := rest }.init (.pool element) (PbufStore.headPbuf layer length)) blocks
        held (.pool element) [] (.pool element) length (memAlignSize (sizeofStructPbuf + layer.offset))
        (length.toNat - (PbufStore.headPbuf layer length).len.toNat) := by
      have counts : counted ({ s with poolTab := rest }.init (.pool element) (PbufStore.headPbuf layer length)) =
          (counted s).insert (.pool element) := counted_init rfl rfl
      refine ⟨?_, housed, ?_, ?_, fun q => ?_, fun q old => init_of_ne ?_, ?_, ?_, ?_, ?_⟩
      · rw [counts]
        exact exact.insert fresh
      · rw [counts]
        refine .cons ?_
        rw [insert_next_self]
        exact .nil
      · simpa using fresh
      · rw [mem_init]
        simp [or_comm]
      · rintro rfl
        exact fresh old
      · simp
      · rw [init_self]
        exact eq_add_ofNat_sub (by rw [len]; exact Nat.min_le_left _ _)
      · rw [List.nil_append, List.map_singleton, List.sum_singleton, init_self, len]
        omega
      · rw [init_self]
        exact ⟨rfl, rfl⟩
    have loop := first.allocTail exact (by omega)
    have rem : length.toNat - (PbufStore.headPbuf layer length).len.toNat =
        length.toNat - (pbufPoolBufsizeAligned - memAlignSize layer.offset) := by omega
    simp only [if_pos inside, List.length_cons, Nat.add_comm 1, Nat.add_le_add_iff_right]
    rw [rem] at loop ⊢
    split at loop
    · next enough =>
      obtain ⟨t, built, r, returns, building, count⟩ := loop
      rw [if_pos (show _ ≤ rest.length from enough)]
      exact ⟨t, _, built, r, returns, by rw [count, List.length_nil, Nat.zero_add], building⟩
    · next short =>
      rw [if_neg (show ¬ _ ≤ rest.length from short)]
      exact loop

/-- A single new pbuf, in memory that was taken from one of the sources. -/
theorem grown_init {base : PbufStore} (live : base.live = s.live) (pbufs : base.pbufs = s.pbufs) (fresh : p ∉ s.live)
    (next : pbuf.next = none) (same : pbuf.totLen = pbuf.len) : Grown s (base.init p pbuf) [p] where
  fresh := by simpa using fresh
  live q := by
    rw [mem_init, List.mem_singleton, live]
    exact or_comm
  same q old := by
    rw [init_of_ne (by rintro rfl; exact fresh old), pbufs]
  sums q member := by
    rw [List.mem_singleton.mp member]
    unfold Adds
    rw [init_self, next, same]
    exact (BitVec.add_zero _).symm

/-- What an allocation does: it takes memory for all that was asked for, or leaves everything as it is. -/
structure Granted (s t : PbufStore) (p? : Option PbufAddr) (held : Multiset PbufAddr) (length : BitVec 16) : Prop where
  exact : Exact (counted t) (pointee p? + held)
  housed : ∃ blocks, Housed t blocks
  grown : ∃ chain, Chain (counted t).next p? chain ∧ Grown s t chain ∧
    (p?.isSome → (chain.map fun q => (t.pbufs q).len.toNat).sum = length.toNat)
  totLen : ∀ p, p? = some p → (t.pbufs p).totLen = length

theorem granted_init {base : PbufStore} {length : BitVec 16} (exact : Exact (counted s) held)
    (live : base.live = s.live) (pbufs : base.pbufs = s.pbufs) (fresh : p ∉ s.live)
    (housed : Housed (base.init p pbuf) blocks) (next : pbuf.next = none) (ref : pbuf.ref = 1)
    (totLen : pbuf.totLen = length) (len : pbuf.len = length) :
    Granted s (base.init p pbuf) (some p) held length where
  exact := by
    have same : counted base = counted s := by
      unfold counted
      rw [live, pbufs]
    rw [counted_init next ref, pointee_some_add, same]
    exact exact.insert fresh
  housed := ⟨_, housed⟩
  grown := by
    refine ⟨[p], ?_, grown_init live pbufs fresh next (totLen.trans len.symm), fun _ => ?_⟩
    · rw [counted_init next ref]
      refine .cons ?_
      rw [insert_next_self]
      exact .nil
    · rw [List.map_singleton, List.sum_singleton, init_self, len]
  totLen q same := by
    cases same
    rw [init_self, totLen]

theorem granted_none {t : PbufStore} (exact : Exact (counted s) held) (live : t.live = s.live)
    (pbufs : t.pbufs = s.pbufs) (housed : Housed t blocks) (length : BitVec 16) : Granted s t none held length where
  exact := by
    unfold counted
    rw [pointee_none_add, live, pbufs]
    exact exact
  housed := ⟨_, housed⟩
  grown := ⟨[], .nil, ⟨by simp, by simp [live], by simp [pbufs], by simp⟩, by simp⟩
  totLen := by simp

theorem allocRef_eq (exact : Exact (counted s) held) (housed : Housed s blocks) (length : BitVec 16) {type : PbufType}
    (outside : type = .rom ∨ type = .ref) :
    Granted s (s.allocRef length type).1 (s.allocRef length type).2 held length := by
  unfold PbufStore.allocRef
  cases tab : s.pbufTab with
  | nil => exact granted_none exact rfl rfl housed length
  | cons element rest =>
    obtain ⟨fresh, housed⟩ := housed.initRef { totLen := length, len := length, type, ref := 1 } tab outside
    exact granted_init exact rfl rfl fresh housed rfl rfl rfl rfl

theorem allocRam_eq (exact : Exact (counted s) held) (housed : Housed s blocks) (layer : PbufLayer)
    (length : BitVec 16) : ∃ t p?, s.allocRam layer length = some (t, p?) ∧ Granted s t p? held length := by
  obtain ⟨tiles, sound⟩ := housed.heap
  obtain ⟨header, room⟩ := memAlignSize_header layer
  have below := length.isLt
  have aligned : memAlignSize length.toNat = (length.toNat + 3) / 4 * 4 := rfl
  have offset : memAlignSize layer.offset = (layer.offset + 3) / 4 * 4 := rfl
  unfold PbufStore.allocRam
  rw [header]
  simp only
  split
  · exact ⟨s, none, rfl, granted_none exact rfl rfl housed length⟩
  · next fits =>
    -- the sum did not wrap around
    have size : (BitVec.ofNat 16 (sizeofStructPbuf + memAlignSize layer.offset + memAlignSize length.toNat)).toNat =
        sizeofStructPbuf + memAlignSize layer.offset + memAlignSize length.toNat := by
      rw [BitVec.toNat_ofNat] at fits ⊢
      unfold pbufPoolBufsizeAligned at room
      unfold sizeofStructPbuf at fits ⊢
      omega
    generalize BitVec.ofNat 16 (sizeofStructPbuf + memAlignSize layer.offset + memAlignSize length.toNat) = allocLen
      at fits size ⊢
    have positive : allocLen ≠ 0 := by
      intro zero
      rw [zero] at size
      change 0 = 16 + _ + _ at size
      omega
    have small := allocLen.isLt
    obtain ⟨heap, returns, sound'⟩ := sound.malloc allocLen positive
    rw [show s.heap.memMalloc allocLen = _ from returns]
    cases found : Tiling.firstFit (footprint allocLen) 0 tiles with
    | none =>
      rw [found] at sound'
      have left : Sound ⟨heap, blocks⟩ (Tiling.allot (footprint allocLen) spareRoom tiles) := sound'
      have housed : Housed { s with heap } blocks := { housed with heap := ⟨_, left⟩ }
      exact ⟨_, none, rfl, granted_none (t := { s with heap }) exact rfl rfl housed length⟩
    | some place =>
      rw [found] at sound'
      have struct : sizeofStructPbuf = 16 := rfl
      have front : (sizeofStructPbuf : ℤ) ≤ (sizeofStructPbuf + memAlignSize layer.offset : ℕ) := by omega
      have inside : ((sizeofStructPbuf + memAlignSize layer.offset : ℕ) : ℤ) + length.toNat ≤
        allocLen.toNat := by omega
      obtain ⟨fresh, housed⟩ := housed.initRam ⟨none, _, length, length, .ram, 1⟩ sound' (by omega) rfl
        front inside
      exact ⟨_, _, rfl, granted_init exact rfl rfl fresh housed rfl rfl rfl rfl⟩

/-- `pbuf_alloc` returns, for every layer, length and type. -/
theorem pbufAlloc_eq (exact : Exact (counted s) held) (housed : Housed s blocks) (layer : PbufLayer)
    (length : BitVec 16) (type : PbufType) :
    ∃ t p?, s.pbufAlloc layer length type = some (t, p?) ∧ Granted s t p? held length := by
  cases type with
  | ram => exact allocRam_eq exact housed layer length
  | rom => exact ⟨_, _, rfl, allocRef_eq exact housed length (.inl rfl)⟩
  | ref => exact ⟨_, _, rfl, allocRef_eq exact housed length (.inr rfl)⟩
  | pool =>
    have chain := allocPool_eq exact housed layer length
    split at chain
    · obtain ⟨t, p, built, r, returns, _, building⟩ := chain
      refine ⟨t, some p, returns, ?_, ⟨_, building.housed⟩,
        ⟨_, building.chain, building.grown, fun _ => ?_⟩, ?_⟩
      · rw [pointee_some_add]
        exact building.exact
      · exact building.total
      · rintro q same
        cases same
        exact building.whole.1
    · obtain ⟨t, blocks', returns, exact, housed, grown⟩ := chain
      refine ⟨t, none, returns, ?_, ⟨_, housed⟩, ⟨[], .nil, grown, by simp⟩, by simp⟩
      rwa [pointee_none_add]

end Allocating

end WirelessSpeakers.Soundness
