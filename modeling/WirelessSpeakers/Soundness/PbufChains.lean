import WirelessSpeakers.Soundness.PbufStore

/-! # Chains of pbufs

What `pbuf_cat`, `pbuf_chain`, `pbuf_dechain` and `pbuf_realloc` do to the chains they are called on, and
what becomes of `tot_len`.
-/

namespace WirelessSpeakers.Soundness

open Model Counted

/-- Every `tot_len` is what its invariant says. -/
def Lengths (s : PbufStore) : Prop := ∀ p ∈ s.live, Adds s p

/-- No pbuf outside of some points to one of them. -/
def Unshared (s : PbufStore) (some : List PbufAddr) : Prop :=
  ∀ q ∈ s.live, ∀ a ∈ some, (s.pbufs q).next = a → q ∈ some

section Lengths

variable {s t : PbufStore} {p q : PbufAddr} {pbuf : StructPbuf} {chain : List PbufAddr} {held : Multiset PbufAddr}

/-- `Adds` is about three fields. -/
theorem Adds.congr (adds : Adds s p) (fields : ∀ q, q = p ∨ (s.pbufs p).next = some q →
    ∃ ref, t.pbufs q = { s.pbufs q with ref }) : Adds t p := by
  unfold Adds at adds ⊢
  obtain ⟨_, here⟩ := fields p (.inl rfl)
  rw [here]
  cases step : (s.pbufs p).next with
  | none =>
    rw [step] at adds
    exact adds
  | some q =>
    obtain ⟨_, next⟩ := fields q (.inr step)
    rw [step] at adds
    rw [Option.elim_some, next]
    exact adds

theorem Lengths.lowered (lengths : Lengths s) (lowered : Lowered s t chain) : Lengths t := fun p alive =>
  (lengths p (lowered.live alive)).congr fun q _ => lowered.fields q

theorem Lengths.grown (lengths : Lengths s) (exact : Exact (counted s) held) (grown : Grown s t chain) : Lengths t := by
  intro p alive
  rcases (grown.live p).mp alive with old | new
  · refine (lengths p old).congr fun q near => ?_
    have there : q ∈ s.live := by
      rcases near with rfl | step
      · exact old
      · exact exact.closed p old q step
    exact ⟨(s.pbufs q).ref, grown.same q there⟩
  · exact grown.sums p new

/-- A pbuf that no other one points to may be changed, if it adds up by itself. -/
theorem Lengths.write (lengths : Lengths s) (unshared : Unshared s [p])
    (sums : pbuf.totLen = pbuf.len + pbuf.next.elim 0 fun q => ((s.write p pbuf).pbufs q).totLen) :
    Lengths (s.write p pbuf) := by
  intro a alive
  have adds := lengths a alive
  unfold Adds at adds ⊢
  rcases eq_or_ne a p with rfl | other
  · rw [write_self]
    exact sums
  · rw [write_of_ne other]
    cases step : (s.pbufs a).next with
    | none =>
      rw [step] at adds
      exact adds
    | some b =>
      have off : b ≠ p := by
        rintro rfl
        exact other (List.mem_singleton.mp (unshared a alive b (List.mem_singleton_self b) step))
      rw [step] at adds
      rw [Option.elim_some, write_of_ne off]
      exact adds

theorem Lowered.congr {u : PbufStore} (lowered : Lowered s t chain) (live : u.live = s.live)
    (pbufs : u.pbufs = s.pbufs) : Lowered u t chain where
  live := live ▸ lowered.live
  fields q := by
    rw [pbufs]
    exact lowered.fields q
  off q := by
    rw [pbufs, live]
    exact lowered.off q

end Lengths

/-- A number of bytes more from some pbufs on. -/
def lengthened (s : PbufStore) (n : BitVec 16) (on : List PbufAddr) : PbufStore :=
  { s with pbufs := fun q => if q ∈ on then { s.pbufs q with totLen := (s.pbufs q).totLen + n } else s.pbufs q }

section Cat

variable {s : PbufStore} {blocks : List Allocation} {n : BitVec 16} {p t last : PbufAddr}
  {front on : List PbufAddr} {held : Multiset PbufAddr}

theorem lengthened_of_mem {q : PbufAddr} (member : q ∈ on) :
    (lengthened s n on).pbufs q = { s.pbufs q with totLen := (s.pbufs q).totLen + n } := if_pos member

theorem lengthened_of_notMem {q : PbufAddr} (outside : q ∉ on) : (lengthened s n on).pbufs q = s.pbufs q :=
  if_neg outside

theorem lengthened_nil : lengthened s n [] = s := by
  unfold lengthened
  simp

theorem lengthened_cons (fresh : p ∉ on) : lengthened s n (p :: on) =
    lengthened (s.write p { s.pbufs p with totLen := (s.pbufs p).totLen + n }) n on := by
  unfold lengthened PbufStore.write
  congr 1
  funext q
  rcases eq_or_ne q p with rfl | other
  · simp [fresh]
  · simp [other]

theorem counted_lengthened : counted (lengthened s n on) = counted s := by
  unfold counted lengthened
  congr 1
  · funext q
    dsimp only
    split <;> rfl
  · funext q
    dsimp only
    split <;> rfl

theorem Housed.lengthened (housed : Housed s blocks) : Housed (lengthened s n on) blocks := by
  refine { housed with suits := fun q alive => ?_, inside := fun q alive => ?_ }
  · unfold Soundness.lengthened
    dsimp only
    split
    · exact housed.suits q alive
    · exact housed.suits q alive
  · unfold Soundness.lengthened
    dsimp only
    split
    · exact housed.inside q alive
    · exact housed.inside q alive

/-- The loop of `pbuf_cat` goes to the last pbuf and adds to those before it. -/
theorem catWalk_eq (h : Chain (counted s).next (some p) (front ++ [last]))
    (alive : ∀ q ∈ front ++ [last], q ∈ s.live) (tail : t ∈ s.live) (apart : t ∉ front) (extra : ℕ) :
    s.catWalk t (front.length + extra + 1) p = some (lengthened s (s.pbufs t).totLen front, last) := by
  induction front generalizing s p with
  | nil =>
    obtain ⟨same, ends⟩ := Chain.cons_iff.mp h
    cases same
    have next : (s.pbufs last).next = none := Chain.nil_iff.mp ends
    unfold PbufStore.catWalk
    rw [read_eq (alive last (by simp)), Option.bind_some, lengthened_nil]
    simp only [next]
  | cons a rest ih =>
    obtain ⟨same, behind⟩ := Chain.cons_iff.mp h
    cases same
    obtain ⟨b, head, _⟩ := behind.exists_head
    have step : (s.pbufs a).next = some b := head
    have fresh : a ∉ rest := fun again => (List.nodup_cons.mp h.nodup).1 (List.mem_append_left _ again)
    have other : t ≠ a := List.ne_of_not_mem_cons apart
    have counts : counted (s.write a { s.pbufs a with totLen := (s.pbufs a).totLen + (s.pbufs t).totLen }) =
        counted s := counted_write_same rfl rfl
    rw [head, ← counts] at behind
    have walk := ih behind (fun q member => alive q (List.mem_cons_of_mem a member)) tail
      (List.not_mem_of_not_mem_cons apart)
    rw [write_of_ne other, ← lengthened_cons fresh] at walk
    rw [List.length_cons, Nat.add_right_comm _ 1]
    unfold PbufStore.catWalk
    rw [read_eq (alive a (by simp)), Option.bind_some]
    simp only [step] at walk ⊢
    rw [read_eq tail, Option.bind_some, walk]

/-- What `pbuf_cat` makes of a chain that ends with `last`. -/
def joined (s : PbufStore) (t : PbufAddr) (front : List PbufAddr) (last : PbufAddr) : PbufStore :=
  (lengthened s (s.pbufs t).totLen front).write last
    { s.pbufs last with totLen := (s.pbufs last).totLen + (s.pbufs t).totLen, next := some t }

theorem counted_joined (fresh : last ∉ front) :
    counted (joined s t front last) = (counted s).setNext last (some t) := by
  unfold joined
  rw [counted_write_next (by rw [lengthened_of_notMem fresh]), counted_lengthened]

theorem Housed.joined (housed : Housed s blocks) (fresh : last ∉ front) : Housed (joined s t front last) blocks := by
  refine housed.lengthened.write ?_ (housed.inside last)
  rw [lengthened_of_notMem fresh]

theorem joined_last : (joined s t front last).pbufs last =
    { s.pbufs last with totLen := (s.pbufs last).totLen + (s.pbufs t).totLen, next := some t } := write_self

theorem joined_front {q : PbufAddr} (fresh : last ∉ front) (member : q ∈ front) : (joined s t front last).pbufs q =
    { s.pbufs q with totLen := (s.pbufs q).totLen + (s.pbufs t).totLen } := by
  unfold joined
  rw [write_of_ne (by rintro rfl; exact fresh member), lengthened_of_mem member]

theorem joined_off {q : PbufAddr} (outside : q ∉ front ++ [last]) :
    (joined s t front last).pbufs q = s.pbufs q := by
  rw [List.mem_append, List.mem_singleton, not_or] at outside
  unfold joined
  rw [write_of_ne outside.2, lengthened_of_notMem outside.1]

/-- Two chains that are apart, the first one up to its last pbuf. -/
structure Apart (s : PbufStore) (h t : PbufAddr) (front : List PbufAddr) (last : PbufAddr) (ts : List PbufAddr) :
    Prop where
  head : Chain (counted s).next (some h) (front ++ [last])
  tail : Chain (counted s).next (some t) ts
  apart : ∀ a ∈ front ++ [last], a ∉ ts

theorem Apart.fresh {h : PbufAddr} {ts : List PbufAddr} (chains : Apart s h t front last ts) :
    last ∉ front := fun again =>
  (List.nodup_append.mp chains.head.nodup).2.2 last again last (List.mem_singleton_self last) rfl

theorem Apart.tail_notMem {h : PbufAddr} {ts : List PbufAddr} (chains : Apart s h t front last ts) :
    t ∉ front ++ [last] := fun member => chains.apart t member chains.tail.head_mem

/-- `pbuf_cat` returns where the `tot_len` of the last pbuf is its `len`. -/
theorem pbufCat_eq {h : PbufAddr} {ts : List PbufAddr} (exact : Exact (counted s) held)
    (chains : Apart s h t front last ts) (head : h ∈ s.live) (tail : t ∈ s.live) :
    s.pbufCat h t =
      if (s.pbufs last).totLen = (s.pbufs last).len then some (joined s t front last) else none := by
  have inside := exact.chain_live chains.head fun a same => Option.some_inj.mp same ▸ head
  have room := exact.chain_length_le head chains.head
  rw [List.length_append, List.length_singleton] at room
  have apart : t ∉ front := fun member => chains.tail_notMem (List.mem_append_left _ member)
  obtain ⟨extra, enough⟩ := Nat.exists_eq_add_of_le (Nat.le_of_succ_le room)
  have walk := catWalk_eq chains.head inside tail apart extra
  rw [← enough] at walk
  have same : (lengthened s (s.pbufs t).totLen front).pbufs last = s.pbufs last := lengthened_of_notMem chains.fresh
  have there : last ∈ (lengthened s (s.pbufs t).totLen front).live := inside last (by simp)
  have tail' : t ∈ (lengthened s (s.pbufs t).totLen front).live := tail
  unfold PbufStore.pbufCat
  rw [show s.live.card = (counted s).live.card from rfl, walk, Option.bind_some]
  simp only
  rw [read_eq there, Option.bind_some, read_eq tail', same, lengthened_of_notMem apart]
  rfl

/-- Afterwards the reference to the tail belongs to the chain. -/
theorem Exact.joined {h : PbufAddr} {ts : List PbufAddr} (exact : Exact (counted s) (t ::ₘ held))
    (chains : Apart s h t front last ts) (head : h ∈ s.live) : Exact (counted (joined s t front last)) held := by
  rw [counted_joined chains.fresh]
  refine exact.link ?_ ?_ chains.tail (chains.apart last (by simp))
  · exact exact.chain_live chains.head (fun a same => Option.some_inj.mp same ▸ head) last (by simp)
  · exact (chains.head.last_iff (by simp)).mpr rfl

/-- The chain of the head has the pbufs of the tail behind it. -/
theorem Apart.joined {h : PbufAddr} {ts : List PbufAddr} (chains : Apart s h t front last ts) :
    Chain (counted (joined s t front last)).next (some h) (front ++ last :: ts) := by
  rw [counted_joined chains.fresh]
  refine chains.head.replaceEnd (fun b member => setNext_next_of_ne _ ?_ _) ?_
  · rintro rfl
    exact chains.fresh member
  · rw [setNext_next_self]
    exact chains.tail.congr fun b member => setNext_next_of_ne _ (by
      rintro rfl
      exact chains.apart b (by simp) member) _

theorem Lengths.joined {h : PbufAddr} {ts : List PbufAddr} (lengths : Lengths s) (exact : Exact (counted s) held)
    (chains : Apart s h t front last ts) (head : h ∈ s.live) (unshared : Unshared s (front ++ [last])) :
    Lengths (joined s t front last) := by
  have inside := exact.chain_live chains.head fun a same => Option.some_inj.mp same ▸ head
  intro p alive
  have alive : p ∈ s.live := alive
  have adds := lengths p alive
  unfold Adds at adds ⊢
  by_cases member : p ∈ front ++ [last]
  · rcases List.mem_append.mp member with early | final
    · cases step : (s.pbufs p).next with
      | none =>
        have same := (chains.head.last_iff member).mp step
        exact absurd (same ▸ early) chains.fresh
      | some q =>
        have near := chains.head.mem_of_next member step
        have more : ((Soundness.joined s t front last).pbufs q).totLen = (s.pbufs q).totLen + (s.pbufs t).totLen := by
          rcases List.mem_append.mp near with early | final
          · rw [joined_front chains.fresh early]
          · rw [List.mem_singleton.mp final, joined_last]
        rw [step] at adds
        rw [joined_front chains.fresh early, step, Option.elim_some, more, adds, Option.elim_some, add_assoc]
    · have ends : (s.pbufs last).next = none := (chains.head.last_iff (by simp)).mpr rfl
      rw [List.mem_singleton.mp final, ends] at adds
      rw [List.mem_singleton.mp final, joined_last]
      simp only [Option.elim_some, Option.elim_none, add_zero] at adds ⊢
      rw [joined_off chains.tail_notMem, adds]
  · rw [joined_off member]
    cases step : (s.pbufs p).next with
    | none =>
      rw [step] at adds
      exact adds
    | some q =>
      have off : q ∉ front ++ [last] := fun near => member (unshared p alive q near step)
      rw [step] at adds
      rw [Option.elim_some, joined_off off]
      exact adds

theorem pbufRef_eq (alive : p ∈ s.live) : s.pbufRef p =
    if (s.pbufs p).ref + 1 = 0 then none else some (s.write p { s.pbufs p with ref := (s.pbufs p).ref + 1 }) := by
  unfold PbufStore.pbufRef
  rw [read_eq alive]
  rfl

/-- Only a count changes. -/
theorem Lengths.write_ref (lengths : Lengths s) (ref : BitVec 16) : Lengths (s.write p { s.pbufs p with ref }) :=
  lengths.lowered (lowered_write s p ref)

/-- `pbuf_chain` leaves the reference to the tail with the caller. -/
theorem Exact.joined_raise {h : PbufAddr} {ts : List PbufAddr} (exact : Exact (counted s) held)
    (chains : Apart s h t front last ts) (head : h ∈ s.live) (tail : t ∈ s.live)
    (small : (s.pbufs t).ref + 1 ≠ 0) :
    Exact (counted ((Soundness.joined s t front last).write t { (Soundness.joined s t front last).pbufs t with
      ref := ((Soundness.joined s t front last).pbufs t).ref + 1 })) held := by
  have same : (Soundness.joined s t front last).pbufs t = s.pbufs t := joined_off chains.tail_notMem
  have raised : counted ((Soundness.joined s t front last).write t { (Soundness.joined s t front last).pbufs t with
      ref := ((Soundness.joined s t front last).pbufs t).ref + 1 }) =
      (counted (Soundness.joined s t front last)).raise t := counted_write_raise rfl rfl (by rwa [same])
  rw [raised, counted_joined chains.fresh]
  change Exact (((counted s).raise t).setNext last (some t)) held
  refine (exact.raise tail).link ?_ ?_ chains.tail (chains.apart last (by simp))
  · exact exact.chain_live chains.head (fun a same => Option.some_inj.mp same ▸ head) last (by simp)
  · exact (chains.head.last_iff (by simp)).mpr rfl

end Cat

section Cut

variable {s : PbufStore} {blocks : List Allocation} {p q r next : PbufAddr} {pbuf : StructPbuf} {chain : List PbufAddr}
  {held : Multiset PbufAddr}

theorem dealloc_write (type : PbufType) :
    (s.write r pbuf).dealloc p type = (s.dealloc p type).map (·.write r pbuf) := by
  unfold PbufStore.dealloc PbufStore.write
  cases type <;> cases p <;> try rfl
  simp only [Option.map_map]
  rfl

theorem dealloc_pbufs {t : PbufStore} {type : PbufType} (returns : s.dealloc p type = some t) : t.pbufs = s.pbufs := by
  unfold PbufStore.dealloc at returns
  split at returns
  · cases returns
    rfl
  · cases returns
    rfl
  · cases returns
    rfl
  · obtain ⟨heap, _, rfl⟩ := Option.map_eq_some_iff.mp returns
    rfl
  · contradiction

/-- The loop goes along the pointers as they are. -/
theorem freeNext_next {t : PbufStore} {c : Bool} {next? : Option PbufAddr}
    (returns : s.freeNext p = some (t, c, next?)) :
    (counted t).next = (counted s).next ∧ (next? = none ∨ next? = (counted s).next p) := by
  unfold PbufStore.freeNext PbufStore.read at returns
  have same : ∀ ref, (counted (s.write p { s.pbufs p with ref })).next = (counted s).next := fun ref => by
    rw [counted_write]
    exact Function.update_eq_self _ _
  split at returns
  · rw [Option.bind_some] at returns
    split at returns
    · contradiction
    · simp only at returns
      split at returns
      · obtain ⟨freed, gone, result⟩ := Option.map_eq_some_iff.mp returns
        cases result
        refine ⟨?_, .inr rfl⟩
        rw [← same]
        unfold counted
        rw [dealloc_pbufs gone]
      · cases returns
        exact ⟨same _, .inl rfl⟩
  · contradiction

/-- A `pbuf_free` does not see what is written to a pbuf elsewhere. -/
theorem freeNext_write (other : p ≠ r) : (s.write r pbuf).freeNext p =
    (s.freeNext p).map fun (t, counted, next) => (t.write r pbuf, counted, next) := by
  unfold PbufStore.freeNext PbufStore.read
  rw [write_live, write_of_ne other]
  by_cases alive : p ∈ s.live
  · have swap : ∀ x, (s.write r pbuf).write p x = (s.write p x).write r pbuf := fun x => by
      unfold PbufStore.write
      congr 1
      exact Function.update_comm other.symm _ _ _
    rw [if_pos alive, Option.bind_some, Option.bind_some]
    split
    · rfl
    · simp only [swap, dealloc_write]
      split
      · simp only [Option.map_map]
        rfl
      · rfl
  · rw [if_neg alive]
    rfl

theorem freeWalk_write (pbuf : StructPbuf) {p? : Option PbufAddr} (h : Chain (counted s).next p? chain)
    (off : r ∉ chain) (fuel : ℕ) (count : BitVec 8) : (s.write r pbuf).freeWalk fuel p? count =
      (s.freeWalk fuel p? count).map fun (t, count) => (t.write r pbuf, count) := by
  induction fuel generalizing s p? chain count with
  | zero =>
    cases p? with
    | none => rfl
    | some p => rfl
  | succ fuel ih =>
    cases p? with
    | none => rfl
    | some p =>
      obtain ⟨rest, rfl, behind⟩ := Chain.some_iff.mp h
      have other : p ≠ r := fun same => off (same ▸ List.mem_cons_self)
      unfold PbufStore.freeWalk
      rw [freeNext_write other]
      cases step : s.freeNext p with
      | none => rfl
      | some result =>
        obtain ⟨t, c, next?⟩ := result
        obtain ⟨same, ahead⟩ := freeNext_next step
        rw [Option.map_some, Option.bind_some, Option.bind_some]
        rcases ahead with rfl | rfl
        · exact ih (.nil : Chain (counted t).next none []) List.not_mem_nil _
        · rw [← same] at behind ⊢
          exact ih behind (List.not_mem_of_not_mem_cons off) _

/-- The rest of a chain, once the pointer to it is cleared. -/
theorem counted_cleared {totLen len : BitVec 16} :
    counted (s.write r { s.pbufs r with next := none, totLen, len }) = (counted s).setNext r none :=
  counted_write_next rfl

theorem chain_cleared (h : Chain (counted s).next (some r) (r :: chain)) :
    Chain ((counted s).setNext r none).next ((counted s).next r) chain :=
  (Chain.cons_iff.mp h).2.congr fun b member => setNext_next_of_ne _ (by
    rintro rfl
    exact (List.nodup_cons.mp h.nodup).1 member) _

/-- What frees the rest of a chain after its pointer is cleared: the references stay exact. -/
theorem free_cleared (exact : Exact (counted s) held) (alive : r ∈ s.live) (step : (s.pbufs r).next = some next)
    (totLen len : BitVec 16) (housed : Housed (s.write r { s.pbufs r with next := none, totLen, len }) blocks) :
    ∃ t blocks' chain, (s.write r { s.pbufs r with next := none, totLen, len }).pbufFree next =
        some (t, .ofNat 8 (s.live.card - t.live.card)) ∧ Exact (counted t) held ∧ Housed t blocks' ∧
      Chain (counted s).next (some r) (r :: chain) ∧
      Lowered (s.write r { s.pbufs r with next := none, totLen, len }) t chain := by
  obtain ⟨whole, h⟩ := exact.ends r alive
  obtain ⟨chain, rfl, behind⟩ := Chain.some_iff.mp h
  have ahead := chain_cleared h
  have exact' := exact.unlink alive step
  rw [show (counted s).next r = some next from step, ← counted_cleared] at ahead
  rw [← counted_cleared] at exact'
  obtain ⟨t, blocks', returns, _, exact, housed, lowered⟩ := pbufFree_eq exact' housed ahead
  exact ⟨t, blocks', chain, returns, exact, housed, h, lowered⟩

/-- `pbuf_realloc` frees first and clears the pointer then, which comes to the same. -/
theorem cutOff_eq (exact : Exact (counted s) held) (housed : Housed s blocks) (alive : r ∈ s.live)
    (step : (s.pbufs r).next = some next) :
    s.cutOff r (some next) = ((s.write r { s.pbufs r with next := none }).pbufFree next).map Prod.fst := by
  obtain ⟨whole, h⟩ := exact.ends r alive
  obtain ⟨chain, rfl, behind⟩ := Chain.some_iff.mp h
  rw [show (counted s).next r = some next from step] at behind
  have off := (List.nodup_cons.mp h.nodup).1
  have cleared := freeWalk_write { s.pbufs r with next := none } behind off (s.live.card + 1) 0
  have same := freeWalk_write (s.pbufs r) behind off (s.live.card + 1) 0
  obtain ⟨t', blocks', _, returns, _, _, h', lowered⟩ := free_cleared exact alive step (s.pbufs r).totLen
    (s.pbufs r).len (housed.write rfl (housed.inside r))
  have walks : (s.write r { s.pbufs r with next := none }).freeWalk (s.live.card + 1) (some next) 0 = some (t', _) :=
    returns
  have stays := (lowered.off r (List.nodup_cons.mp h'.nodup).1).2 alive
  rw [write_read] at same
  rw [cleared] at walks
  obtain ⟨⟨t, _⟩, free, result⟩ := Option.map_eq_some_iff.mp walks
  cases result
  rw [free, Option.map_some, Option.some_inj, Prod.mk.injEq] at same
  have there : t.pbufs r = s.pbufs r := by
    rw [same.1]
    exact write_self
  have alive : r ∈ t.live := stays
  change Option.bind (s.pbufFree next) _ = _
  rw [returns, show s.pbufFree next = some (t, _) from free, Option.bind_some]
  simp only
  rw [read_eq alive, there]
  rfl

/-- `pbuf_dechain` of a pbuf with a successor. -/
theorem pbufDechain_eq (exact : Exact (counted s) held) (housed : Housed s blocks) (alive : p ∈ s.live)
    (step : (s.pbufs p).next = some q) (sums : ((s.pbufs q).totLen.toNat : ℤ) =
      (s.pbufs p).totLen.toNat - (s.pbufs p).len.toNat) :
    ∃ t blocks' chain, s.pbufDechain p = some (t, if 0 < BitVec.ofNat 8 (s.live.card - t.live.card) then none
      else some q) ∧
      Exact (counted t) held ∧ Housed t blocks' ∧ Chain (counted s).next (some p) (p :: chain) ∧
      Lowered (s.write p { s.pbufs p with next := none, totLen := (s.pbufs p).len }) t chain := by
  have tail : q ∈ s.live := exact.closed p alive q step
  have totLen : (s.pbufs p).totLen - (s.pbufs p).len = (s.pbufs q).totLen := by bv_omega
  obtain ⟨t, blocks', chain, returns, exact, housed, h, lowered⟩ := free_cleared exact alive step (s.pbufs p).len
    (s.pbufs p).len (housed.write rfl (housed.inside p))
  refine ⟨t, blocks', chain, ?_, exact, housed, h, lowered⟩
  unfold PbufStore.pbufDechain
  rw [read_eq alive, Option.bind_some]
  simp only [step]
  rw [read_eq tail, Option.bind_some, if_pos sums, totLen, write_read]
  exact Option.map_eq_some_iff.mpr ⟨_, returns, rfl⟩

/-- The last pbuf of a chain has nothing to give up. -/
theorem pbufDechain_last (alive : p ∈ s.live) (step : (s.pbufs p).next = none) :
    s.pbufDechain p = if (s.pbufs p).totLen = (s.pbufs p).len then some (s, none) else none := by
  unfold PbufStore.pbufDechain
  rw [read_eq alive, Option.bind_some]
  simp only [step]

/-- Where the tail has another length than the assertion expects, the system stands still. -/
theorem pbufDechain_none (alive : p ∈ s.live) (tail : q ∈ s.live) (step : (s.pbufs p).next = some q)
    (wrong : ((s.pbufs q).totLen.toNat : ℤ) ≠ (s.pbufs p).totLen.toNat - (s.pbufs p).len.toNat) :
    s.pbufDechain p = none := by
  unfold PbufStore.pbufDechain
  rw [read_eq alive, Option.bind_some]
  simp only [step]
  rw [read_eq tail, Option.bind_some, if_neg wrong]

end Cut

/-- The bytes that some pbufs hold. -/
def lens (s : PbufStore) (chain : List PbufAddr) : ℕ := (chain.map fun q => (s.pbufs q).len.toNat).sum

section Shrink

variable {s : PbufStore} {blocks : List Allocation} {p q r : PbufAddr} {chain front back : List PbufAddr}
  {held : Multiset PbufAddr} {grow remLen rem : BitVec 16}

@[simp] theorem lens_nil : lens s [] = 0 := rfl

@[simp] theorem lens_cons : lens s (p :: chain) = (s.pbufs p).len.toNat + lens s chain := List.sum_cons

theorem lens_write_totLen (totLen : BitVec 16) : lens (s.write p { s.pbufs p with totLen }) chain = lens s chain := by
  unfold lens
  congr 1
  refine List.map_congr_left fun q _ => ?_
  rcases eq_or_ne q p with rfl | other
  · rw [write_self]
  · rw [write_of_ne other]

theorem write_totLen_len (totLen : BitVec 16) (q : PbufAddr) :
    ((s.write p { s.pbufs p with totLen }).pbufs q).len = (s.pbufs q).len := by
  rcases eq_or_ne q p with rfl | other
  · rw [write_self]
  · rw [write_of_ne other]

theorem reallocWalk_step {fuel : ℕ} (alive : p ∈ s.live) (step : (s.pbufs p).next = some q)
    (more : (s.pbufs p).len < remLen) : s.reallocWalk grow (fuel + 1) p remLen =
      (s.write p { s.pbufs p with totLen := (s.pbufs p).totLen + grow }).reallocWalk grow fuel q
        (remLen - (s.pbufs p).len) := by
  conv_lhs => unfold PbufStore.reallocWalk
  rw [read_eq alive, Option.bind_some, if_pos more]
  exact congrArg (Option.bind · _) step

/-- The loop of `pbuf_realloc` comes to the pbuf that holds the last byte, or runs out of the chain. -/
theorem reallocWalk_eq (h : Chain (counted s).next (some q) chain) (alive : ∀ a ∈ chain, a ∈ s.live)
    (grow remLen : BitVec 16) (extra : ℕ) : (∃ front r back rem, chain = front ++ r :: back ∧
      s.reallocWalk grow (chain.length + extra) q remLen = some (lengthened s grow front, r, rem) ∧
      rem ≤ (s.pbufs r).len ∧ rem.toNat + lens s front = remLen.toNat) ∨
    (s.reallocWalk grow (chain.length + extra) q remLen = none ∧ lens s chain < remLen.toNat) := by
  induction chain generalizing s q remLen with
  | nil => cases h
  | cons a rest ih =>
    obtain ⟨same, behind⟩ := Chain.cons_iff.mp h
    cases same
    have here := alive a List.mem_cons_self
    have fresh := (List.nodup_cons.mp h.nodup).1
    rw [List.length_cons, Nat.add_right_comm]
    by_cases more : (s.pbufs a).len < remLen
    · have less : (remLen - (s.pbufs a).len).toNat + (s.pbufs a).len.toNat = remLen.toNat := by
        have := BitVec.lt_def.mp more
        bv_omega
      cases step : (s.pbufs a).next with
      | none =>
        rw [show (counted s).next a = none from step] at behind
        cases behind
        refine .inr ⟨?_, ?_⟩
        · unfold PbufStore.reallocWalk
          rw [read_eq here, Option.bind_some, if_pos more]
          exact congrArg (Option.bind · _) step
        · rw [lens_cons, lens_nil, Nat.add_zero]
          exact BitVec.lt_def.mp more
      | some b =>
        have counts : counted (s.write a { s.pbufs a with totLen := (s.pbufs a).totLen + grow }) = counted s :=
          counted_write_same rfl rfl
        rw [show (counted s).next a = some b from step, ← counts] at behind
        rw [reallocWalk_step here step more]
        rcases ih behind (fun c member => alive c (List.mem_cons_of_mem a member))
          (remLen - (s.pbufs a).len) with ⟨front, r, back, rem, rfl, returns, small, total⟩ | ⟨returns, short⟩
        · refine .inl ⟨a :: front, r, back, rem, rfl, ?_, ?_, ?_⟩
          · rw [returns, lengthened_cons fun again => fresh (List.mem_append_left _ again)]
          · rwa [write_totLen_len] at small
          · rw [lens_write_totLen] at total
            rw [lens_cons]
            omega
        · refine .inr ⟨returns, ?_⟩
          rw [lens_write_totLen] at short
          rw [lens_cons]
          omega
    · unfold PbufStore.reallocWalk
      rw [read_eq here, Option.bind_some, if_neg more]
      exact .inl ⟨[], a, rest, remLen, rfl, by rw [lengthened_nil], BitVec.not_lt.mp more, Nat.add_zero _⟩

theorem blockSize_mono {one two : BitVec 16} (le : one.toNat ≤ two.toNat) (small : two.toNat ≤ 65532) :
    blockSize one ≤ blockSize two := by
  have aligned : ∀ n ≤ 65532, memSize (memAlignSize n) = (n + 3) / 4 * 4 := fun n bound => by
    unfold memSize memAlignSize memAlignment
    omega
  unfold blockSize minSizeAligned
  simp only [aligned _ small, aligned _ (le.trans small)]
  split_ifs <;> omega

/-- Fewer bytes stay inside. -/
theorem Inside.shorten {payload : ℤ} {len less : ℕ} (inside : Inside blocks payload len p) (le : less ≤ len) :
    Inside blocks payload less p := by
  cases p with
  | ram rmem => exact ⟨inside.1, fun a member here => by have := inside.2 a member here; omega⟩
  | pool _ => exact ⟨inside.1, by have := inside.2; omega⟩
  | ref _ => trivial

theorem mem_resize {rmem : ℕ} {newsize : BitVec 16} {b : Allocation} :
    b ∈ HeapUse.resize blocks rmem newsize ↔
      ∃ a ∈ blocks, b = if a.rmem = rmem then { a with size := newsize } else a := by
  unfold HeapUse.resize
  rw [List.mem_map]
  simp only [eq_comm]

theorem map_rmem_resize (rmem : ℕ) (newsize : BitVec 16) :
    (HeapUse.resize blocks rmem newsize).map Allocation.rmem = blocks.map Allocation.rmem := by
  unfold HeapUse.resize
  rw [List.map_map]
  refine List.map_congr_left fun a _ => ?_
  rw [Function.comp_apply]
  split <;> rfl

/-- `mem_trim` on a pbuf in RAM, whose block may lose what is behind the last byte that stays. -/
theorem trim_eq {rmem : ℕ} (housed : Housed s blocks) (alive : .ram rmem ∈ s.live)
    (small : rem ≤ (s.pbufs (.ram rmem)).len) :
    ∃ heap, s.trim (.ram rmem) (s.pbufs (.ram rmem)) rem = some ({ s with heap }, .ram rmem) ∧
      Housed (({ s with heap } : PbufStore).write (.ram rmem) { s.pbufs (.ram rmem) with len := rem, totLen := rem })
        (HeapUse.resize blocks rmem (BitVec.ofInt 16 (s.pbufs (.ram rmem)).payload + rem)) := by
  obtain ⟨tiles, sound⟩ := housed.heap
  have inside := housed.inside _ alive
  have there := (housed.granted rmem).mpr alive
  obtain ⟨a, member, here⟩ := List.mem_map.mp there
  have fits := inside.2 a member here
  have bound := housed.small a member
  have front := inside.1
  have less := BitVec.le_def.mp small
  have newsize : ((BitVec.ofInt 16 (s.pbufs (.ram rmem)).payload + rem).toNat : ℤ) =
      (s.pbufs (.ram rmem)).payload + rem.toNat := by
    rw [BitVec.toNat_add, BitVec.toNat_ofInt]
    unfold sizeofStructPbuf at front
    omega
  unfold PbufStore.trim
  generalize BitVec.ofInt 16 (s.pbufs (.ram rmem)).payload + rem = size at newsize ⊢
  obtain ⟨extent, _, enough, next⟩ := sound.block member
  have pointed := sound.pointer_mem member
  have smaller : blockSize size ≤ blockSize a.size := blockSize_mono (by omega) bound
  have place : rmem - sizeofStructMem = a.mem := by rw [← here]; rfl
  have small : rmem + blockSize size ≤ (s.heap.ram (rmem - sizeofStructMem)).next := by
    rw [place]
    unfold pointer at pointed
    unfold footprint at enough
    change (s.heap.ram a.mem).next = _ at next
    omega
  obtain ⟨heap, returns, sound'⟩ := sound.trim there small
  refine ⟨heap, ?_, ?_⟩
  · simp only
    rw [show s.heap.memTrim rmem size = _ from returns]
    rfl
  · refine ⟨⟨_, sound'⟩, fun b resized => ?_, fun other => ?_, housed.pool, housed.refs, fun q alive => ?_,
      fun q alive => ?_⟩
    · obtain ⟨a', member', rfl⟩ := mem_resize.mp resized
      split
      · change size.toNat ≤ 65532
        omega
      · exact housed.small a' member'
    · rw [map_rmem_resize]
      exact housed.granted other
    · rcases eq_or_ne q (.ram rmem) with rfl | other
      · rw [write_self]
        exact housed.suits _ alive
      · rw [write_of_ne other]
        exact housed.suits q alive
    · rcases eq_or_ne q (.ram rmem) with rfl | other
      · rw [write_self]
        refine ⟨front, fun b resized same => ?_⟩
        obtain ⟨a', member', rfl⟩ := mem_resize.mp resized
        split at same
        · next here =>
          rw [if_pos here]
          exact newsize.ge
        · contradiction
      · rw [write_of_ne other]
        have within := housed.inside q alive
        cases q with
        | ram elsewhere =>
          refine ⟨within.1, fun b resized same => ?_⟩
          obtain ⟨a', member', rfl⟩ := mem_resize.mp resized
          split at same
          · next here =>
            exact absurd (congrArg PbufAddr.ram (same.symm.trans here)) other
          · next apart =>
            rw [if_neg apart]
            exact within.2 a' member' same
        | pool _ => exact within
        | ref _ => trivial

/-- The new last pbuf, in RAM or elsewhere, with its block trimmed where it is in RAM. -/
theorem trimmed_eq (housed : Housed s blocks) (alive : r ∈ s.live) (small : rem ≤ (s.pbufs r).len) :
    ∃ heap blocks', (if (s.pbufs r).type = .ram ∧ rem ≠ (s.pbufs r).len then s.trim r (s.pbufs r) rem
      else some (s, r)) =
        some ({ s with heap }, r) ∧
      Housed (({ s with heap } : PbufStore).write r { s.pbufs r with len := rem, totLen := rem }) blocks' := by
  split
  · next inRam =>
    have suits := housed.suits r alive
    rw [inRam.1] at suits
    cases r with
    | ram rmem =>
      obtain ⟨heap, returns, housed⟩ := trim_eq housed alive small
      exact ⟨heap, _, returns, housed⟩
    | pool _ => contradiction
    | ref _ => rcases suits with same | same <;> contradiction
  · exact ⟨s.heap, blocks, rfl, housed.write rfl fun alive =>
      (housed.inside r alive).shorten (BitVec.le_def.mp small)⟩

/-- A chain whose new last pbuf is `r`, with `rem` bytes. -/
def cut (s : PbufStore) (grow : BitVec 16) (front : List PbufAddr) (r : PbufAddr) (rem : BitVec 16) : PbufStore :=
  (lengthened s grow front).write r { s.pbufs r with next := none, totLen := rem, len := rem }

theorem counted_congr {t : PbufStore} (live : t.live = s.live) (pbufs : t.pbufs = s.pbufs) : counted t = counted s := by
  unfold counted
  rw [live, pbufs]

/-- The rest of `pbuf_realloc`, behind its loop and the trim, which only changes the heap. -/
theorem cutOff_trimmed (base : PbufStore) (grow : BitVec 16) (exact : Exact (counted s) held)
    (h : Chain (counted s).next (some p) (front ++ r :: back)) (alive : r ∈ s.live) (live : base.live = s.live)
    (pbufs : base.pbufs = (lengthened s grow front).pbufs)
    (housed : Housed (base.write r { s.pbufs r with len := rem, totLen := rem }) blocks) :
    ∃ t blocks', (base.write r { s.pbufs r with len := rem, totLen := rem }).cutOff r (s.pbufs r).next = some t ∧
      Exact (counted t) held ∧ Housed t blocks' ∧ Lowered (cut s grow front r rem) t back := by
  have fresh : r ∉ front := fun again => (List.nodup_append.mp h.nodup).2.2 r again r List.mem_cons_self rfl
  have same : base.pbufs r = s.pbufs r := by rw [pbufs, lengthened_of_notMem fresh]
  have counts : counted (base.write r { s.pbufs r with len := rem, totLen := rem }) = counted s := by
    refine (counted_write_same (by rw [same]) (by rw [same])).trans ?_
    exact (counted_congr (s := lengthened s grow front) live pbufs).trans counted_lengthened
  have cleared : ((base.write r { s.pbufs r with len := rem, totLen := rem }).write r
      { s.pbufs r with next := none, totLen := rem, len := rem }).pbufs = (cut s grow front r rem).pbufs := by
    unfold cut PbufStore.write
    dsimp only
    rw [Function.update_idem, pbufs]
  generalize edited : base.write r { s.pbufs r with len := rem, totLen := rem } = u at housed counts cleared ⊢
  have here : u.pbufs r = { s.pbufs r with len := rem, totLen := rem } := edited ▸ write_self
  have live : u.live = s.live := congrArg Counted.live counts
  rw [← counts] at exact h
  rw [← live] at alive
  have again : { u.pbufs r with next := none } = { s.pbufs r with next := none, totLen := rem, len := rem } := by
    rw [here]
  cases step : (s.pbufs r).next with
  | none =>
    have ahead : (u.pbufs r).next = none := by rw [here, step]
    have ends : back = [] := by
      have behind := (Chain.cons_iff.mp h.suffix).2
      rw [show (counted u).next r = none from ahead] at behind
      cases behind
      rfl
    have unchanged : { u.pbufs r with next := none } = u.pbufs r := by rw [← ahead]
    have pbufs' : u.pbufs = (cut s grow front r rem).pbufs := by
      rw [← cleared, ← again, unchanged, write_read]
    refine ⟨u, blocks, ?_, exact, housed, ?_⟩
    · unfold PbufStore.cutOff
      simp only
      rw [read_eq alive, Option.map_some, unchanged, write_read]
    · exact (Lowered.refl u back).congr live.symm pbufs'.symm
  | some next =>
    have ahead : (u.pbufs r).next = some next := by rw [here, step]
    obtain ⟨t, blocks', chain, returns, exact', housed', h', lowered⟩ := free_cleared exact alive ahead rem rem
      (housed.write rfl (by
        rw [here]
        intro _
        have inside := housed.inside r alive
        rw [here] at inside
        exact inside))
    refine ⟨t, blocks', ?_, exact', housed', ?_⟩
    · rw [cutOff_eq exact housed alive ahead, again]
      rw [here] at returns
      exact Option.map_eq_some_iff.mpr ⟨_, returns, rfl⟩
    · have behind : back = chain := (Chain.cons_iff.mp h.suffix).2.unique (Chain.cons_iff.mp h').2
      rw [here] at lowered
      rw [behind]
      exact lowered.congr live.symm cleared.symm

/-- `pbuf_realloc` to fewer bytes: the chain ends with the pbuf that holds the last of them. It does not
return where the chain is shorter than its `tot_len` says. -/
theorem pbufRealloc_eq {newLen : BitVec 16} (exact : Exact (counted s) held) (housed : Housed s blocks)
    (alive : p ∈ s.live) (h : Chain (counted s).next (some p) chain) (shrinks : ¬ (s.pbufs p).totLen ≤ newLen) :
    (∃ front r back rem t blocks', chain = front ++ r :: back ∧ s.pbufRealloc p newLen = some t ∧
      rem ≤ (s.pbufs r).len ∧ rem.toNat + lens s front = newLen.toNat ∧ Exact (counted t) held ∧
        Housed t blocks' ∧
      Lowered (cut s (newLen - (s.pbufs p).totLen) front r rem) t back) ∨
    (s.pbufRealloc p newLen = none ∧ lens s chain < newLen.toNat) := by
  have inside := exact.chain_live h fun a same => Option.some_inj.mp same ▸ alive
  obtain ⟨extra, room⟩ := Nat.exists_eq_add_of_le (Nat.le_succ_of_le (exact.chain_length_le alive h))
  have fuel : s.live.card + 1 = chain.length + extra := room
  unfold PbufStore.pbufRealloc
  rw [read_eq alive, Option.bind_some, if_neg shrinks, fuel]
  rcases reallocWalk_eq h inside (newLen - (s.pbufs p).totLen) newLen extra with
    ⟨front, r, back, rem, rfl, walk, small, total⟩ | ⟨walk, short⟩
  · have there := inside r (by simp)
    have fresh : r ∉ front := fun again => (List.nodup_append.mp h.nodup).2.2 r again r List.mem_cons_self rfl
    have same : (lengthened s (newLen - (s.pbufs p).totLen) front).pbufs r = s.pbufs r := lengthened_of_notMem fresh
    have alive' : r ∈ (lengthened s (newLen - (s.pbufs p).totLen) front).live := there
    have longer : Housed (lengthened s (newLen - (s.pbufs p).totLen) front) blocks := housed.lengthened
    obtain ⟨heap, blocks', trims, housed⟩ := trimmed_eq longer alive' (by rwa [same])
    rw [same] at trims housed
    obtain ⟨t, blocks', cuts, exact, housed, lowered⟩ :=
      cutOff_trimmed { lengthened s (newLen - (s.pbufs p).totLen) front with heap } _ exact h there rfl rfl housed
    refine .inl ⟨front, r, back, rem, t, blocks', rfl, ?_, small, total, exact, housed, lowered⟩
    rw [walk, Option.bind_some]
    simp only
    rw [read_eq alive', same, Option.bind_some, trims, Option.bind_some]
    exact cuts
  · refine .inr ⟨?_, short⟩
    rw [walk]
    rfl

/-- The `tot_len` of a pbuf counts the bytes up to another one of its chain, and what is there. -/
theorem totLen_front (h : Chain (counted s).next (some p) (front ++ r :: back)) (adds : ∀ a ∈ front, Adds s a) :
    (s.pbufs p).totLen = .ofNat 16 (lens s front) + (s.pbufs r).totLen := by
  induction front generalizing p with
  | nil =>
    obtain ⟨same, _⟩ := Chain.cons_iff.mp h
    cases same
    rw [lens_nil]
    exact (BitVec.zero_add _).symm
  | cons a rest ih =>
    obtain ⟨same, behind⟩ := Chain.cons_iff.mp h
    cases same
    have here := adds a List.mem_cons_self
    unfold Adds at here
    cases step : (s.pbufs a).next with
    | none =>
      rw [show (counted s).next a = none from step] at behind
      cases rest <;> cases behind
    | some b =>
      rw [show (counted s).next a = some b from step] at behind
      rw [here, step, Option.elim_some, ih behind fun c member => adds c (List.mem_cons_of_mem a member), lens_cons,
        BitVec.ofNat_add, BitVec.ofNat_toNat, BitVec.setWidth_eq, BitVec.add_assoc]

@[simp] theorem lens_append : lens s (front ++ back) = lens s front + lens s back := by
  unfold lens
  rw [List.map_append, List.sum_append]

/-- A `tot_len` is the length of the chain, as far as a `u16_t` can say it. -/
theorem totLen_eq (h : Chain (counted s).next (some p) chain) (adds : ∀ a ∈ chain, Adds s a) :
    (s.pbufs p).totLen = .ofNat 16 (lens s chain) := by
  rcases List.eq_nil_or_concat chain with rfl | ⟨front, r, rfl⟩
  · cases h
  · rw [List.concat_eq_append] at *
    have last : (s.pbufs r).next = none := (h.last_iff (by simp)).mpr rfl
    have here := adds r (by simp)
    unfold Adds at here
    rw [totLen_front h fun a member => adds a (List.mem_append_left _ member), here, last, lens_append, lens_cons,
      lens_nil, BitVec.ofNat_add, Nat.add_zero, BitVec.ofNat_toNat, BitVec.setWidth_eq, Option.elim_none, add_zero]

theorem cut_self : (cut s grow front r rem).pbufs r = { s.pbufs r with next := none, totLen := rem, len := rem } :=
  write_self

theorem cut_front (member : p ∈ front) (other : p ≠ r) : (cut s grow front r rem).pbufs p =
    { s.pbufs p with totLen := (s.pbufs p).totLen + grow } := (write_of_ne other).trans (lengthened_of_mem member)

theorem cut_off (outside : p ∉ front) (other : p ≠ r) : (cut s grow front r rem).pbufs p = s.pbufs p :=
  (write_of_ne other).trans (lengthened_of_notMem outside)

/-- What is left of the chain. -/
theorem chain_cut (h : Chain (counted s).next (some p) (front ++ r :: back)) (grow rem : BitVec 16) :
    Chain (counted (cut s grow front r rem)).next (some p) (front ++ [r]) := by
  have nodup := List.nodup_append.mp h.nodup
  have fresh : r ∉ front := fun again => nodup.2.2 r again r List.mem_cons_self rfl
  have counts : counted (cut s grow front r rem) = (counted s).setNext r none := by
    unfold cut
    rw [counted_write_next (by rw [lengthened_of_notMem fresh]), counted_lengthened]
  rw [counts]
  refine h.replaceEnd (fun b member => setNext_next_of_ne _ ?_ _) ?_
  · rintro rfl
    exact fresh member
  · rw [setNext_next_self]
    exact .nil

theorem lens_cut (fresh : r ∉ front) : lens (cut s grow front r rem) (front ++ [r]) = lens s front + rem.toNat := by
  rw [lens_append, lens_cons, lens_nil, cut_self, Nat.add_zero]
  congr 1
  unfold lens
  congr 1
  refine List.map_congr_left fun q member => ?_
  rw [cut_front member (by rintro rfl; exact fresh member)]

theorem totLen_cut {newLen : BitVec 16} (h : Chain (counted s).next (some p) (front ++ r :: back)) (fresh : r ∉ front)
    (total : rem.toNat + lens s front = newLen.toNat) :
    ((cut s (newLen - (s.pbufs p).totLen) front r rem).pbufs p).totLen = newLen := by
  cases front with
  | nil =>
    obtain ⟨same, _⟩ := Chain.cons_iff.mp h
    cases same
    rw [cut_self]
    exact BitVec.eq_of_toNat_eq total
  | cons a rest =>
    obtain ⟨same, _⟩ := Chain.cons_iff.mp h
    cases same
    rw [cut_front List.mem_cons_self (List.ne_of_not_mem_cons fresh).symm]
    bv_omega

theorem Lowered.next {t : PbufStore} (lowered : Lowered s t chain) : (counted t).next = (counted s).next := by
  funext q
  obtain ⟨_, same⟩ := lowered.fields q
  change (t.pbufs q).next = (s.pbufs q).next
  rw [same]

theorem Lowered.lens {t : PbufStore} (lowered : Lowered s t chain) (some : List PbufAddr) :
    lens t some = lens s some := by
  unfold Soundness.lens
  congr 1
  refine List.map_congr_left fun q _ => ?_
  obtain ⟨_, same⟩ := lowered.fields q
  rw [same]

/-- The chain up to its new last pbuf adds up again. -/
theorem Lengths.cut {newLen : BitVec 16} (lengths : Lengths s) (exact : Exact (counted s) held) (alive : p ∈ s.live)
    (h : Chain (counted s).next (some p) (front ++ r :: back)) (unshared : Unshared s (front ++ r :: back))
    (total : rem.toNat + lens s front = newLen.toNat) :
    Lengths (cut s (newLen - (s.pbufs p).totLen) front r rem) := by
  have inside := exact.chain_live h fun a same => Option.some_inj.mp same ▸ alive
  have nodup := List.nodup_append.mp h.nodup
  have apart : ∀ a ∈ front, a ≠ r := fun a member => nodup.2.2 a member r List.mem_cons_self
  have here : rem = (s.pbufs r).totLen + (newLen - (s.pbufs p).totLen) := by
    have sum := totLen_front h fun a member => lengths a (inside a (List.mem_append_left _ member))
    have wanted : rem + .ofNat 16 (lens s front) = newLen := by
      have below := newLen.isLt
      apply BitVec.eq_of_toNat_eq
      rw [BitVec.toNat_add, BitVec.toNat_ofNat]
      omega
    rw [sum, ← wanted]
    bv_omega
  intro a alive
  have adds := lengths a alive
  unfold Adds at adds ⊢
  rcases eq_or_ne a r with rfl | other
  · rw [cut_self]
    exact (add_zero _).symm
  · by_cases early : a ∈ front
    · obtain ⟨before, behind, rfl⟩ := List.append_of_mem early
      rw [List.append_assoc, List.cons_append] at h
      have ahead := (Chain.cons_iff.mp h.suffix).2
      have next : ∃ b, (s.pbufs a).next = some b ∧ (b ∈ before ++ a :: behind ∨ b = r) := by
        cases behind with
        | nil => exact ⟨r, (Chain.cons_iff.mp ahead).1, .inr rfl⟩
        | cons b more => exact ⟨b, (Chain.cons_iff.mp ahead).1, .inl (by simp)⟩
      obtain ⟨b, step, near⟩ := next
      have more : ((Soundness.cut s (newLen - (s.pbufs p).totLen) (before ++ a :: behind) r rem).pbufs b).totLen =
          (s.pbufs b).totLen + (newLen - (s.pbufs p).totLen) := by
        rcases near with near | rfl
        · rw [cut_front near (apart b near)]
        · rw [cut_self, here]
      rw [step] at adds
      rw [cut_front early other, step, Option.elim_some, more, adds, Option.elim_some, add_assoc]
    · rw [cut_off early other]
      cases step : (s.pbufs a).next with
      | none =>
        rw [step] at adds
        exact adds
      | some b =>
        have off : b ∉ front ∧ b ≠ r := by
          by_contra! near
          have among : b ∈ front ++ [r] := by
            by_cases member : b ∈ front
            · exact List.mem_append_left _ member
            · simp [near member]
          have whole : b ∈ front ++ r :: back := by
            rcases List.mem_append.mp among with member | same
            · exact List.mem_append_left _ member
            · rw [List.mem_singleton.mp same]
              simp
          have late : a ∈ back := by
            have := unshared a alive b whole step
            simpa [early, other] using this
          have after : b ∈ back := (Chain.cons_iff.mp h.suffix).2.mem_of_next late step
          rcases List.mem_append.mp among with member | same
          · exact nodup.2.2 b member b (List.mem_cons_of_mem r after) rfl
          · exact (List.nodup_cons.mp nodup.2.1).1 (List.mem_singleton.mp same ▸ after)
        rw [step] at adds
        rw [Option.elim_some, cut_off off.1 off.2]
        exact adds

end Shrink

section Header

variable {s : PbufStore} {blocks : List Allocation} {p : PbufAddr} {held : Multiset PbufAddr}

/-- What `pbuf_header_impl` does where it succeeds. -/
def headed (s : PbufStore) (p : PbufAddr) (headerSizeIncrement : BitVec 16) : PbufStore :=
  s.write p { s.pbufs p with
    payload := (s.pbufs p).payload - headerSizeIncrement.toInt
    len := (s.pbufs p).len + headerSizeIncrement
    totLen := (s.pbufs p).totLen + headerSizeIncrement }

theorem counted_headed (inc : BitVec 16) : counted (headed s p inc) = counted s := counted_write_same rfl rfl

/-- Hiding and revealing headers moves the front of the payload and leaves its end. -/
theorem Housed.headed {inc : BitVec 16} (housed : Housed s blocks)
    (enough : inc.toInt < 0 → -inc.toInt ≤ (s.pbufs p).len.toNat)
    (front : (s.pbufs p).type = .ram ∨ (s.pbufs p).type = .pool →
      sizeofStructPbuf ≤ (s.pbufs p).payload - inc.toInt) : Housed (headed s p inc) blocks := by
  refine housed.write rfl fun alive => ?_
  have suits := housed.suits p alive
  have inside := housed.inside p alive
  have stays : ∀ top : ℕ, top < 2 ^ 16 → (s.pbufs p).payload + (s.pbufs p).len.toNat ≤ top →
      (sizeofStructPbuf : ℤ) ≤ (s.pbufs p).payload - inc.toInt →
      (s.pbufs p).payload - inc.toInt + ((s.pbufs p).len + inc).toNat ≤ top := by
    intro top small le before
    have below := (s.pbufs p).len.isLt
    have value := BitVec.toInt_eq_toNat_cond inc
    have bound := inc.isLt
    rw [BitVec.toNat_add]
    unfold sizeofStructPbuf at before
    split at value <;> omega
  cases p with
  | ram rmem =>
    have before := front (.inl suits)
    exact ⟨before, fun a member here => stays _ a.size.isLt (inside.2 a member here) before⟩
  | pool element =>
    have before := front (.inr suits)
    exact ⟨before, stays _ (by decide) inside.2 before⟩
  | ref _ => trivial

/-- `pbuf_header_impl` stands still, changes nothing, or moves the front of the payload. -/
theorem pbufHeaderImpl_eq (housed : Housed s blocks) (alive : p ∈ s.live) (inc : BitVec 16) (force : Bool) :
    (s.pbufHeaderImpl p inc force = none ∧ inc.toInt < 0 ∧ ((s.pbufs p).len.toNat : ℤ) < -inc.toInt) ∨
    ((inc.toInt < 0 → -inc.toInt ≤ (s.pbufs p).len.toNat) ∧ ∃ t failed,
      s.pbufHeaderImpl p inc force = some (t, failed) ∧ (t = s ∨ t = headed s p inc) ∧ Housed t blocks) := by
  unfold PbufStore.pbufHeaderImpl
  rw [read_eq alive, Option.bind_some]
  split
  · next zero =>
    subst zero
    exact .inr ⟨fun negative => absurd negative (by decide), s, false, rfl, .inl rfl, housed⟩
  · split
    · next short => exact .inl ⟨rfl, short.1, by omega⟩
    · next long =>
      have enough : inc.toInt < 0 → -inc.toInt ≤ (s.pbufs p).len.toNat := by
        intro negative
        by_contra! less
        exact long ⟨negative, by omega⟩
      refine .inr ⟨enough, ?_⟩
      have own : (s.pbufs p).type = .ram ∨ (s.pbufs p).type = .pool →
          ∃ t failed, (if (s.pbufs p).payload - inc.toInt < sizeofStructPbuf then (s, true)
            else (headed s p inc, false)) = (t, failed) ∧ (t = s ∨ t = headed s p inc) ∧ Housed t blocks := by
        intro _
        split
        · exact ⟨s, true, rfl, .inl rfl, housed⟩
        · next fits => exact ⟨_, false, rfl, .inr rfl, housed.headed enough fun _ => not_lt.mp fits⟩
      have other : ¬ ((s.pbufs p).type = .ram ∨ (s.pbufs p).type = .pool) →
          ∃ t failed, (if inc.toInt < 0 ∨ force then (headed s p inc, false) else (s, true)) = (t, failed) ∧
            (t = s ∨ t = headed s p inc) ∧ Housed t blocks := by
        intro outside
        split
        · exact ⟨_, false, rfl, .inr rfl, housed.headed enough fun type => absurd type outside⟩
        · exact ⟨s, true, rfl, .inl rfl, housed⟩
      dsimp only
      split
      · next type =>
        obtain ⟨t, failed, returns, rest⟩ := own (.inl type)
        exact ⟨t, failed, congrArg some returns, rest⟩
      · next type =>
        obtain ⟨t, failed, returns, rest⟩ := own (.inr type)
        exact ⟨t, failed, congrArg some returns, rest⟩
      · next type =>
        obtain ⟨t, failed, returns, rest⟩ := other (by simp [type])
        exact ⟨t, failed, congrArg some returns, rest⟩
      · next type =>
        obtain ⟨t, failed, returns, rest⟩ := other (by simp [type])
        exact ⟨t, failed, congrArg some returns, rest⟩

/-- Where `pbuf_header_impl` succeeds. -/
theorem pbufHeaderImpl_moves (alive : p ∈ s.live) {inc : BitVec 16} {force : Bool} (moves : inc ≠ 0)
    (enough : inc.toInt < 0 → -inc.toInt ≤ (s.pbufs p).len.toNat)
    (front : (s.pbufs p).type = .ram ∨ (s.pbufs p).type = .pool →
      sizeofStructPbuf ≤ (s.pbufs p).payload - inc.toInt)
    (outside : (s.pbufs p).type = .ref ∨ (s.pbufs p).type = .rom → inc.toInt < 0 ∨ force) :
    s.pbufHeaderImpl p inc force = some (headed s p inc, false) := by
  rw [PbufStore.pbufHeaderImpl, read_eq alive, Option.bind_some, if_neg moves,
    if_neg fun short => short.2 (enough short.1)]
  dsimp only
  split
  · next type => rw [if_neg (not_lt.mpr (front (.inl type)))]; rfl
  · next type => rw [if_neg (not_lt.mpr (front (.inr type)))]; rfl
  · next type => rw [if_pos (outside (.inl type))]; rfl
  · next type => rw [if_pos (outside (.inr type))]; rfl

/-- Headers of one size hidden and shown again. -/
theorem headed_headed {inc back : BitVec 16} (opposite : back.toInt = -inc.toInt) (sum : inc + back = 0) :
    headed (headed s p inc) p back = s := by
  have payload : (s.pbufs p).payload - inc.toInt - back.toInt = (s.pbufs p).payload := by omega
  have same : headed (headed s p inc) p back = (headed s p inc).write p (s.pbufs p) := by
    rw [headed, show (headed s p inc).pbufs p = _ from write_self]
    simp only [payload, add_assoc, sum, add_zero]
  rw [same, headed, write_write, write_read]

theorem Lengths.headed {inc : BitVec 16} (lengths : Lengths s) (exact : Exact (counted s) held) (alive : p ∈ s.live)
    (unshared : Unshared s [p]) : Lengths (headed s p inc) := by
  refine lengths.write unshared ?_
  have adds := lengths p alive
  unfold Adds at adds
  dsimp only
  cases step : (s.pbufs p).next with
  | none =>
    rw [step, Option.elim_none, add_zero] at adds
    rw [adds, Option.elim_none, add_zero]
  | some q =>
    have other : q ≠ p := by
      rintro rfl
      obtain ⟨chain, h⟩ := exact.ends q alive
      obtain ⟨rest, rfl, behind⟩ := Chain.some_iff.mp h
      rw [show (counted s).next q = some q from step] at behind
      exact (List.nodup_cons.mp h.nodup).1 behind.head_mem
    rw [step, Option.elim_some] at adds
    rw [adds, Option.elim_some, write_of_ne other, add_right_comm]

/-- The data of somebody else, as a single pbuf. -/
theorem refer_eq (alive : p ∈ s.live) (dataptr : ℤ) (size : BitVec 16) : s.refer p dataptr size =
    some (s.write p { s.pbufs p with payload := dataptr, len := size, totLen := size }) := by
  unfold PbufStore.refer
  rw [read_eq alive, Option.map_some]

theorem Housed.refer {dataptr : ℤ} {size : BitVec 16} (housed : Housed s blocks)
    (outside : (s.pbufs p).type = .ref ∨ (s.pbufs p).type = .rom) :
    Housed (s.write p { s.pbufs p with payload := dataptr, len := size, totLen := size }) blocks := by
  refine housed.write rfl fun alive => ?_
  have suits := housed.suits p alive
  cases p with
  | ref _ => trivial
  | ram _ => rcases outside with type | type <;> exact absurd (type.symm.trans suits) (by decide)
  | pool _ => rcases outside with type | type <;> exact absurd (type.symm.trans suits) (by decide)

end Header

end WirelessSpeakers.Soundness
