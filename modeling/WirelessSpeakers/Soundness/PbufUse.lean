import WirelessSpeakers.Soundness.PbufChains

/-! # What the users of the pbufs may rely on

Every `ref` is the number of pointers to its pbuf, over all orders of calls and of the iterations of
concurrent `pbuf_free` loops. So no loop comes to memory that was given back, every pbuf stays while
somebody can reach it, and all memory is back once nobody holds a reference. Where callers alter only
chains that they do not share, `tot_len` stays what its invariant says.
-/

namespace WirelessSpeakers.Soundness

open Model Counted

/-- The references of the clients and of the loops under way are those that the counts allow for. -/
structure Coherent (s : PbufUse) : Prop where
  exact : Exact (counted s.store) (s.handles + s.walks)
  housed : ∃ blocks, Housed s.store blocks

/-- The call alters only pbufs that no others point to. -/
def Tidy (s : PbufStore) : PbufCall → Prop
  | .cat h _ => Unshared s (s.chain h)
  | .chain h _ => Unshared s (s.chain h)
  | .realloc p _ => Unshared s (s.chain p)
  | .dechain p => Unshared s [p]
  | .header p _ _ => Unshared s [p]
  | .refer p _ _ => Unshared s [p] ∧ (s.pbufs p).next = none
  | _ => True

instance (s : PbufStore) (some : List PbufAddr) : Decidable (Unshared s some) :=
  inferInstanceAs (Decidable (∀ q ∈ s.live, ∀ a ∈ some, (s.pbufs q).next = a → q ∈ some))

instance (s : PbufStore) : DecidablePred (Tidy s)
  | .cat h _ => inferInstanceAs (Decidable (Unshared s (s.chain h)))
  | .chain h _ => inferInstanceAs (Decidable (Unshared s (s.chain h)))
  | .realloc p _ => inferInstanceAs (Decidable (Unshared s (s.chain p)))
  | .dechain p => inferInstanceAs (Decidable (Unshared s [p]))
  | .header p _ _ => inferInstanceAs (Decidable (Unshared s [p]))
  | .refer p _ _ => inferInstanceAs (Decidable (Unshared s [p] ∧ (s.pbufs p).next = none))
  | .alloc _ _ _ => instDecidableTrue
  | .free _ => instDecidableTrue
  | .iterate _ => instDecidableTrue
  | .ref _ => instDecidableTrue

section Step

variable {s t : PbufUse} {p h tail : PbufAddr}

theorem chainFrom_eq {s : PbufStore} {p? : Option PbufAddr} {chain : List PbufAddr}
    (h : Chain (counted s).next p? chain)
    {fuel : ℕ} (enough : chain.length ≤ fuel) : s.chainFrom fuel p? = chain := by
  induction h generalizing fuel with
  | nil => cases fuel <;> rfl
  | @cons a rest _ ih =>
    cases fuel with
    | zero => simp at enough
    | succ fuel => exact congrArg (a :: ·) (ih (Nat.le_of_succ_le_succ enough))

theorem Coherent.chain (coherent : Coherent s) (alive : p ∈ s.store.live) :
    Chain (counted s.store).next (some p) (s.store.chain p) := by
  obtain ⟨chain, h⟩ := coherent.exact.ends p alive
  have same : s.store.chain p = chain := chainFrom_eq h (coherent.exact.chain_length_le alive h)
  rwa [same]

/-- Two chains that a caller may put behind each other. -/
theorem Coherent.apart (coherent : Coherent s) (head : h ∈ s.store.live) (alive : tail ∈ s.store.live)
    (apart : ∀ a ∈ s.store.chain h, a ∉ s.store.chain tail) :
    ∃ front last, s.store.chain h = front ++ [last] ∧ Apart s.store h tail front last (s.store.chain tail) := by
  have chain := coherent.chain head
  rcases List.eq_nil_or_concat (s.store.chain h) with none | ⟨front, last, same⟩
  · rw [none] at chain
    cases chain
  · rw [List.concat_eq_append] at same
    rw [same] at chain apart
    exact ⟨front, last, same, chain, coherent.chain alive, apart⟩

theorem Coherent.owned (coherent : Coherent s) (member : p ∈ s.handles) : p ∈ s.store.live :=
  coherent.exact.owned p (Multiset.mem_add.mpr (.inl member))

theorem Coherent.erase (coherent : Coherent s) (member : p ∈ s.handles) :
    Exact (counted s.store) (p ::ₘ (s.handles.erase p + s.walks)) := by
  rw [← Multiset.cons_add, Multiset.cons_erase member]
  exact coherent.exact

theorem initial_coherent : Coherent {} where
  exact := by
    refine ⟨?_, ?_, ?_, ?_, ?_⟩
    · simp [counted]
    · simp [counted]
    · simp [counted]
    · simp
    · simp [counted]
  housed := ⟨_, initial_housed⟩

theorem Coherent.alloc (coherent : Coherent s) {layer : PbufLayer} {length : BitVec 16} {type : PbufType}
    (step : pbufUse.step s (.alloc layer length type) = some t) :
    Coherent t ∧ (Lengths s.store → Lengths t.store) := by
  obtain ⟨blocks, housed⟩ := coherent.housed
  obtain ⟨store, p?, returns, granted⟩ := pbufAlloc_eq coherent.exact housed layer length type
  simp only [pbufUse, PbufUse.step, returns, Option.map_some, Option.some_inj] at step
  subst step
  obtain ⟨chain, _, grown, _⟩ := granted.grown
  refine ⟨⟨?_, granted.housed⟩, fun lengths => lengths.grown coherent.exact grown⟩
  rw [add_assoc]
  exact granted.exact

theorem Coherent.free (coherent : Coherent s) (step : pbufUse.step s (.free p) = some t) :
    Coherent t ∧ (Lengths s.store → Lengths t.store) := by
  simp only [pbufUse, PbufUse.step] at step
  split at step
  · next member =>
    cases step
    refine ⟨⟨?_, coherent.housed⟩, id⟩
    rw [Multiset.add_cons]
    exact coherent.erase member
  · contradiction

theorem Coherent.iterate (coherent : Coherent s) (step : pbufUse.step s (.iterate p) = some t) :
    Coherent t ∧ (Lengths s.store → Lengths t.store) := by
  simp only [pbufUse, PbufUse.step] at step
  split at step
  · next member =>
    obtain ⟨blocks, housed⟩ := coherent.housed
    have exact : Exact (counted s.store) (p ::ₘ (s.handles + s.walks.erase p)) := by
      rw [← Multiset.add_cons, Multiset.cons_erase member]
      exact coherent.exact
    have alive : p ∈ s.store.live := exact.owned p (Multiset.mem_cons_self _ _)
    have positive := ref_ne_zero exact alive
    rcases eq_or_ne (s.store.pbufs p).ref 1 with last | more
    · obtain ⟨freed, blocks', returns, gone, housed', lowered⟩ := freeNext_last housed alive last
      rw [returns] at step
      cases step
      refine ⟨⟨?_, _, housed'⟩, fun lengths => lengths.lowered lowered⟩
      rw [add_left_comm, gone]
      exact exact.discard (count_eq_one_iff.mpr last)
    · rw [freeNext_more alive positive more] at step
      cases step
      have counts : counted (s.store.write p { s.store.pbufs p with ref := (s.store.pbufs p).ref - 1 }) =
          (counted s.store).lower p := counted_write_lower rfl rfl positive
      have less := counts ▸ exact.lower fun one => more (count_eq_one_iff.mp one)
      refine ⟨⟨?_, blocks, housed.write rfl (housed.inside p)⟩, fun lengths =>
        lengths.lowered (lowered_write _ p _)⟩
      change Exact _ (s.handles + (pointee none + s.walks.erase p))
      rwa [pointee_none_add]
  · contradiction

theorem Coherent.ref (coherent : Coherent s) (step : pbufUse.step s (.ref p) = some t) :
    Coherent t ∧ (Lengths s.store → Lengths t.store) := by
  simp only [pbufUse, PbufUse.step] at step
  split at step
  · next alive =>
    obtain ⟨blocks, housed⟩ := coherent.housed
    rw [pbufRef_eq alive] at step
    split at step
    · contradiction
    · next small =>
      cases step
      have counts : counted (s.store.write p { s.store.pbufs p with ref := (s.store.pbufs p).ref + 1 }) =
          (counted s.store).raise p := counted_write_raise rfl rfl small
      have more := counts ▸ coherent.exact.raise alive
      refine ⟨⟨?_, blocks, housed.write rfl (housed.inside p)⟩, fun lengths => lengths.write_ref _⟩
      change Exact _ (p ::ₘ s.handles + s.walks)
      rwa [Multiset.cons_add]
  · contradiction

theorem Coherent.cat (coherent : Coherent s) (step : pbufUse.step s (.cat h tail) = some t) :
    Coherent t ∧ (Lengths s.store → Unshared s.store (s.store.chain h) → Lengths t.store) := by
  simp only [pbufUse, PbufUse.step] at step
  split at step
  · next guard =>
    obtain ⟨head, member, apart⟩ := guard
    have alive := coherent.owned member
    obtain ⟨blocks, housed⟩ := coherent.housed
    obtain ⟨front, last, whole, chains⟩ := coherent.apart head alive apart
    rw [pbufCat_eq coherent.exact chains head alive] at step
    split at step
    · cases step
      refine ⟨⟨?_, blocks, housed.joined chains.fresh⟩, fun lengths unshared => ?_⟩
      · exact Exact.joined (coherent.erase member) chains head
      · rw [whole] at unshared
        exact lengths.joined coherent.exact chains head unshared
    · contradiction
  · contradiction

theorem Coherent.chain_step (coherent : Coherent s) (step : pbufUse.step s (.chain h tail) = some t) :
    Coherent t ∧ (Lengths s.store → Unshared s.store (s.store.chain h) → Lengths t.store) := by
  simp only [pbufUse, PbufUse.step] at step
  split at step
  · next guard =>
    obtain ⟨head, alive, apart⟩ := guard
    obtain ⟨blocks, housed⟩ := coherent.housed
    obtain ⟨front, last, whole, chains⟩ := coherent.apart head alive apart
    unfold PbufStore.pbufChain at step
    rw [pbufCat_eq coherent.exact chains head alive] at step
    split at step
    · have same : (joined s.store tail front last).pbufs tail = s.store.pbufs tail := joined_off chains.tail_notMem
      rw [Option.bind_some, pbufRef_eq (show tail ∈ (joined s.store tail front last).live from alive)] at step
      split at step
      · contradiction
      · next small =>
        rw [same] at small
        cases step
        refine ⟨⟨Exact.joined_raise coherent.exact chains head alive small, blocks, ?_⟩, fun lengths unshared =>
          ?_⟩
        · exact (housed.joined chains.fresh).write rfl ((housed.joined chains.fresh).inside tail)
        · rw [whole] at unshared
          exact (lengths.joined coherent.exact chains head unshared).write_ref _
    · contradiction
  · contradiction

theorem Coherent.dechain (coherent : Coherent s) (step : pbufUse.step s (.dechain p) = some t) :
    Coherent t ∧ (Lengths s.store → Unshared s.store [p] → Lengths t.store) := by
  simp only [pbufUse, PbufUse.step] at step
  split at step
  · next alive =>
    obtain ⟨blocks, housed⟩ := coherent.housed
    cases next : (s.store.pbufs p).next with
    | none =>
      rw [pbufDechain_last alive next] at step
      split at step
      · cases step
        exact ⟨⟨coherent.exact, blocks, housed⟩, fun lengths _ => lengths⟩
      · contradiction
    | some q =>
      by_cases sums : ((s.store.pbufs q).totLen.toNat : ℤ) =
          (s.store.pbufs p).totLen.toNat - (s.store.pbufs p).len.toNat
      · obtain ⟨u, blocks', chain, returns, exact, housed, _, lowered⟩ :=
          pbufDechain_eq coherent.exact housed alive next sums
        rw [returns] at step
        cases step
        refine ⟨⟨exact, blocks', housed⟩, fun lengths unshared => Lengths.lowered ?_ lowered⟩
        exact lengths.write unshared (add_zero _).symm
      · rw [pbufDechain_none alive (coherent.exact.closed p alive q next) next sums] at step
        contradiction
  · contradiction

theorem Coherent.realloc (coherent : Coherent s) {newLen : BitVec 16}
    (step : pbufUse.step s (.realloc p newLen) = some t) :
    Coherent t ∧ (Lengths s.store → Unshared s.store (s.store.chain p) → Lengths t.store) := by
  simp only [pbufUse, PbufUse.step] at step
  split at step
  · next alive =>
    obtain ⟨blocks, housed⟩ := coherent.housed
    by_cases shrinks : (s.store.pbufs p).totLen ≤ newLen
    · unfold PbufStore.pbufRealloc at step
      rw [read_eq alive, Option.bind_some, if_pos shrinks] at step
      cases step
      exact ⟨⟨coherent.exact, blocks, housed⟩, fun lengths _ => lengths⟩
    · have chain := coherent.chain alive
      rcases pbufRealloc_eq coherent.exact housed alive chain shrinks with
        ⟨front, r, back, rem, u, blocks', whole, returns, _, total, exact, housed, lowered⟩ | ⟨none, _⟩
      · rw [returns] at step
        cases step
        refine ⟨⟨exact, blocks', housed⟩, fun lengths unshared => Lengths.lowered ?_ lowered⟩
        rw [whole] at chain unshared
        exact lengths.cut coherent.exact alive chain unshared total
      · rw [none] at step
        contradiction
  · contradiction

theorem Coherent.header (coherent : Coherent s) {inc : BitVec 16} {force : Bool}
    (step : pbufUse.step s (.header p inc force) = some t) :
    Coherent t ∧ (Lengths s.store → Unshared s.store [p] → Lengths t.store) := by
  simp only [pbufUse, PbufUse.step] at step
  split at step
  · next alive =>
    obtain ⟨blocks, housed⟩ := coherent.housed
    rcases pbufHeaderImpl_eq housed alive inc force with ⟨none, _⟩ | ⟨_, u, failed, returns,
      same | same, housed'⟩
    · rw [none] at step
      contradiction
    · rw [returns] at step
      cases step
      subst same
      exact ⟨⟨coherent.exact, blocks, housed⟩, fun lengths _ => lengths⟩
    · rw [returns] at step
      cases step
      refine ⟨⟨?_, blocks, housed'⟩, fun lengths unshared => ?_⟩
      · change Exact (counted u) _
        rw [same, counted_headed]
        exact coherent.exact
      · change Lengths u
        rw [same]
        exact lengths.headed coherent.exact alive unshared
  · contradiction

theorem Coherent.refer (coherent : Coherent s) {dataptr : ℤ} {size : BitVec 16}
    (step : pbufUse.step s (.refer p dataptr size) = some t) :
    Coherent t ∧ (Lengths s.store → Unshared s.store [p] → (s.store.pbufs p).next = none →
      Lengths t.store) := by
  simp only [pbufUse, PbufUse.step] at step
  split at step
  · next guard =>
    obtain ⟨alive, outside⟩ := guard
    obtain ⟨blocks, housed⟩ := coherent.housed
    rw [refer_eq alive] at step
    cases step
    refine ⟨⟨?_, blocks, housed.refer outside⟩, fun lengths unshared last => lengths.write unshared ?_⟩
    · have counts : counted (s.store.write p
          { s.store.pbufs p with payload := dataptr, len := size, totLen := size }) =
          counted s.store := counted_write_same rfl rfl
      exact counts ▸ coherent.exact
    · change size = size + (s.store.pbufs p).next.elim 0 _
      rw [last]
      exact (add_zero size).symm
  · contradiction

/-- What one step keeps. -/
theorem Coherent.step (coherent : Coherent s) {e : PbufCall} (step : pbufUse.step s e = some t) :
    Coherent t ∧ (Lengths s.store → Tidy s.store e → Lengths t.store) := by
  cases e with
  | alloc layer length type => exact (coherent.alloc step).imp_right fun keeps lengths _ => keeps lengths
  | free p => exact (coherent.free step).imp_right fun keeps lengths _ => keeps lengths
  | iterate p => exact (coherent.iterate step).imp_right fun keeps lengths _ => keeps lengths
  | ref p => exact (coherent.ref step).imp_right fun keeps lengths _ => keeps lengths
  | cat h tail => exact coherent.cat step
  | chain h tail => exact coherent.chain_step step
  | dechain p => exact coherent.dechain step
  | realloc p newLen => exact coherent.realloc step
  | header p inc force => exact coherent.header step
  | refer p dataptr size =>
    exact (coherent.refer step).imp_right fun keeps lengths tidy => keeps lengths tidy.1 tidy.2

end Step

theorem reachable_coherent {s : PbufUse} (reachable : pbufUse.Reachable s) : Coherent s :=
  TapeMachine.invariant initial_coherent (fun _ _ _ _ coherent step => (coherent.step step).1) reachable

/-- Only pbufs that no others point to are altered, in a whole run. -/
def TidyRun (tape : List PbufCall) : Prop := ∀ s e, pbufUse.Takes tape s e → Tidy s.store e

theorem run_lengths {tape : List PbufCall} {s : PbufUse} (tidy : TidyRun tape) (visit : pbufUse.Visits tape s) :
    Coherent s ∧ Lengths s.store := by
  refine TapeMachine.along (P := fun s => Coherent s ∧ Lengths s.store) ⟨initial_coherent, fun p alive => ?_⟩ ?_
    visit
  · exact absurd alive (Finset.notMem_empty p)
  · rintro s e t ⟨coherent, lengths⟩ taken step
    have kept := coherent.step step
    exact ⟨kept.1, kept.2 lengths (tidy s e taken)⟩

/-- The assertion of `pbuf_cat` about the last pbuf of a chain. -/
def EndsEven (s : PbufStore) (h : PbufAddr) : Prop :=
  ∀ a ∈ s.chain h, (s.pbufs a).next = none → (s.pbufs a).totLen = (s.pbufs a).len

theorem isSome_guarded {α β : Type*} {guard : Prop} [Decidable guard] {result : Option α} {f : α → β} :
    (if guard then result.map f else none).isSome ↔ guard ∧ result.isSome := by
  split <;> simp [*]

section Returns

variable {s : PbufUse} {p h tail : PbufAddr}

theorem pbufRef_isSome (alive : p ∈ s.store.live) :
    (s.store.pbufRef p).isSome ↔ (s.store.pbufs p).ref + 1 ≠ 0 := by
  rw [pbufRef_eq alive]
  split
  · next wraps => exact iff_of_false Bool.false_ne_true (not_not.mpr wraps)
  · next small => exact iff_of_true rfl small

/-- The end of a chain that something is put behind. -/
theorem Coherent.endsEven_iff (coherent : Coherent s) (head : h ∈ s.store.live) (alive : tail ∈ s.store.live)
    (apart : ∀ a ∈ s.store.chain h, a ∉ s.store.chain tail) :
    ∃ front last, Apart s.store h tail front last (s.store.chain tail) ∧
      (EndsEven s.store h ↔ (s.store.pbufs last).totLen = (s.store.pbufs last).len) := by
  obtain ⟨front, last, whole, chains⟩ := coherent.apart head alive apart
  refine ⟨front, last, chains, ?_⟩
  unfold EndsEven
  rw [whole]
  constructor
  · intro all
    exact all last (by simp) ((chains.head.last_iff (by simp)).mpr rfl)
  · intro same a member ends
    rw [(chains.head.last_iff member).mp ends]
    exact same

theorem Coherent.pbufCat_isSome (coherent : Coherent s) (head : h ∈ s.store.live) (alive : tail ∈ s.store.live)
    (apart : ∀ a ∈ s.store.chain h, a ∉ s.store.chain tail) : (s.store.pbufCat h tail).isSome ↔
      EndsEven s.store h := by
  obtain ⟨front, last, chains, even⟩ := coherent.endsEven_iff head alive apart
  rw [pbufCat_eq coherent.exact chains head alive, even]
  split <;> simp [*]

theorem Coherent.pbufChain_isSome (coherent : Coherent s) (head : h ∈ s.store.live) (alive : tail ∈ s.store.live)
    (apart : ∀ a ∈ s.store.chain h, a ∉ s.store.chain tail) :
    (s.store.pbufChain h tail).isSome ↔ EndsEven s.store h ∧ (s.store.pbufs tail).ref + 1 ≠ 0 := by
  obtain ⟨front, last, chains, even⟩ := coherent.endsEven_iff head alive apart
  unfold PbufStore.pbufChain
  rw [pbufCat_eq coherent.exact chains head alive, even]
  split
  · next same =>
    have live : tail ∈ (joined s.store tail front last).live := alive
    rw [Option.bind_some, pbufRef_eq live, joined_off chains.tail_notMem]
    split <;> simp_all
  · next other => exact iff_of_false Bool.false_ne_true fun both => other both.1

theorem Coherent.pbufDechain_isSome (coherent : Coherent s) (alive : p ∈ s.store.live) :
    (s.store.pbufDechain p).isSome ↔ ((s.store.pbufs p).next.elim 0 fun q => ((s.store.pbufs q).totLen.toNat : ℤ)) =
      (s.store.pbufs p).totLen.toNat - (s.store.pbufs p).len.toNat := by
  obtain ⟨blocks, housed⟩ := coherent.housed
  cases next : (s.store.pbufs p).next with
  | none =>
    rw [pbufDechain_last alive next, Option.elim_none]
    split
    · next same => exact iff_of_true rfl (by rw [same, sub_self])
    · next other =>
      refine iff_of_false Bool.false_ne_true fun same => other (BitVec.eq_of_toNat_eq ?_)
      omega
  | some q =>
    rw [Option.elim_some]
    by_cases sums : ((s.store.pbufs q).totLen.toNat : ℤ) =
        (s.store.pbufs p).totLen.toNat - (s.store.pbufs p).len.toNat
    · obtain ⟨_, _, _, returns, _⟩ := pbufDechain_eq coherent.exact housed alive next sums
      rw [returns]
      exact iff_of_true rfl sums
    · rw [pbufDechain_none alive (coherent.exact.closed p alive q next) next sums]
      exact iff_of_false Bool.false_ne_true sums

theorem Coherent.pbufRealloc_isSome (coherent : Coherent s) (alive : p ∈ s.store.live) (newLen : BitVec 16) :
    (s.store.pbufRealloc p newLen).isSome ↔
      (newLen < (s.store.pbufs p).totLen → newLen.toNat ≤ lens s.store (s.store.chain p)) := by
  obtain ⟨blocks, housed⟩ := coherent.housed
  by_cases shrinks : (s.store.pbufs p).totLen ≤ newLen
  · unfold PbufStore.pbufRealloc
    rw [read_eq alive, Option.bind_some, if_pos shrinks]
    exact iff_of_true rfl fun less => absurd shrinks (BitVec.not_le.mpr less)
  · rcases pbufRealloc_eq coherent.exact housed alive (coherent.chain alive) shrinks with
      ⟨front, r, back, rem, _, _, whole, returns, small, total, _⟩ | ⟨none, short⟩
    · rw [returns]
      refine iff_of_true rfl fun _ => ?_
      rw [whole, lens_append, lens_cons]
      have := BitVec.le_def.mp small
      omega
    · rw [none]
      refine iff_of_false Bool.false_ne_true fun enough => ?_
      have := enough (BitVec.not_le.mp shrinks)
      omega

theorem Coherent.pbufHeaderImpl_isSome (coherent : Coherent s) (alive : p ∈ s.store.live) (inc : BitVec 16)
    (force : Bool) :
    (s.store.pbufHeaderImpl p inc force).isSome ↔
      (inc.toInt < 0 → -inc.toInt ≤ (s.store.pbufs p).len.toNat) := by
  obtain ⟨blocks, housed⟩ := coherent.housed
  rcases pbufHeaderImpl_eq housed alive inc force with ⟨none, negative, short⟩ | ⟨enough, _, _, returns, _⟩
  · rw [none]
    refine iff_of_false Bool.false_ne_true fun enough => ?_
    have := enough negative
    omega
  · rw [returns]
    exact iff_of_true rfl enough

/-- An iteration of `pbuf_free` always returns: what it looks at is still allocated. -/
theorem Coherent.freeNext_isSome (coherent : Coherent s) (member : p ∈ s.walks) : (s.store.freeNext p).isSome := by
  obtain ⟨blocks, housed⟩ := coherent.housed
  have alive := coherent.exact.owned p (Multiset.mem_add.mpr (.inr member))
  rcases eq_or_ne (s.store.pbufs p).ref 1 with last | more
  · obtain ⟨_, _, returns, _⟩ := freeNext_last housed alive last
    rw [returns]
    rfl
  · rw [freeNext_more alive (ref_ne_zero coherent.exact alive) more]
    rfl

/-- `pbuf_alloc`, `pbuf_free` of a reference and every iteration of a `pbuf_free` under way return. Of the calls
with an allocated pbuf, or two with chains apart, only those do not return that a failing assertion stops, that
let `ref` run over, or that shorten a chain with less bytes than its `tot_len` promises. -/
theorem pbuf_call_returns_iff (reachable : pbufUse.Reachable s) :
    (∀ layer length type, (s.store.pbufAlloc layer length type).isSome) ∧
    (∀ p ∈ s.handles, (s.store.pbufFree p).isSome) ∧
    (∀ p ∈ s.walks, (s.store.freeNext p).isSome) ∧
    (∀ p ∈ s.store.live,
      ((s.store.pbufRef p).isSome ↔ (s.store.pbufs p).ref + 1 ≠ 0) ∧
      ((s.store.pbufDechain p).isSome ↔
        ((s.store.pbufs p).next.elim 0 fun q => ((s.store.pbufs q).totLen.toNat : ℤ)) =
          (s.store.pbufs p).totLen.toNat - (s.store.pbufs p).len.toNat) ∧
      (∀ newLen, (s.store.pbufRealloc p newLen).isSome ↔
        (newLen < (s.store.pbufs p).totLen → newLen.toNat ≤ lens s.store (s.store.chain p))) ∧
      ∀ inc force, (s.store.pbufHeaderImpl p inc force).isSome ↔
        (inc.toInt < 0 → -inc.toInt ≤ (s.store.pbufs p).len.toNat)) ∧
    ∀ h ∈ s.store.live, ∀ tail ∈ s.store.live, (∀ a ∈ s.store.chain h, a ∉ s.store.chain tail) →
      ((s.store.pbufCat h tail).isSome ↔ EndsEven s.store h) ∧
      ((s.store.pbufChain h tail).isSome ↔ EndsEven s.store h ∧ (s.store.pbufs tail).ref + 1 ≠ 0) := by
  have coherent := reachable_coherent reachable
  obtain ⟨blocks, housed⟩ := coherent.housed
  refine ⟨fun layer length type => ?_, fun p member => ?_, fun p => coherent.freeNext_isSome, fun p alive => ?_,
    fun h head tail alive apart => ?_⟩
  · obtain ⟨_, _, returns, _⟩ := pbufAlloc_eq coherent.exact housed layer length type
    rw [returns]
    rfl
  · obtain ⟨_, _, returns, _⟩ := pbufFree_eq (coherent.erase member) housed
      (coherent.chain (coherent.owned member))
    rw [returns]
    rfl
  · exact ⟨pbufRef_isSome alive, coherent.pbufDechain_isSome alive, coherent.pbufRealloc_isSome alive,
      coherent.pbufHeaderImpl_isSome alive⟩
  · exact ⟨coherent.pbufCat_isSome head alive apart, coherent.pbufChain_isSome head alive apart⟩

end Returns

/-- Data in RAM with a chain of three from the pool behind it, to which the caller keeps no reference. -/
def ramThenPool : List PbufCall :=
  [.alloc .transport 100 .ram, .alloc .raw 4000 .pool, .chain (.ram 8) (.pool 8), .free (.pool 8), .iterate (.pool 8)]

theorem ramThenPool_returns : ∃ s, pbufUse.run ramThenPool = some s ∧
    (∀ p ∈ s.handles, (s.store.pbufFree p).isSome) ∧ ∀ newLen, (s.store.pbufRealloc (.ram 8) newLen).isSome ↔
      (newLen < (s.store.pbufs (.ram 8)).totLen → newLen.toNat ≤ lens s.store (s.store.chain (.ram 8))) := by
  obtain ⟨s, ran, alive⟩ : ∃ s, pbufUse.run ramThenPool = some s ∧ .ram 8 ∈ s.store.live :=
    ⟨_, rfl, by decide⟩
  obtain ⟨_, frees, _, single, _⟩ := pbuf_call_returns_iff ⟨ramThenPool, ran⟩
  exact ⟨s, ran, frees, (single _ alive).2.2.1⟩

/-- Every count is the number of pointers to its pbuf: those of other pbufs, those that callers hold, and
those of loops under way. No pointer of these kinds leads to memory that was given back, and none leads
around in a circle. -/
theorem refs_exact {s : PbufUse} (reachable : pbufUse.Reachable s) :
    (∀ p ∈ s.handles + s.walks, p ∈ s.store.live) ∧
    ∀ p ∈ s.store.live, (s.store.pbufs p).ref ≠ 0 ∧
      (s.store.pbufs p).ref.toNat = (s.store.live.filter fun q => (s.store.pbufs q).next = some p).card +
        s.handles.count p + s.walks.count p ∧
      (∀ q, (s.store.pbufs p).next = some q → q ∈ s.store.live) ∧
      Chain (fun q => (s.store.pbufs q).next) (some p) (s.store.chain p) := by
  have coherent := reachable_coherent reachable
  refine ⟨coherent.exact.owned, fun p alive => ?_⟩
  refine ⟨ref_ne_zero coherent.exact alive, ?_, coherent.exact.closed p alive, coherent.chain alive⟩
  rw [add_assoc, ← Multiset.count_add]
  exact coherent.exact.counted p alive

theorem ramThenPool_refs : ∃ s, pbufUse.run ramThenPool = some s ∧ ∀ p ∈ s.store.live,
    (s.store.pbufs p).ref ≠ 0 :=
  ⟨_, rfl, fun p alive => ((refs_exact ⟨ramThenPool, rfl⟩).2 p alive).1⟩

/-- A pbuf is allocated exactly as long as a chain from a reference leads to it. So once all references
are given back and all loops are through, the heap is one free block again and both pools are full. -/
theorem pbufs_reclaimed {s : PbufUse} (reachable : pbufUse.Reachable s) :
    (∀ p, p ∈ s.store.live ↔ ∃ root ∈ s.handles + s.walks, p ∈ s.store.chain root) ∧
    (s.handles = 0 → s.walks = 0 → s.store.live = ∅ ∧
      s.store.heap.lfree = 0 ∧ s.store.heap.ram 0 = ⟨memSizeAligned, 0, false⟩ ∧
      s.store.poolTab.Perm (List.range pbufPoolSize) ∧ s.store.pbufTab.Perm (List.range mempNumPbuf)) := by
  have coherent := reachable_coherent reachable
  constructor
  · intro p
    constructor
    · intro alive
      obtain ⟨root, member, chain, h, there⟩ := coherent.exact.rooted alive
      have same := h.unique (coherent.chain (coherent.exact.owned root member))
      exact ⟨root, member, same ▸ there⟩
    · rintro ⟨root, member, there⟩
      have alive := coherent.exact.owned root member
      exact coherent.exact.chain_live (coherent.chain alive) (fun a same => Option.some_inj.mp same ▸ alive) p there
  · intro noHandles noWalks
    have exact := coherent.exact
    rw [noHandles, noWalks, add_zero] at exact
    have nothing : s.store.live = ∅ := exact.empty
    have unused : ∀ p, p ∉ s.store.live := fun p => nothing ▸ Finset.notMem_empty p
    obtain ⟨blocks, housed⟩ := coherent.housed
    obtain ⟨tiles, sound⟩ := housed.heap
    have noBlocks : blocks = [] := by
      refine List.eq_nil_iff_forall_not_mem.mpr fun a member => ?_
      exact unused _ ((housed.granted a.rmem).mp (List.mem_map_of_mem member))
    obtain ⟨_, lowest, header⟩ := sound.restored noBlocks
    exact ⟨nothing, lowest, header, housed.pool.restored fun _ => unused _, housed.refs.restored fun _ => unused _⟩

/-- The loops for the four pbufs. -/
def freeAll : List PbufCall :=
  [.free (.ram 8), .iterate (.ram 8), .iterate (.pool 8), .iterate (.pool 7), .iterate (.pool 6)]

theorem ramThenPool_reclaimed : ∃ s, pbufUse.run (ramThenPool ++ freeAll) = some s ∧
    s.store.poolTab.Perm (List.range pbufPoolSize) :=
  ⟨_, rfl, ((pbufs_reclaimed ⟨ramThenPool ++ freeAll, rfl⟩).2 (by decide) (by decide)).2.2.2.1⟩

theorem Coherent.adds_chain {s : PbufUse} {p : PbufAddr} (coherent : Coherent s) (lengths : Lengths s.store)
    (alive : p ∈ s.store.live) : ∀ a ∈ s.store.chain p, Adds s.store a := fun a member =>
  lengths a (coherent.exact.chain_live (coherent.chain alive) (fun _ same => Option.some_inj.mp same ▸ alive) a
    member)

/-- As long as nobody alters a pbuf that others point to, every `tot_len` is the number of bytes from its
pbuf on, as far as 16 bits can say it. So no assertion of `pbuf_cat` fails, every `pbuf_realloc` returns,
and `pbuf_dechain` returns exactly on chains of less than 2^16 bytes. -/
theorem tot_len_exact {tape : List PbufCall} {s : PbufUse} (tidy : TidyRun tape) (visit : pbufUse.Visits tape s)
    {p : PbufAddr} (alive : p ∈ s.store.live) :
    (s.store.pbufs p).totLen =
      (s.store.pbufs p).len + ((s.store.pbufs p).next.elim 0 fun q => (s.store.pbufs q).totLen) ∧
    (s.store.pbufs p).totLen.toNat = lens s.store (s.store.chain p) % 2 ^ 16 ∧
    EndsEven s.store p ∧
    (∀ newLen, (pbufUse.step s (.realloc p newLen)).isSome) ∧
    ((pbufUse.step s (.dechain p)).isSome ↔
      (s.store.pbufs p).len.toNat + ((s.store.pbufs p).next.elim 0 fun q => (s.store.pbufs q).totLen.toNat) <
        2 ^ 16) := by
  obtain ⟨coherent, lengths⟩ := run_lengths tidy visit
  have adds := coherent.adds_chain lengths alive
  have total := congrArg BitVec.toNat (totLen_eq (coherent.chain alive) adds)
  rw [BitVec.toNat_ofNat] at total
  refine ⟨lengths p alive, total, fun a member ends => ?_, fun newLen => ?_, ?_⟩
  · have here := adds a member
    unfold Adds at here
    rwa [ends, Option.elim_none, add_zero] at here
  · refine isSome_guarded.mpr ⟨alive, (coherent.pbufRealloc_isSome alive newLen).mpr fun less => ?_⟩
    have := BitVec.lt_def.mp less
    omega
  · refine isSome_guarded.trans ((and_iff_right alive).trans ((coherent.pbufDechain_isSome alive).trans ?_))
    have here := lengths p alive
    have bound := (s.store.pbufs p).len.isLt
    unfold Adds at here
    cases next : (s.store.pbufs p).next with
    | none =>
      rw [next, Option.elim_none, add_zero] at here
      rw [here]
      simp only [Option.elim_none]
      omega
    | some q =>
      rw [next, Option.elim_some] at here
      have tail := (s.store.pbufs q).totLen.isLt
      rw [here, BitVec.toNat_add]
      simp only [Option.elim_some]
      omega

theorem tidyRun_of_tests {tape : List PbufCall}
    (tested : pbufUse.tests (fun s e => decide (Tidy s.store e)) {} tape = true) : TidyRun tape := fun _ _ taken =>
  of_decide_eq_true (TapeMachine.Takes.test (p := fun s e => decide (Tidy s.store e)) tested taken)

theorem ramThenPool_tot_len : ∃ s, pbufUse.run ramThenPool = some s ∧
    (s.store.pbufs (.ram 8)).totLen.toNat = lens s.store (s.store.chain (.ram 8)) % 2 ^ 16 :=
  ⟨_, rfl, (tot_len_exact (tidyRun_of_tests rfl) ⟨ramThenPool, List.prefix_rfl, rfl⟩ (by decide)).2.1⟩

/-- The header and the payload of every pbuf from the heap or from `MEMP_PBUF_POOL` stay inside the block or the
element that it was given, with the payload behind the header; and what two of them have in the heap is apart,
with the header of a block between. -/
theorem windows_apart {s : PbufUse} (reachable : pbufUse.Reachable s) :
    (∀ rmem, .ram rmem ∈ s.store.live → sizeofStructPbuf ≤ (s.store.pbufs (.ram rmem)).payload ∧
      rmem + (s.store.pbufs (.ram rmem)).payload + (s.store.pbufs (.ram rmem)).len.toNat ≤
        (s.store.heap.ram (rmem - sizeofStructMem)).next ∧
      (s.store.heap.ram (rmem - sizeofStructMem)).next ≤ memSizeAligned) ∧
    (∀ one other, .ram one ∈ s.store.live → .ram other ∈ s.store.live → one < other →
      one + (s.store.pbufs (.ram one)).payload + (s.store.pbufs (.ram one)).len.toNat + sizeofStructMem ≤ other) ∧
    (∀ element, .pool element ∈ s.store.live → element < pbufPoolSize ∧
      sizeofStructPbuf ≤ (s.store.pbufs (.pool element)).payload ∧
      (s.store.pbufs (.pool element)).payload + (s.store.pbufs (.pool element)).len.toNat ≤
        sizeofStructPbuf + pbufPoolBufsizeAligned) ∧
    ∀ element, .ref element ∈ s.store.live → element < mempNumPbuf := by
  obtain ⟨_, blocks, housed⟩ := reachable_coherent reachable
  obtain ⟨tiles, sound⟩ := housed.heap
  have block : ∀ rmem, .ram rmem ∈ s.store.live → ∃ a ∈ blocks, a.rmem = rmem ∧
    rmem = a.mem + sizeofStructMem ∧
      rmem + (s.store.pbufs (.ram rmem)).payload + (s.store.pbufs (.ram rmem)).len.toNat ≤
        (s.store.heap.ram a.mem).next ∧ (s.store.heap.ram a.mem).next ≤ memSizeAligned := by
    intro rmem alive
    obtain ⟨a, member, rfl⟩ := List.mem_map.mp ((housed.granted rmem).mpr alive)
    obtain ⟨front, _, _, inside, covers⟩ := sound.inside member
    have window := (housed.inside _ alive).2 a member rfl
    have enough := covers.mpr (housed.small a member)
    refine ⟨a, member, rfl, front, ?_, inside⟩
    change a.rmem + a.size.toNat ≤ (s.store.heap.ram a.mem).next at enough
    omega
  refine ⟨fun rmem alive => ?_, fun one other aliveOne aliveOther less => ?_, fun element alive => ?_,
    fun element alive => ?_⟩
  · obtain ⟨a, _, rfl, _, window, inside⟩ := block rmem alive
    exact ⟨(housed.inside _ alive).1, window, inside⟩
  · obtain ⟨a, memberA, hereA, frontA, windowA, _⟩ := block one aliveOne
    obtain ⟨b, memberB, hereB, frontB, windowB, _⟩ := block other aliveOther
    have different : a ≠ b := by
      rintro rfl
      omega
    have symm : Std.Symm fun a b : Allocation => (s.store.heap.ram a.mem).next ≤ b.mem ∨
        (s.store.heap.ram b.mem).next ≤ a.mem := ⟨fun _ _ => Or.symm⟩
    have apart := List.Pairwise.forall sound.apart memberA memberB different
    have behind := (sound.inside memberB).2.2.1
    change b.rmem + minSizeAligned ≤ (s.store.heap.ram b.mem).next at behind
    change (s.store.heap.ram a.mem).next ≤ b.mem ∨ (s.store.heap.ram b.mem).next ≤ a.mem at apart
    unfold sizeofStructMem at *
    omega
  · have inside := housed.inside _ alive
    exact ⟨(housed.pool.whole element).mpr (.inr alive), inside.1, inside.2⟩
  · exact (housed.refs.whole element).mpr (.inr alive)

/-- Two pbufs in the heap, the first one shortened. -/
def twoInHeap : List PbufCall :=
  [.alloc .transport 100 .ram, .alloc .transport 50 .ram, .realloc (.ram 8) 10]

theorem twoInHeap_apart : ∃ s, pbufUse.run twoInHeap = some s ∧
    (8 : ℕ) + (s.store.pbufs (.ram 8)).payload + (s.store.pbufs (.ram 8)).len.toNat + sizeofStructMem ≤
      (188 : ℕ) :=
  ⟨_, rfl, (windows_apart ⟨twoInHeap, rfl⟩).2.1 8 188 (by decide) (by decide) (by decide)⟩

/-- `pbuf_alloc` from the pool touches nothing that is in use. It makes a chain with as many pbufs as the
length needs, exactly of this length, with the room for headers in front; or it returns NULL where the pool
has less, and all that it has taken is back. -/
theorem pool_allocation {s : PbufUse} (reachable : pbufUse.Reachable s) (layer : PbufLayer) (length : BitVec 16) :
    ∃ t p?, s.store.pbufAlloc layer length .pool = some (t, p?) ∧
      (∀ q ∈ s.store.live, q ∈ t.live ∧ t.pbufs q = s.store.pbufs q) ∧
      (neededPbufs layer length ≤ s.store.poolTab.length → ∃ p, p? = some p ∧
        (t.chain p).length = neededPbufs layer length ∧ (∀ q ∈ t.chain p, q ∉ s.store.live) ∧
        (∀ q, q ∈ t.live ↔ q ∈ s.store.live ∨ q ∈ t.chain p) ∧ lens t (t.chain p) = length.toNat ∧
        (t.pbufs p).totLen = length ∧
        (t.pbufs p).payload = (memAlignSize (sizeofStructPbuf + layer.offset) : ℕ)) ∧
      (s.store.poolTab.length < neededPbufs layer length →
        p? = none ∧ t.live = s.store.live ∧ t.poolTab.Perm s.store.poolTab) := by
  have coherent := reachable_coherent reachable
  obtain ⟨blocks, housed⟩ := coherent.housed
  have alloc := allocPool_eq coherent.exact housed layer length
  split at alloc
  · next enough =>
    obtain ⟨t, p, built, r, returns, count, building⟩ := alloc
    have inUse := building.exact.owned p (Multiset.mem_cons_self _ _)
    have same : t.chain p = built ++ [r] :=
      chainFrom_eq building.chain (building.exact.chain_length_le inUse building.chain)
    refine ⟨t, some p, returns, fun q old => ⟨(building.live q).mpr (.inl old), building.same q old⟩, fun _ =>
      ?_, ?_⟩
    · refine ⟨p, rfl, ?_, same ▸ building.fresh, same ▸ building.live, ?_, building.whole⟩
      · rw [same, List.length_append, List.length_singleton, count]
      · rw [same]
        exact building.total
    · intro short
      omega
  · next short =>
    obtain ⟨t, blocks', returns, _, housed', grown⟩ := alloc
    have live : t.live = s.store.live := Finset.ext fun q => by simpa using grown.live q
    refine ⟨t, none, returns, fun q old => ⟨live ▸ old, grown.same q old⟩, fun enough => absurd enough short,
      fun _ => ?_⟩
    exact ⟨rfl, live, (housed'.pool.congr fun _ => by rw [live]).perm housed.pool⟩

theorem ramThenPool_allocation : ∃ s, pbufUse.run ramThenPool = some s ∧ ∃ t p?,
    s.store.pbufAlloc .raw 10000 .pool = some (t, p?) ∧
      (s.store.poolTab.length < neededPbufs .raw 10000 → p? = none ∧ t.live = s.store.live) := by
  obtain ⟨s, ran⟩ : ∃ s, pbufUse.run ramThenPool = some s := ⟨_, rfl⟩
  obtain ⟨t, p?, returns, _, _, refused⟩ := pool_allocation ⟨ramThenPool, ran⟩ .raw 10000
  exact ⟨s, ran, t, p?, returns, fun short => ⟨(refused short).1, (refused short).2.1⟩⟩

/-- `pbuf_realloc` to fewer bytes leaves the front of the chain with exactly these bytes, all of them where
they were, and frees nothing that is not behind it. -/
theorem realloc_shortens {s t : PbufUse} (reachable : pbufUse.Reachable s) (p : PbufAddr) (newLen : BitVec 16)
    (less : newLen < (s.store.pbufs p).totLen) (step : pbufUse.step s (.realloc p newLen) = some t) :
    t.store.chain p <+: s.store.chain p ∧ lens t.store (t.store.chain p) = newLen.toNat ∧
      (t.store.pbufs p).totLen = newLen ∧
      (∀ q ∈ t.store.chain p, (t.store.pbufs q).payload = (s.store.pbufs q).payload ∧
        (t.store.pbufs q).len ≤ (s.store.pbufs q).len) ∧
      ∀ q ∈ s.store.live, q ∉ s.store.chain p → q ∈ t.store.live ∧ t.store.pbufs q = s.store.pbufs q := by
  have coherent := reachable_coherent reachable
  have after := (coherent.realloc step).1
  simp only [pbufUse, PbufUse.step] at step
  split at step
  · next alive =>
    obtain ⟨blocks, housed⟩ := coherent.housed
    have h := coherent.chain alive
    rcases pbufRealloc_eq coherent.exact housed alive h (BitVec.not_le.mpr less) with
      ⟨front, r, back, rem, u, blocks', whole, returns, small, total, _, _, lowered⟩ | ⟨none, _⟩
    · rw [returns] at step
      cases step
      have nodup := List.nodup_append.mp (whole ▸ h.nodup)
      have fresh : r ∉ front := fun again => nodup.2.2 r again r List.mem_cons_self rfl
      have kept : ∀ q ∈ front ++ [r], q ∉ back := by
        intro q member behind
        rcases List.mem_append.mp member with early | last
        · exact nodup.2.2 q early q (List.mem_cons_of_mem r behind) rfl
        · exact (List.nodup_cons.mp nodup.2.1).1 (List.mem_singleton.mp last ▸ behind)
      have left := chain_cut (whole ▸ h) (newLen - (s.store.pbufs p).totLen) rem
      have stays := (lowered.off p (kept p left.head_mem)).2 alive
      rw [← lowered.next] at left
      have same : u.chain p = front ++ [r] := (left.unique (after.chain stays)).symm
      -- what is left is as the loop has made it
      have fields : ∀ q ∈ front ++ [r], u.pbufs q =
          (cut s.store (newLen - (s.store.pbufs p).totLen) front r rem).pbufs q := fun q member =>
        (lowered.off q (kept q member)).1
      have early : ∀ q ∈ front, (cut s.store (newLen - (s.store.pbufs p).totLen) front r rem).pbufs q =
          { s.store.pbufs q with totLen := (s.store.pbufs q).totLen + (newLen - (s.store.pbufs p).totLen) } :=
        fun q member => cut_front member (by rintro rfl; exact fresh member)
      change u.chain p <+: _ ∧ lens u (u.chain p) = _ ∧ (u.pbufs p).totLen = _ ∧
        (∀ q ∈ u.chain p, (u.pbufs q).payload = _ ∧ (u.pbufs q).len ≤ _) ∧ _
      rw [same]
      refine ⟨?_, ?_, ?_, fun q member => ?_, fun q old outside => ?_⟩
      · rw [whole]
        exact ⟨back, by rw [List.append_assoc, List.singleton_append]⟩
      · rw [lowered.lens, lens_cut fresh]
        omega
      · rw [fields p left.head_mem]
        exact totLen_cut (whole ▸ h) fresh total
      · rw [fields q member]
        rcases List.mem_append.mp member with first | last
        · rw [early q first]
          exact ⟨rfl, BitVec.le_refl _⟩
        · rw [List.mem_singleton.mp last, cut_self]
          exact ⟨rfl, small⟩
      · rw [whole] at outside
        simp only [List.mem_append, List.mem_cons, not_or] at outside
        have off := lowered.off q outside.2.2
        exact ⟨off.2 old, off.1.trans (cut_off outside.1 outside.2.1)⟩
    · rw [none] at step
      contradiction
  · contradiction

theorem ramThenPool_shortened : ∃ s t, pbufUse.run ramThenPool = some s ∧
    pbufUse.step s (.realloc (.ram 8) 2000) = some t ∧ lens t.store (t.store.chain (.ram 8)) = 2000 :=
  ⟨_, _, rfl, rfl, (realloc_shortens ⟨ramThenPool, rfl⟩ (.ram 8) 2000 (by decide) rfl).2.1⟩

/-- `pbuf_header` hides a header that the pbuf holds, and `pbuf_header_force` brings it back, wherever the payload
lies: after both everything is as it was. -/
theorem header_restored {s : PbufUse} (reachable : pbufUse.Reachable s) {p : PbufAddr} (alive : p ∈ s.store.live)
    {size : BitVec 16} (nonzero : size ≠ 0) (signed : size.toNat < 2 ^ 15) (small : size ≤ (s.store.pbufs p).len) :
    ∃ hidden, s.store.pbufHeader p (-size) = some (hidden, false) ∧
      hidden.pbufHeaderForce p size = some (s.store, false) := by
  obtain ⟨_, blocks, housed⟩ := reachable_coherent reachable
  have positive : 0 < size.toNat := Nat.pos_of_ne_zero fun zero => nonzero (BitVec.eq_of_toNat_eq zero)
  have less := BitVec.le_def.mp small
  have up : size.toInt = size.toNat := BitVec.toInt_eq_toNat_of_lt (by omega)
  have down : (-size).toInt = -size.toNat := by
    rw [BitVec.toInt_eq_toNat_cond, BitVec.toNat_neg]
    omega
  have behind : (s.store.pbufs p).type = .ram ∨ (s.store.pbufs p).type = .pool →
      sizeofStructPbuf ≤ (s.store.pbufs p).payload := by
    intro own
    have inside := housed.inside p alive
    have suits := housed.suits p alive
    cases p with
    | ram _ => exact inside.1
    | pool _ => exact inside.1
    | ref _ => rcases suits with type | type <;> rw [type] at own <;> simp at own
  refine ⟨headed s.store p (-size), ?_, ?_⟩
  · apply pbufHeaderImpl_moves alive (neg_ne_zero.mpr nonzero)
    · intro _
      omega
    · intro own
      have := behind own
      omega
    · exact fun _ => .inl (by omega)
  · have moved : (headed s.store p (-size)).pbufHeaderForce p size =
        some (headed (headed s.store p (-size)) p size, false) := by
      apply pbufHeaderImpl_moves (show p ∈ (headed s.store p (-size)).live from alive) nonzero
      · intro negative
        omega
      · rw [headed, write_self]
        intro own
        have := behind own
        dsimp only
        omega
      · exact fun _ => .inr rfl
    rwa [headed_headed (by omega) (neg_add_cancel size)] at moved

/-- `pbuf_dechain` counts with `pbuf_free` in 8 bits: it returns the tail although that has been freed where
a positive multiple of 256 pbufs were. -/
theorem dechain_result {s : PbufUse} {t : PbufStore} {result : Option PbufAddr} (reachable : pbufUse.Reachable s)
    {p q : PbufAddr} (next : (s.store.pbufs p).next = some q) (returns : s.store.pbufDechain p = some (t, result)) :
    t.chain p = [p] ∧ (q ∈ t.live ↔ t.live = s.store.live) ∧
      result = if 256 ∣ s.store.live.card - t.live.card then some q else none := by
  have coherent := reachable_coherent reachable
  obtain ⟨blocks, housed⟩ := coherent.housed
  have alive : p ∈ s.store.live := by
    by_contra dead
    unfold PbufStore.pbufDechain PbufStore.read at returns
    rw [if_neg dead] at returns
    contradiction
  by_cases sums : ((s.store.pbufs q).totLen.toNat : ℤ) = (s.store.pbufs p).totLen.toNat - (s.store.pbufs p).len.toNat
  · obtain ⟨u, _, chain, returns', exact, _, h, lowered⟩ := pbufDechain_eq coherent.exact housed alive next sums
    rw [returns] at returns'
    cases returns'
    have behind : Chain (counted s.store).next (some q) chain := by
      rw [← next]
      exact (Chain.cons_iff.mp h).2
    have outside := (List.nodup_cons.mp h.nodup).1
    have cleared : (counted t).next = (counted (s.store.write p { s.store.pbufs p with
        next := none, totLen := (s.store.pbufs p).len })).next := lowered.next
    have alone : Chain (counted t).next (some p) [p] := by
      refine .cons ?_
      rw [cleared]
      change Chain _ ((s.store.write p _).pbufs p).next []
      rw [write_self]
      exact .nil
    have ahead : Chain (counted t).next (some q) chain := by
      refine behind.congr fun a member => ?_
      rw [cleared]
      change ((s.store.write p _).pbufs a).next = _
      rw [write_of_ne (by rintro rfl; exact outside member)]
      rfl
    have less : t.live ⊆ s.store.live := lowered.live
    have stays := (lowered.off p outside).2 alive
    have whole : q ∈ t.live ↔ t.live = s.store.live := by
      constructor
      · intro there
        refine less.antisymm fun a old => ?_
        by_cases member : a ∈ chain
        · exact exact.chain_live ahead (fun b same => Option.some_inj.mp same ▸ there) a member
        · exact (lowered.off a member).2 old
      · intro same
        rw [same]
        exact coherent.exact.closed p alive q next
    refine ⟨chainFrom_eq alone (exact.chain_length_le stays alone), whole, ?_⟩
    generalize s.store.live.card - t.live.card = freed
    have multiple : 0 < BitVec.ofNat 8 freed ↔ ¬ 256 ∣ freed := by
      rw [BitVec.lt_def, BitVec.toNat_ofNat]
      change 0 < freed % 256 ↔ _
      omega
    simp only [multiple, ite_not]
  · rw [pbufDechain_none alive (coherent.exact.closed p alive q next) next sums] at returns
    contradiction

theorem ramThenPool_result : ∃ s t result, pbufUse.run ramThenPool = some s ∧
    s.store.pbufDechain (.ram 8) = some (t, result) ∧ (.pool 8 ∈ t.live ↔ t.live = s.store.live) :=
  ⟨_, _, _, rfl, rfl, (dechain_result ⟨ramThenPool, rfl⟩ (p := .ram 8) rfl rfl).2.1⟩

end WirelessSpeakers.Soundness
