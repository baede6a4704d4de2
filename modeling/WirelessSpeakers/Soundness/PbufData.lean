import Mathlib.Order.Bounds.Basic
import WirelessSpeakers.Model.PbufData

/-! # A chain is its bytes

What the functions of `pbuf.c` read and write, in terms of the whole message, whatever its division into
pbufs. None of them changes how long a pbuf is.
-/

namespace WirelessSpeakers.Soundness

open Model

/-- The message in a chain. -/
def content (p : List Pbuf) : List Byte := p.flatMap Pbuf.payload

/-- How a chain is divided. -/
def division (p : List Pbuf) : List ℕ := p.map Pbuf.len

/-- How many bytes it has, which is its `tot_len` where 16 bits suffice. -/
def dataLen (p : List Pbuf) : ℕ := (p.map Pbuf.len).sum

theorem totLen_eq_dataLen {p : List Pbuf} (small : dataLen p < 2 ^ 16) : totLen p = dataLen p :=
  Nat.mod_eq_of_lt small

section Content

variable {p q : List Pbuf} {offset : ℕ}

@[simp] theorem content_nil : content [] = [] := rfl

@[simp] theorem content_cons (first : Pbuf) : content (first :: p) = first.payload ++ content p := List.flatMap_cons

@[simp] theorem content_append : content (p ++ q) = content p ++ content q := List.flatMap_append

@[simp] theorem dataLen_cons (first : Pbuf) : dataLen (first :: p) = first.len + dataLen p := List.sum_cons

@[simp] theorem length_content (p : List Pbuf) : (content p).length = dataLen p := List.length_flatMap

theorem len_store {first : Pbuf} {block : List Byte} (fits : offset + block.length ≤ first.len) :
    (first.store offset block).len = first.len := length_overwrite fits

/-- `pbuf_skip` stops in the pbuf with the byte at the offset. -/
theorem pbufSkip_spec (p : List Pbuf) (offset : ℕ) :
    p = pbufSkipped p offset ++ (pbufSkip p offset).1 ∧
      dataLen (pbufSkipped p offset) + (pbufSkip p offset).2 = offset ∧
      ∀ first ∈ (pbufSkip p offset).1.head?, (pbufSkip p offset).2 < first.len := by
  induction p generalizing offset with
  | nil => simp [pbufSkip, pbufSkipped, dataLen]
  | cons first next ih =>
    unfold pbufSkip pbufSkipped
    split
    · next behind =>
      obtain ⟨whole, place, inside⟩ := ih (offset - first.len)
      rw [List.cons_append, ← whole, dataLen_cons]
      exact ⟨rfl, by omega, inside⟩
    · next here => simpa [dataLen] using here

theorem content_skip (p : List Pbuf) (offset : ℕ) :
    content p = content (pbufSkipped p offset) ++ content (pbufSkip p offset).1 := by
  conv_lhs => rw [(pbufSkip_spec p offset).1]
  exact content_append

/-- A byte is read where it is in the message. -/
theorem pbufTryGetAt_eq (p : List Pbuf) (offset : ℕ) : pbufTryGetAt p offset = (content p)[offset]? := by
  induction p generalizing offset with
  | nil => rfl
  | cons first next ih =>
    rw [content_cons]
    rcases Nat.lt_or_ge offset first.len with here | behind
    · rw [List.getElem?_append_left here]
      unfold pbufTryGetAt pbufSkip
      rw [if_neg (Nat.not_le.mpr here)]
    · rw [List.getElem?_append_right behind]
      change _ = (content next)[offset - first.len]?
      rw [← ih]
      unfold pbufTryGetAt
      conv_lhs => unfold pbufSkip
      rw [if_pos behind]

theorem pbufGetAt_eq (p : List Pbuf) (offset : ℕ) : pbufGetAt p offset = ((content p)[offset]?).getD 0 := by
  rw [pbufGetAt, pbufTryGetAt_eq]

end Content

section Flat

variable {p next : List Pbuf} {first : Pbuf} {dataptr : List Byte} {offset : ℕ}

theorem takeLoop_eq (p : List Pbuf) (dataptr : List Byte) (fits : dataptr.length ≤ dataLen p) :
    ∃ t, takeLoop p dataptr = some t ∧ content t = overwrite (content p) 0 dataptr ∧ division t = division p := by
  induction p generalizing dataptr with
  | nil =>
    rw [List.length_eq_zero_iff.mp (Nat.le_zero.mp fits)]
    exact ⟨[], rfl, rfl, rfl⟩
  | cons first next ih =>
    cases dataptr with
    | nil => exact ⟨first :: next, rfl, (overwrite_nil _ _).symm, rfl⟩
    | cons b rest =>
      generalize data : b :: rest = dataptr at fits
      rw [dataLen_cons] at fits
      obtain ⟨t, returns, written, same⟩ := ih (dataptr.drop first.len) (by rw [List.length_drop]; omega)
      have enough : (dataptr.take first.len).length ≤ first.len := List.length_take_le _ _
      refine ⟨first.store 0 (dataptr.take first.len) :: t, ?_, ?_, ?_⟩
      · rw [← data] at returns ⊢
        simp only [takeLoop, returns, Option.map_some]
      · rw [content_cons, content_cons, written]
        change overwrite first.payload 0 _ ++ _ = _
        rcases Nat.lt_or_ge dataptr.length first.len with short | long
        · rw [List.take_of_length_le short.le, List.drop_of_length_le short.le, overwrite_nil, overwrite_front]
          rw [Nat.zero_add]
          exact short.le
        · have meets : 0 + (dataptr.take first.len).length = first.payload.length := by
            rw [Nat.zero_add, List.length_take]
            exact Nat.min_eq_left long
          rw [← overwrite_seam meets, List.take_append_drop]
      · unfold division at same ⊢
        rw [List.map_cons, List.map_cons, same, len_store (by rwa [Nat.zero_add])]

/-- `pbuf_take` replaces the beginning of the message. -/
theorem pbufTake_eq (small : dataLen p < 2 ^ 16) (fits : dataptr.length ≤ dataLen p) :
    ∃ t, pbufTake p dataptr = some t ∧ content t = overwrite (content p) 0 dataptr ∧ division t = division p := by
  rw [pbufTake, totLen_eq_dataLen small, if_pos fits]
  exact takeLoop_eq p dataptr fits

/-- `pbuf_take_at` replaces a part of the message, or refuses data that does not fit behind the offset. -/
theorem pbufTakeAt_eq (p : List Pbuf) (small : dataLen p < 2 ^ 16) (dataptr : List Byte) (offset : ℕ) :
    if offset < dataLen p ∧ offset + dataptr.length ≤ dataLen p then
      ∃ t, pbufTakeAt p dataptr offset = some (t, true) ∧ content t = overwrite (content p) offset dataptr ∧
        division t = division p
    else pbufTakeAt p dataptr offset = some (p, false) := by
  obtain ⟨whole, place, inside⟩ := pbufSkip_spec p offset
  have split := content_skip p offset
  have total := congrArg List.length split
  simp only [List.length_append, length_content] at total
  unfold pbufTakeAt
  generalize skipped : pbufSkipped p offset = front at *
  generalize pbufSkip p offset = found at *
  obtain ⟨back, targetOffset⟩ := found
  cases back with
  | nil =>
    have short : ¬ (offset < dataLen p ∧ offset + dataptr.length ≤ dataLen p) := by
      simp [dataLen] at total
      simp only [dataLen] at place ⊢
      omega
    rw [if_neg short]
  | cons q next =>
    have here : targetOffset < q.len := inside q rfl
    rw [dataLen_cons] at total
    simp only
    rw [totLen_eq_dataLen (by rw [dataLen_cons]; omega), dataLen_cons]
    by_cases fits : targetOffset + dataptr.length ≤ q.len + dataLen next
    · rw [if_pos ⟨by omega, by omega⟩, if_pos fits, split]
      have outside : (content front).length ≤ offset := by
        rw [length_content]
        omega
      have back : offset - (content front).length = targetOffset := by
        rw [length_content]
        omega
      rw [overwrite_back outside, back, content_cons]
      by_cases more : 0 < dataptr.length - min (q.len - targetOffset) dataptr.length
      · have first : min (q.len - targetOffset) dataptr.length = q.len - targetOffset := by omega
        rw [if_pos more, first]
        have length : (dataptr.take (q.len - targetOffset)).length = q.len - targetOffset := by
          rw [List.length_take]
          omega
        obtain ⟨t, taken, written, same⟩ := pbufTake_eq (show dataLen next < 2 ^ 16 by omega)
          (show (dataptr.drop (q.len - targetOffset)).length ≤ dataLen next by rw [List.length_drop]; omega)
        have meets : targetOffset + (dataptr.take (q.len - targetOffset)).length = q.payload.length := by
          change _ = q.len
          omega
        refine ⟨_, by rw [taken]; rfl, ?_, ?_⟩
        · rw [content_append, content_cons, written]
          conv_rhs => rw [← List.take_append_drop (q.len - targetOffset) dataptr, overwrite_seam meets]
          rfl
        · unfold division at same ⊢
          rw [whole]
          simp only [List.map_append, List.map_cons, same]
          rw [len_store (Nat.le_of_eq meets)]
      · have first : min (q.len - targetOffset) dataptr.length = dataptr.length := by omega
        have enough : targetOffset + dataptr.length ≤ q.len := by omega
        rw [if_neg more, first, List.take_length]
        refine ⟨_, rfl, ?_, ?_⟩
        · rw [content_append, content_cons, overwrite_front enough]
          rfl
        · unfold division
          rw [whole]
          simp only [List.map_append, List.map_cons]
          rw [len_store enough]
    · rw [if_neg fits, if_neg (by omega)]

theorem next?_past {len left copiedTotal : ℕ} (more : len ≠ 0) (behind : offset ≠ 0 ∧ first.len ≤ offset) :
    CopyLoop.next? ⟨first :: next, len, offset, left, copiedTotal⟩ =
      some (⟨next, len, offset - first.len, left, copiedTotal⟩, []) := by
  simp only [CopyLoop.next?, if_neg more, if_pos behind]

theorem next?_copies {len left copiedTotal : ℕ} (more : len ≠ 0)
    (here : ¬ (offset ≠ 0 ∧ first.len ≤ offset)) :
    CopyLoop.next? ⟨first :: next, len, offset, left, copiedTotal⟩ =
      some (⟨next, len - min (first.len - offset) len, 0, left + min (first.len - offset) len,
        copiedTotal + min (first.len - offset) len⟩,
          (first.payload.drop offset).take (min (first.len - offset) len)) := by
  simp only [CopyLoop.next?, if_neg more, if_neg here]

/-- `pbuf_copy_partial` copies the bytes behind the offset, up to the length or the end. -/
theorem finish_eq (p : List Pbuf) (len offset left copiedTotal : ℕ) (memory : ℕ → Byte) :
    CopyLoop.finish p.length ⟨p, len, offset, left, copiedTotal⟩ memory =
      (splice memory left (((content p).drop offset).take len), copiedTotal + min len (dataLen p - offset)) := by
  induction p generalizing len offset left copiedTotal memory with
  | nil =>
    rw [content_nil, List.drop_nil, List.take_nil, splice_nil]
    change _ = (memory, copiedTotal + min len (0 - offset))
    rw [Nat.zero_sub, Nat.min_zero]
    rfl
  | cons first next ih =>
    rw [List.length_cons, CopyLoop.finish, content_cons, dataLen_cons]
    by_cases stop : len = 0
    · subst stop
      rw [List.take_zero, splice_nil, Nat.zero_min]
      rfl
    · by_cases behind : offset ≠ 0 ∧ first.len ≤ offset
      · rw [next?_past stop behind]
        dsimp only
        rw [splice_nil, ih, List.drop_append, List.drop_of_length_le behind.2, List.nil_append]
        congr 2
        omega
      · rw [next?_copies stop behind]
        dsimp only
        have inside : offset ≤ first.payload.length := by
          change offset ≤ first.len
          omega
        have front : (first.payload.drop offset).length = first.len - offset := List.length_drop
        have block : (first.payload.drop offset).take (min (first.len - offset) len) =
          (first.payload.drop offset).take len := by
          rw [← front, Nat.min_comm, ← List.take_eq_take_min]
        have copied : ((first.payload.drop offset).take len).length = min (first.len - offset) len := by
          rw [List.length_take, front, Nat.min_comm]
        rw [ih, List.drop_zero, List.drop_append_of_le_length inside, List.take_append, splice_append, block, copied,
          front]
        have rest : len - min (first.len - offset) len = len - (first.len - offset) := by omega
        rw [rest]
        congr 1
        omega

/-- In a chain whose `tot_len` did not run over, data that `pbuf_take_at` stores is read back by
`pbuf_copy_partial` and `pbuf_get_at`, and every other byte stays. What does not fit behind the offset is refused
with `ERR_MEM`, and so is a start behind the end. -/
theorem take_at_read_back (p : List Pbuf) (small : dataLen p < 2 ^ 16) (dataptr : List Byte) (offset : ℕ) :
    if offset < totLen p ∧ offset + dataptr.length ≤ totLen p then
      ∃ t, pbufTakeAt p dataptr offset = some (t, true) ∧ division t = division p ∧
        (∀ memory, pbufCopyPartial t memory dataptr.length offset = (splice memory 0 dataptr, dataptr.length)) ∧
        (∀ i, i < offset ∨ offset + dataptr.length ≤ i → pbufTryGetAt t i = pbufTryGetAt p i) ∧
        ∀ i < dataptr.length, pbufTryGetAt t (offset + i) = dataptr[i]?
    else pbufTakeAt p dataptr offset = some (p, false) := by
  have taken := pbufTakeAt_eq p small dataptr offset
  rw [totLen_eq_dataLen small]
  split at taken
  · next fits =>
    rw [if_pos fits]
    obtain ⟨t, returns, written, same⟩ := taken
    have total : dataLen t = dataLen p := congrArg List.sum same
    refine ⟨t, returns, same, fun memory => ?_, fun i outside => ?_, fun i inside => ?_⟩
    · rw [pbufCopyPartial, finish_eq, written, take_drop_overwrite (by rw [length_content]; omega), total]
      congr 1
      omega
    · rw [pbufTryGetAt_eq, pbufTryGetAt_eq, written,
        getElem?_overwrite_outside (by rw [length_content]; exact fits.2) outside]
    · rw [pbufTryGetAt_eq, written, getElem?_overwrite_inside (by rw [length_content]; omega) inside]
  · next short => rwa [if_neg short]

theorem take_at_read_back_seam : ∃ t, pbufTakeAt [⟨[1, 2], 0⟩, ⟨[3, 4], 0⟩] [8, 9] 1 = some (t, true) ∧
    ∀ i < 2, pbufTryGetAt t (1 + i) = [8, 9][i]? := by
  have stored := take_at_read_back [⟨[1, 2], 0⟩, ⟨[3, 4], 0⟩] (by decide) [8, 9] 1
  rw [if_pos (by decide)] at stored
  obtain ⟨t, returns, _, _, _, inside⟩ := stored
  exact ⟨t, returns, inside⟩

/-- `pbuf_put_at` is `pbuf_take_at` of a single byte. -/
theorem pbufTakeAt_singleton (p : List Pbuf) (small : dataLen p < 2 ^ 16) (offset : ℕ) (data : Byte) :
    pbufTakeAt p [data] offset = some (pbufPutAt p offset data, decide (offset < dataLen p)) := by
  obtain ⟨_, place, inside⟩ := pbufSkip_spec p offset
  have total := congrArg List.length (content_skip p offset)
  simp only [List.length_append, length_content] at total
  rw [pbufTakeAt, pbufPutAt]
  generalize pbufSkip p offset = found at *
  obtain ⟨back, qIdx⟩ := found
  cases back with
  | nil =>
    have short : ¬ offset < dataLen p := by
      simp only [dataLen, List.map_nil, List.sum_nil] at *
      omega
    simp only [short, decide_false]
  | cons q next =>
    have here : qIdx < q.len := inside q rfl
    rw [dataLen_cons] at total
    simp only
    have long : offset < dataLen p := by omega
    have one : min (q.len - qIdx) 1 = 1 := by omega
    rw [totLen_eq_dataLen (by rw [dataLen_cons]; omega), dataLen_cons, List.length_singleton, if_pos (by omega), one,
      if_neg (Nat.lt_irrefl 0), if_pos here, List.take_of_length_le (Nat.le_refl 1), decide_eq_true long]

end Flat

/-- The pbufs of a single packet: `tot_len` counts its bytes, and the last ones are in its last pbuf. -/
def Packet : List Pbuf → Prop
  | [] => True
  | p :: next => dataLen (p :: next) < 2 ^ 16 ∧ (dataLen next = 0 → next = []) ∧ Packet next

section Copy

variable {targets sources : List Pbuf} {target source : Pbuf} {loop : CopyPbufs} {done : List Pbuf}
  {offsetTo offsetFrom : ℕ}

/-- Only the division matters. -/
theorem Packet.congr {p q : List Pbuf} (packet : Packet p) (same : division q = division p) : Packet q := by
  induction p generalizing q with
  | nil =>
    rw [List.map_eq_nil_iff.mp same]
    trivial
  | cons first next ih =>
    obtain ⟨small, last, tail⟩ := packet
    have whole : dataLen q = dataLen (first :: next) := congrArg List.sum same
    obtain ⟨other, rest, rfl, _, behind⟩ := List.map_eq_cons_iff.mp same
    refine ⟨whole ▸ small, fun empty => ?_, ih tail behind⟩
    have total : dataLen rest = dataLen next := congrArg List.sum behind
    have none := last (total ▸ empty)
    subst none
    exact List.map_eq_nil_iff.mp behind

theorem Packet.not_queue {p : List Pbuf} (packet : Packet p) : isPacketQueue p = false := by
  cases p with
  | nil => rfl
  | cons first next =>
    obtain ⟨small, last, _⟩ := packet
    refine decide_eq_false fun queue => queue.2 (last ?_)
    have whole := queue.1
    rw [totLen_eq_dataLen small, dataLen_cons] at whole
    omega

/-- What the loop still has to do: the data from `offset_from` on fits behind `offset_to`. -/
structure Fitting (target : Pbuf) (targets : List Pbuf) (source : Pbuf) (sources : List Pbuf)
    (offsetTo offsetFrom : ℕ) :
    Prop where
  inTarget : offsetTo ≤ target.len
  inSource : offsetFrom ≤ source.len
  enough : source.len + dataLen sources + offsetTo ≤ target.len + dataLen targets + offsetFrom
  targetPacket : Packet (target :: targets)
  sourcePacket : Packet (source :: sources)

theorem division_store {block : List Byte} (targets : List Pbuf) (fits : offsetTo + block.length ≤ target.len) :
    division (target.store offsetTo block :: targets) = division (target :: targets) := by
  unfold division
  rw [List.map_cons, List.map_cons, len_store fits]

theorem length_rest (source : Pbuf) (offsetFrom : ℕ) :
    (source.payload.drop offsetFrom).length = source.len - offsetFrom :=
  List.length_drop

/-- The source pbuf ends first. -/
theorem next?_source_ends (fitting : Fitting target targets source sources offsetTo offsetFrom)
    (less : source.len - offsetFrom < target.len - offsetTo) :
    CopyPbufs.next? ⟨done, target :: targets, source :: sources, offsetTo, offsetFrom⟩ =
      some ⟨done, target.store offsetTo (source.payload.drop offsetFrom) :: targets, sources,
        offsetTo + (source.len - offsetFrom), 0⟩ := by
  have all := List.take_of_length_le (length_rest source offsetFrom).le
  have ended : source.len ≤ offsetFrom + (source.len - offsetFrom) := by omega
  have further : offsetTo + (source.len - offsetFrom) ≠ target.len := by omega
  have queue := (fitting.targetPacket.congr (division_store targets
    (show offsetTo + (source.payload.drop offsetFrom).length ≤ target.len by rw [length_rest]; omega))).not_queue
  have other := fitting.sourcePacket.2.2.not_queue
  simp only [CopyPbufs.next?, if_pos less.le, all, if_pos ended, if_neg further, queue, other, List.cons_ne_nil,
    false_and, Bool.false_eq_true, or_self, ite_false]

/-- Both end at once. -/
theorem next?_both_end (fitting : Fitting target targets source sources offsetTo offsetFrom)
    (same : source.len - offsetFrom = target.len - offsetTo) :
    CopyPbufs.next? ⟨done, target :: targets, source :: sources, offsetTo, offsetFrom⟩ =
      some ⟨done ++ [target.store offsetTo (source.payload.drop offsetFrom)], targets, sources, 0, 0⟩ := by
  have all := List.take_of_length_le (length_rest source offsetFrom).le
  have ended : source.len ≤ offsetFrom + (source.len - offsetFrom) := by omega
  have filled : offsetTo + (source.len - offsetFrom) = target.len := by
    have := fitting.inTarget
    omega
  have room : ¬ (targets = [] ∧ sources ≠ []) := by
    rintro ⟨rfl, some⟩
    refine some (fitting.sourcePacket.2.1 ?_)
    have enough : _ ≤ target.len + 0 + offsetFrom := fitting.enough
    have := fitting.inSource
    omega
  have queue := fitting.targetPacket.2.2.not_queue
  have other := fitting.sourcePacket.2.2.not_queue
  simp only [CopyPbufs.next?, if_pos same.le, all, if_pos ended, if_pos filled, queue, other, if_neg room,
    Bool.false_eq_true, or_self, ite_false]

/-- The target pbuf ends first. -/
theorem next?_target_ends (fitting : Fitting target targets source sources offsetTo offsetFrom)
    (more : target.len - offsetTo < source.len - offsetFrom) :
    CopyPbufs.next? ⟨done, target :: targets, source :: sources, offsetTo, offsetFrom⟩ =
      some ⟨done ++ [target.store offsetTo ((source.payload.drop offsetFrom).take (target.len - offsetTo))], targets,
        source :: sources, 0, offsetFrom + (target.len - offsetTo)⟩ := by
  have further : ¬ source.len ≤ offsetFrom + (target.len - offsetTo) := by omega
  have filled : offsetTo + (target.len - offsetTo) = target.len := by
    have := fitting.inTarget
    omega
  have room : targets ≠ [] := by
    rintro rfl
    have enough : _ ≤ target.len + 0 + offsetFrom := fitting.enough
    omega
  have queue := fitting.targetPacket.2.2.not_queue
  have other := fitting.sourcePacket.not_queue
  simp only [CopyPbufs.next?, if_neg (Nat.not_le.mpr more), if_neg further, if_pos filled, queue, other, room,
    false_and, Bool.false_eq_true, or_self, ite_false]

theorem content_rest (inside : offsetFrom ≤ source.len) :
    (content (source :: sources)).drop offsetFrom = source.payload.drop offsetFrom ++ content sources := by
  rw [content_cons]
  exact List.drop_append_of_le_length inside

/-- The target is as the loop is going to leave it. -/
structure Copied (loop : CopyPbufs) (t : List Pbuf) : Prop where
  bytes : content t = content loop.done ++
    overwrite (content loop.pTo) loop.offsetTo ((content loop.pFrom).drop loop.offsetFrom)
  same : division t = division (loop.done ++ loop.pTo)

theorem copied_end (loop : CopyPbufs) (ended : loop.pFrom = []) : Copied loop (loop.done ++ loop.pTo) where
  bytes := by rw [ended, content_nil, List.drop_nil, overwrite_nil, content_append]
  same := rfl

/-- The rest of the source pbuf goes into the target pbuf. -/
theorem Copied.source_ends {t : List Pbuf} (inSource : offsetFrom ≤ source.len)
    (less : offsetTo + (source.len - offsetFrom) ≤ target.len)
    (copied : Copied ⟨done, target.store offsetTo (source.payload.drop offsetFrom) :: targets, sources,
      offsetTo + (source.len - offsetFrom), 0⟩ t) :
    Copied ⟨done, target :: targets, source :: sources, offsetTo, offsetFrom⟩ t := by
  have length := length_rest source offsetFrom
  have fits : offsetTo + (source.payload.drop offsetFrom).length ≤ target.payload.length := by rwa [length]
  constructor
  · have written : content (target.store offsetTo (source.payload.drop offsetFrom) :: targets) =
        overwrite (content (target :: targets)) offsetTo (source.payload.drop offsetFrom) := by
      rw [content_cons, content_cons, overwrite_front fits]
      rfl
    rw [copied.bytes]
    dsimp only
    rw [content_rest inSource, overwrite_append (by rw [length, length_content, dataLen_cons]; omega), length, written,
      List.drop_zero]
  · have shape := division_store targets fits
    rw [copied.same]
    unfold division at shape ⊢
    rw [List.map_append, List.map_append, shape]

/-- The target pbuf is filled up. -/
theorem Copied.target_ends {t pFrom after : List Pbuf} {block : List Byte} {offset : ℕ}
    (meets : offsetTo + block.length = target.len)
    (data : (content pFrom).drop offsetFrom = block ++ (content after).drop offset)
    (copied : Copied ⟨done ++ [target.store offsetTo block], targets, after, 0, offset⟩ t) :
    Copied ⟨done, target :: targets, pFrom, offsetTo, offsetFrom⟩ t := by
  constructor
  · rw [copied.bytes]
    dsimp only
    rw [data, content_cons, overwrite_seam meets, content_append, content_cons, content_nil, List.append_nil,
      List.append_assoc]
    rfl
  · rw [copied.same]
    unfold division
    simp only [List.map_append, List.map_cons, List.append_assoc, List.singleton_append]
    rw [len_store meets.le]

/-- The loop ends with the data of the source in the target, behind what was there. -/
theorem copy_finish (done : List Pbuf) (fuel : ℕ)
    (fitting : Fitting target targets source sources offsetTo offsetFrom)
    (room : targets.length + sources.length < fuel) :
    ∃ t, CopyPbufs.finish fuel ⟨done, target :: targets, source :: sources, offsetTo, offsetFrom⟩ = some t ∧
      Copied ⟨done, target :: targets, source :: sources, offsetTo, offsetFrom⟩ t := by
  induction fuel generalizing done target targets source sources offsetTo offsetFrom with
  | zero => exact absurd room (Nat.not_lt_zero _)
  | succ fuel ih =>
    obtain ⟨inTarget, inSource, enough, targetPacket, sourcePacket⟩ := id fitting
    have length := length_rest source offsetFrom
    rw [CopyPbufs.finish]
    rcases Nat.lt_trichotomy (source.len - offsetFrom) (target.len - offsetTo) with less | same | more
    · rw [next?_source_ends fitting less, Option.bind_some]
      have fits : offsetTo + (source.len - offsetFrom) ≤ target.len := by omega
      cases sources with
      | nil => exact ⟨_, rfl, (copied_end _ rfl).source_ends inSource fits⟩
      | cons s ss =>
        have filled : offsetTo + (source.payload.drop offsetFrom).length ≤ target.len := by rwa [length]
        have written := len_store filled
        rw [dataLen_cons] at enough
        have after : Fitting (target.store offsetTo (source.payload.drop offsetFrom)) targets s ss
            (offsetTo + (source.len - offsetFrom)) 0 :=
          ⟨by omega, Nat.zero_le _, by omega, targetPacket.congr (division_store _ filled), sourcePacket.2.2⟩
        obtain ⟨t, returns, copied⟩ := ih done after (by rw [List.length_cons] at room; omega)
        exact ⟨t, returns, copied.source_ends inSource fits⟩
    · rw [next?_both_end fitting same, Option.bind_some]
      have meets : offsetTo + (source.payload.drop offsetFrom).length = target.len := by omega
      cases sources with
      | nil => exact ⟨_, rfl, (copied_end _ rfl).target_ends meets (content_rest inSource)⟩
      | cons s ss =>
        cases targets with
        | nil =>
          have empty : dataLen (s :: ss) = 0 := by
            have : _ ≤ target.len + 0 + offsetFrom := enough
            omega
          exact absurd (sourcePacket.2.1 empty) (List.cons_ne_nil s ss)
        | cons next ts =>
          rw [dataLen_cons, dataLen_cons] at enough
          have after : Fitting next ts s ss 0 0 :=
            ⟨Nat.zero_le _, Nat.zero_le _, by omega, targetPacket.2.2, sourcePacket.2.2⟩
          obtain ⟨t, returns, copied⟩ := ih (done ++ [target.store offsetTo (source.payload.drop offsetFrom)]) after
            (by simp only [List.length_cons] at room; omega)
          exact ⟨t, returns, copied.target_ends meets (content_rest inSource)⟩
    · rw [next?_target_ends fitting more, Option.bind_some]
      have taken : ((source.payload.drop offsetFrom).take (target.len - offsetTo)).length = target.len - offsetTo := by
        rw [List.length_take]
        omega
      have data : (content (source :: sources)).drop offsetFrom =
          (source.payload.drop offsetFrom).take (target.len - offsetTo) ++
            (content (source :: sources)).drop (offsetFrom + (target.len - offsetTo)) := by
        rw [content_rest inSource, content_rest (by omega), ← List.append_assoc, ← List.drop_drop,
          List.take_append_drop]
      cases targets with
      | nil =>
        have : _ ≤ target.len + 0 + offsetFrom := enough
        omega
      | cons next ts =>
        rw [dataLen_cons] at enough
        have after : Fitting next ts source sources 0 (offsetFrom + (target.len - offsetTo)) :=
          ⟨Nat.zero_le _, by omega, by omega, targetPacket.2.2, sourcePacket⟩
        obtain ⟨t, returns, copied⟩ := ih
          (done ++ [target.store offsetTo ((source.payload.drop offsetFrom).take (target.len - offsetTo))]) after
            (by rw [List.length_cons] at room; omega)
        exact ⟨t, returns, copied.target_ends (by omega) data⟩

/-- `pbuf_copy` of one packet into another that is long enough, whatever the two divisions are: the target
begins with the bytes of the source, and the rest and the division of it stay. -/
theorem pbuf_copy_copies (pTo pFrom : List Pbuf) (target : Packet pTo) (source : Packet pFrom)
    (some : pTo ≠ [] ∧ pFrom ≠ []) :
    if totLen pFrom ≤ totLen pTo then
      ∃ t, pbufCopy pTo pFrom = .some t ∧ content t = overwrite (content pTo) 0 (content pFrom) ∧
        division t = division pTo
    else pbufCopy pTo pFrom = none := by
  split
  · next enough =>
    have room := enough
    obtain ⟨first, next, rfl⟩ := List.exists_cons_of_ne_nil some.1
    obtain ⟨q, rest, rfl⟩ := List.exists_cons_of_ne_nil some.2
    rw [totLen_eq_dataLen target.1, totLen_eq_dataLen source.1, dataLen_cons, dataLen_cons] at room
    have fitting : Fitting first next q rest 0 0 :=
      ⟨Nat.zero_le _, Nat.zero_le _, by omega, target, source⟩
    obtain ⟨t, returns, copied⟩ := copy_finish [] ((first :: next).length + (q :: rest).length) fitting
      (by simp only [List.length_cons]; omega)
    exact ⟨t, by rw [pbufCopy, if_pos enough, returns], copied.bytes, copied.same⟩
  · next short => rw [pbufCopy, if_neg short]

/-- A packet of four pbufs, one of them empty, copied to two. -/
theorem pbuf_copy_fourToTwo :
    ∃ t, pbufCopy [⟨[0, 0, 0, 0, 0], 0⟩, ⟨[0, 0, 0, 7], 0⟩] [⟨[1, 2, 3], 0⟩, ⟨[], 0⟩,
      ⟨[4, 5], 0⟩, ⟨[6, 7, 8], 0⟩] = some t ∧ content t = [1, 2, 3, 4, 5, 6, 7, 8, 7] := by
  obtain ⟨t, returns, copied, _⟩ := pbuf_copy_copies
    [⟨[0, 0, 0, 0, 0], 0⟩, ⟨[0, 0, 0, 7], 0⟩] [⟨[1, 2, 3], 0⟩, ⟨[], 0⟩, ⟨[4, 5], 0⟩,
      ⟨[6, 7, 8], 0⟩]
    (by simp [Packet, dataLen, Pbuf.len]) (by simp [Packet, dataLen, Pbuf.len]) (by simp)
  exact ⟨t, returns, copied⟩

/-- `pbuf_coalesce` keeps the bytes, in one pbuf if there is memory for it. -/
theorem pbufCoalesce_content {p : List Pbuf} (packet : Packet p) (some : p ≠ []) {q : Option Pbuf}
    (room : ∀ pbuf ∈ q, pbuf.len = totLen p) :
    ∃ t, pbufCoalesce p q = .some t ∧ content t = content p ∧ (q.isSome → t.length = 1) := by
  obtain ⟨first, next, rfl⟩ := List.exists_cons_of_ne_nil some
  cases next with
  | nil => exact ⟨[first], rfl, rfl, fun _ => rfl⟩
  | cons second rest =>
    cases q with
    | none => exact ⟨first :: second :: rest, rfl, rfl, nofun⟩
    | some q =>
      have same := room q rfl
      have single : dataLen [q] = q.len := by rw [dataLen_cons]; rfl
      have small : totLen (first :: second :: rest) < 2 ^ 16 := Nat.mod_lt _ (by decide)
      have target : Packet [q] := ⟨by omega, fun _ => rfl, trivial⟩
      have copied := pbuf_copy_copies [q] (first :: second :: rest) target packet (by simp)
      rw [totLen_eq_dataLen target.1, single, if_pos (Nat.le_of_eq same.symm)] at copied
      obtain ⟨t, returns, bytes, shape⟩ := copied
      refine ⟨t, returns, ?_, fun _ => ?_⟩
      · have whole : (content (first :: second :: rest)).length = (content [q]).length := by
          rw [length_content, length_content, single, same, totLen_eq_dataLen packet.1]
        rw [bytes, overwrite_whole whole]
      · have length := congrArg List.length shape
        simpa only [division, List.length_map, List.length_singleton] using length

end Copy

section Search

variable {p q : List Pbuf} {s2 mem : List Byte}

/-- The bytes agree from some place on. -/
theorem memcmpLoop_eq_zero_iff (q : List Pbuf) (start : ℕ) (s2 : List Byte) (i : ℕ)
    (inside : start + i + s2.length ≤ dataLen q) (small : dataLen q < 2 ^ 16) :
    memcmpLoop q start s2 i = 0 ↔ s2 <+: (content q).drop (start + i) := by
  induction s2 generalizing i with
  | nil => exact iff_of_true rfl List.nil_prefix
  | cons b rest ih =>
    rw [List.length_cons] at inside
    have there : start + i < (content q).length := by
      rw [length_content]
      omega
    rw [memcmpLoop, Nat.mod_eq_of_lt (by omega), pbufGetAt_eq, List.getElem?_eq_getElem there, Option.getD_some,
      List.drop_eq_getElem_cons there, List.cons_prefix_cons]
    split
    · next differs =>
      refine iff_of_false (fun zero => ?_) fun both => differs both.1.symm
      have := congrArg BitVec.toNat zero
      rw [BitVec.toNat_ofNat, Nat.mod_eq_of_lt (by omega)] at this
      exact Nat.succ_ne_zero i this
    · next same =>
      rw [ih (i + 1) (by omega), ← Nat.add_assoc]
      exact (and_iff_right (not_not.mp same).symm).symm

/-- `pbuf_memcmp` returns 0 if and only if the bytes are there. -/
theorem pbufMemcmp_eq_zero_iff (small : dataLen p < 2 ^ 16) (offset : ℕ) :
    pbufMemcmp p offset s2 = 0 ↔ offset + s2.length ≤ dataLen p ∧ s2 <+: (content p).drop offset := by
  rw [pbufMemcmp, totLen_eq_dataLen small]
  split
  · next short => exact iff_of_false (by decide) fun both => absurd both.1 (Nat.not_le.mpr short)
  · next long =>
    obtain ⟨_, place, _⟩ := pbufSkip_spec p offset
    have split := content_skip p offset
    have total := congrArg List.length split
    simp only [List.length_append, length_content] at total
    have dropped : (content p).drop offset = (content (pbufSkip p offset).1).drop (pbufSkip p offset).2 := by
      rw [split, List.drop_append, List.drop_of_length_le (by rw [length_content]; omega), List.nil_append,
        length_content]
      congr 1
      omega
    rw [memcmpLoop_eq_zero_iff _ _ _ _ (by omega) (by omega), Nat.add_zero, and_iff_right (Nat.not_lt.mp long), dropped]

/-- Where a string is found, from some place on. -/
def Occurs (p : List Pbuf) (mem : List Byte) (startOffset : ℕ) : Set ℕ :=
  {i | startOffset ≤ i ∧ i + mem.length ≤ dataLen p ∧ mem <+: (content p).drop i}

theorem memfindLoop_eq (small : dataLen p < 0xffff) (fits : mem.length ≤ dataLen p) {max : BitVec 16}
    (last : max.toNat = dataLen p - mem.length) (fuel : ℕ) (i : BitVec 16) (inside : i.toNat ≤ max.toNat + 1)
    (enough : max.toNat + 1 - i.toNat < fuel) :
    ∃ r, memfindLoop p mem max fuel i = some r ∧
      (IsLeast (Occurs p mem i.toNat) r.toNat ∨ r = 0xffff ∧ Occurs p mem i.toNat = ∅) := by
  induction fuel generalizing i with
  | zero => exact absurd enough (Nat.not_lt_zero _)
  | succ fuel ih =>
    unfold memfindLoop
    split
    · next here =>
      have le := BitVec.le_def.mp here
      split
      · next found =>
        obtain ⟨bound, same⟩ := (pbufMemcmp_eq_zero_iff (by omega) i.toNat).mp found
        exact ⟨i, rfl, .inl ⟨⟨le_rfl, bound, same⟩, fun j other => other.1⟩⟩
      · next missing =>
        have next : (i + 1).toNat = i.toNat + 1 := by bv_omega
        obtain ⟨r, returns, rest⟩ := ih (i + 1) (by omega) (by omega)
        -- nothing is found here
        have later : Occurs p mem i.toNat = Occurs p mem (i + 1).toNat := by
          ext j
          simp only [Occurs, Set.mem_ofPred_eq, next]
          refine and_congr_left fun there => ⟨fun le => ?_, Nat.le_of_succ_le⟩
          refine Nat.lt_of_le_of_ne le ?_
          rintro rfl
          exact missing ((pbufMemcmp_eq_zero_iff (by omega) _).mpr there)
        exact ⟨r, returns, later ▸ rest⟩
    · next behind =>
      have gt := BitVec.not_le.mp behind
      refine ⟨0xffff, rfl, .inr ⟨rfl, Set.eq_empty_of_forall_notMem fun j there => ?_⟩⟩
      have := BitVec.lt_def.mp gt
      have := there.1
      have := there.2.1
      omega

/-- `pbuf_memfind` always returns, with the first place where the bytes are found, across all seams of the
chain, or with 0xffff if there is none; and `pbuf_strstr` does so with a string. -/
theorem memfind_isLeast (small : dataLen p < 0xffff) (fits : mem.length < 2 ^ 16) (startOffset : BitVec 16) :
    ∃ r, pbufMemfind p mem startOffset = some r ∧ (startOffset = 0 ∧ mem ≠ [] → pbufStrstr p mem = some r) ∧
      (IsLeast (Occurs p mem startOffset.toNat) r.toNat ∨ r = 0xffff ∧ Occurs p mem startOffset.toNat = ∅) := by
  have counted : totLen p = dataLen p := totLen_eq_dataLen (by omega)
  have found : ∃ r, pbufMemfind p mem startOffset = some r ∧
      (IsLeast (Occurs p mem startOffset.toNat) r.toNat ∨ r = 0xffff ∧ Occurs p mem startOffset.toNat = ∅) := by
    rw [pbufMemfind, counted]
    split
    · next enough =>
      have last : (BitVec.ofNat 16 (dataLen p) - BitVec.ofNat 16 mem.length).toNat = dataLen p - mem.length := by
        rw [BitVec.toNat_sub, BitVec.toNat_ofNat, BitVec.toNat_ofNat]
        omega
      exact memfindLoop_eq small (by omega) last _ startOffset (by omega) (by omega)
    · next short =>
      refine ⟨0xffff, rfl, .inr ⟨rfl, Set.eq_empty_of_forall_notMem fun j there => ?_⟩⟩
      have := there.1
      have := there.2.1
      omega
  obtain ⟨r, returns, first⟩ := found
  refine ⟨r, returns, ?_, first⟩
  rintro ⟨rfl, some⟩
  rw [pbufStrstr, counted, if_neg (by simp only [some, false_or]; omega)]
  split
  · next long =>
    rw [pbufMemfind, counted, if_neg (by omega)] at returns
    exact returns
  · exact returns

/-- The end of one pbuf and the beginning of the next. -/
theorem memfind_seam : ∃ r, pbufMemfind [⟨[1, 2], 0⟩, ⟨[3, 2, 3], 0⟩] [2, 3] 0 = some r ∧
    (IsLeast (Occurs [⟨[1, 2], 0⟩, ⟨[3, 2, 3], 0⟩] [2, 3] 0) r.toNat ∨
      r = 0xffff ∧ Occurs [⟨[1, 2], 0⟩, ⟨[3, 2, 3], 0⟩] [2, 3] 0 = ∅) := by
  obtain ⟨r, returns, _, first⟩ := memfind_isLeast (p := [⟨[1, 2], 0⟩, ⟨[3, 2, 3], 0⟩]) (by decide)
    (show [2, 3].length < 2 ^ 16 by decide) 0
  exact ⟨r, returns, first⟩

end Search

end WirelessSpeakers.Soundness
