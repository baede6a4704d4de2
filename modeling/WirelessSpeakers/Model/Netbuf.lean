import Mathlib.Data.BitVec
import WirelessSpeakers.Machine.Splice

/-! # Packet buffers of lwIP

A `netbuf` owns a chain of pbufs. Both applications look at it only through `netbuf_data`,
`netbuf_next` and `netbuf_copy`, the latter being `pbuf_copy_partial` at offset zero. Its loop is
given one iteration at a time, because an interrupt may fire between two of its copies. The `u16_t`
counters of that loop never wrap: they are bounded by the length asked for, and only the datagrams,
whose `tot_len` is looked at, carry the bound of its `u16_t`.
-/

namespace WirelessSpeakers.Model

abbrev Byte := BitVec 8
abbrev Port := BitVec 16

/-- One `struct pbuf`. lwIP trims a segment by setting `len` to zero in place, so the chain may hold
empty parts; a read through the payload pointer of such a part returns `stale`. -/
structure Pbuf where
  payload : List Byte
  stale : Byte := 0
deriving DecidableEq, Repr

namespace Pbuf

def len (p : Pbuf) : ℕ := p.payload.length

/-- The byte `*(uint8_t*)payload`, read without looking at `len`. -/
def first (p : Pbuf) : Byte := p.payload.headD p.stale

end Pbuf

/-- `struct netbuf` as `netconn_recv` returns it, with at least one pbuf. -/
structure Netbuf where
  p : Pbuf
  next : List Pbuf := []
deriving DecidableEq, Repr

namespace Netbuf

def chain (buf : Netbuf) : List Pbuf := buf.p :: buf.next

def totLen (buf : Netbuf) : ℕ := (buf.chain.map Pbuf.len).sum

/-- The whole message, across its pbufs. -/
def bytes (buf : Netbuf) : List Byte := buf.chain.flatMap Pbuf.payload

end Netbuf

/-- The variables of the loop in `pbuf_copy_partial`. -/
structure CopyLoop where
  p : List Pbuf
  len : ℕ
  offset : ℕ
  left : ℕ := 0
  copiedTotal : ℕ := 0
deriving DecidableEq, Repr

namespace CopyLoop

/-- One iteration: the block that `MEMCPY` stores at `left`, if it is reached, and the variables
after it. `none` is the end of the loop. -/
def next? (loop : CopyLoop) : Option (CopyLoop × List Byte) :=
  match loop.p with
  | [] => none
  | p :: rest =>
    if loop.len = 0 then none
    else if loop.offset ≠ 0 ∧ p.len ≤ loop.offset then
      some ({ loop with p := rest, offset := loop.offset - p.len }, [])
    else
      let bufCopyLen := min (p.len - loop.offset) loop.len
      some (⟨rest, loop.len - bufCopyLen, 0, loop.left + bufCopyLen, loop.copiedTotal + bufCopyLen⟩,
        (p.payload.drop loop.offset).take bufCopyLen)

/-- The rest of the loop, undisturbed; every iteration consumes one pbuf of the fuel. -/
def finish : ℕ → CopyLoop → (ℕ → Byte) → (ℕ → Byte) × ℕ
  | 0, loop, memory => (memory, loop.copiedTotal)
  | fuel + 1, loop, memory =>
    match loop.next? with
    | none => (memory, loop.copiedTotal)
    | some (next, block) => finish fuel next (splice memory loop.left block)

/-- Each iteration takes exactly one pbuf off the chain. -/
theorem next?_length {loop next : CopyLoop} {block : List Byte}
    (iteration : loop.next? = some (next, block)) : loop.p.length = next.p.length + 1 := by
  unfold next? at iteration
  split at iteration
  · contradiction
  · next p rest chain =>
    rw [chain, List.length_cons]
    split_ifs at iteration
    · cases iteration
      rfl
    · cases iteration
      rfl

end CopyLoop

/-- `netbuf_copy(buf, dataptr, len)` before its first iteration. -/
def Netbuf.copyLoop (buf : Netbuf) (len : ℕ) : CopyLoop := { p := buf.chain, len, offset := 0 }

/-- `pbuf_copy_partial(buf, dataptr, len, offset)`, as one operation: memory and result. -/
def pbufCopyPartial (buf : List Pbuf) (dataptr : ℕ → Byte) (len offset : ℕ) : (ℕ → Byte) × ℕ :=
  CopyLoop.finish buf.length { p := buf, len, offset } dataptr

/-- `netbuf_copy(buf, dataptr, len)`. -/
def netbufCopy (buf : Netbuf) (dataptr : ℕ → Byte) (len : ℕ) : (ℕ → Byte) × ℕ :=
  pbufCopyPartial buf.chain dataptr len 0

namespace CopyLoop

/-- From offset zero on, the loop copies what the chain holds up to the length. -/
theorem finish_eq_splice (p : List Pbuf) (len left copied : ℕ) (memory : ℕ → Byte) :
    (finish p.length ⟨p, len, 0, left, copied⟩ memory).1 =
      splice memory left ((p.flatMap Pbuf.payload).take len) := by
  induction p generalizing len left copied memory with
  | nil =>
    rw [List.flatMap_nil, List.take_nil, splice_nil]
    rfl
  | cons q rest ih =>
    rw [List.flatMap_cons, List.take_append, splice_append, List.length_cons, finish]
    by_cases stop : len = 0
    · subst stop
      rw [List.take_zero, List.length_nil, Nat.zero_sub, List.take_zero, splice_nil, splice_nil]
      rfl
    · have block : (q.payload.take len).length = min q.len len := by
        rw [List.length_take, Nat.min_comm]
        rfl
      have remaining : len - min q.len len = len - q.payload.length := by
        change _ = len - q.len
        omega
      simp only [next?, if_neg stop, ne_eq, not_true_eq_false, false_and, ite_false, Nat.sub_zero,
        List.drop_zero]
      rw [ih, remaining, block]
      congr 2
      have whole : q.payload.take q.len = q.payload := List.take_of_length_le le_rfl
      rw [Nat.min_comm, ← List.take_take, whole]

end CopyLoop

/-- `netbuf_copy` stores the beginning of the message and leaves the rest of the memory. -/
theorem fst_netbufCopy (buf : Netbuf) (dataptr : ℕ → Byte) (len : ℕ) :
    (netbufCopy buf dataptr len).1 = splice dataptr 0 (buf.bytes.take len) :=
  CopyLoop.finish_eq_splice buf.chain len 0 0 dataptr

end WirelessSpeakers.Model
