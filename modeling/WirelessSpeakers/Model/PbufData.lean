import WirelessSpeakers.Machine.Overwrite
import WirelessSpeakers.Model.Netbuf

/-! # Reading and writing the data of a chain

The functions of `pbuf.c` that look at payloads, on the chain from the pbuf that they are handed. `tot_len`
is what its invariant says, the number of bytes from a pbuf on as far as 16 bits can hold it. `none` is a system
that stands still, in a failing assertion or in a loop without an end.
-/

namespace WirelessSpeakers.Model

/-- `p->tot_len` of the first pbuf, a `u16_t`. -/
def totLen (p : List Pbuf) : ℕ := (p.map Pbuf.len).sum % 2 ^ 16

/-- `MEMCPY` into a payload. -/
def Pbuf.store (p : Pbuf) (offset : ℕ) (block : List Byte) : Pbuf :=
  { p with payload := overwrite p.payload offset block }

/-- `pbuf_skip(in, in_offset, out_offset)`: the chain from the pbuf with the byte at the offset, and where
it is in there. -/
def pbufSkip : List Pbuf → ℕ → List Pbuf × ℕ
  | [], offsetLeft => ([], offsetLeft)
  | q :: next, offsetLeft =>
    if q.len ≤ offsetLeft then pbufSkip next (offsetLeft - q.len) else (q :: next, offsetLeft)

/-- What `pbuf_skip` goes past. -/
def pbufSkipped : List Pbuf → ℕ → List Pbuf
  | [], _ => []
  | q :: next, offsetLeft => if q.len ≤ offsetLeft then q :: pbufSkipped next (offsetLeft - q.len) else []

/-- The loop of `pbuf_take`. -/
def takeLoop : List Pbuf → List Byte → Option (List Pbuf)
  | p, [] => some p
  | [], _ :: _ => none
  | p :: next, dataptr => (takeLoop next (dataptr.drop p.len)).map (p.store 0 (dataptr.take p.len) :: ·)

/-- `pbuf_take(buf, dataptr, len)`. -/
def pbufTake (buf : List Pbuf) (dataptr : List Byte) : Option (List Pbuf) :=
  if dataptr.length ≤ totLen buf then takeLoop buf dataptr else none

/-- `pbuf_take_at(buf, dataptr, len, offset)`, and whether it returned `ERR_OK` (otherwise `ERR_MEM`). -/
def pbufTakeAt (buf : List Pbuf) (dataptr : List Byte) (offset : ℕ) : Option (List Pbuf × Bool) :=
  match pbufSkip buf offset with
  | ([], _) => some (buf, false)
  | (q :: next, targetOffset) =>
    if targetOffset + dataptr.length ≤ totLen (q :: next) then
      let firstCopyLen := min (q.len - targetOffset) dataptr.length
      let first := q.store targetOffset (dataptr.take firstCopyLen)
      if 0 < dataptr.length - firstCopyLen then
        (pbufTake next (dataptr.drop firstCopyLen)).map fun next => (pbufSkipped buf offset ++ first :: next, true)
      else some (pbufSkipped buf offset ++ first :: next, true)
    else some (buf, false)

/-- `pbuf_try_get_at(p, offset)`, with `none` for -1. -/
def pbufTryGetAt (p : List Pbuf) (offset : ℕ) : Option Byte :=
  match pbufSkip p offset with
  | ([], _) => none
  | (q :: _, qIdx) => q.payload[qIdx]?

/-- `pbuf_get_at(p, offset)`. -/
def pbufGetAt (p : List Pbuf) (offset : ℕ) : Byte := (pbufTryGetAt p offset).getD 0

/-- `pbuf_put_at(p, offset, data)`. -/
def pbufPutAt (p : List Pbuf) (offset : ℕ) (data : Byte) : List Pbuf :=
  match pbufSkip p offset with
  | ([], _) => p
  | (q :: next, qIdx) => if qIdx < q.len then pbufSkipped p offset ++ q.store qIdx [data] :: next else p

/-- The variables of the loop in `pbuf_copy`, and the part of the target that is behind `p_to`. -/
structure CopyPbufs where
  done : List Pbuf := []
  pTo : List Pbuf
  pFrom : List Pbuf
  offsetTo : ℕ := 0
  offsetFrom : ℕ := 0
deriving DecidableEq, Repr

/-- One more packet behind the first pbuf, as far as `len` and `tot_len` tell. -/
def isPacketQueue : List Pbuf → Bool
  | [] => false
  | p :: next => p.len = totLen (p :: next) ∧ next ≠ []

/-- One iteration of `pbuf_copy`. -/
def CopyPbufs.next? (loop : CopyPbufs) : Option CopyPbufs :=
  match loop.pTo, loop.pFrom with
  | target :: targets, source :: sources =>
    let len := if source.len - loop.offsetFrom ≤ target.len - loop.offsetTo then source.len - loop.offsetFrom
      else target.len - loop.offsetTo
    let written := target.store loop.offsetTo ((source.payload.drop loop.offsetFrom).take len)
    let offsetTo := loop.offsetTo + len
    let offsetFrom := loop.offsetFrom + len
    let (pFrom, offsetFrom) := if source.len ≤ offsetFrom then (sources, 0) else (source :: sources, offsetFrom)
    let (done, pTo, offsetTo) :=
      if offsetTo = target.len then (loop.done ++ [written], targets, 0) else (loop.done, written :: targets, offsetTo)
    if pTo = [] ∧ pFrom ≠ [] then none
    else if isPacketQueue pFrom ∨ isPacketQueue pTo then none
    else some ⟨done, pTo, pFrom, offsetTo, offsetFrom⟩
  | _, _ => none

/-- The loop of `pbuf_copy`; every iteration takes a pbuf off one of the chains. -/
def CopyPbufs.finish : ℕ → CopyPbufs → Option (List Pbuf)
  | 0, _ => none
  | fuel + 1, loop => loop.next?.bind fun loop =>
    if loop.pFrom = [] then some (loop.done ++ loop.pTo) else finish fuel loop

/-- `pbuf_copy(p_to, p_from)`, which returns `ERR_OK` if it returns. -/
def pbufCopy (pTo pFrom : List Pbuf) : Option (List Pbuf) :=
  if totLen pFrom ≤ totLen pTo then CopyPbufs.finish (pTo.length + pFrom.length) { pTo, pFrom } else none

/-- `pbuf_coalesce(p, layer)`, where `q` is what `pbuf_alloc` returned for the whole length. -/
def pbufCoalesce (p : List Pbuf) (q : Option Pbuf) : Option (List Pbuf) :=
  match p, q with
  | [_], _ => some p
  | _, none => some p
  | _, some q => pbufCopy [q] p

/-- The loop of `pbuf_memcmp`. -/
def memcmpLoop (q : List Pbuf) (start : ℕ) : List Byte → ℕ → BitVec 16
  | [], _ => 0
  | b :: s2, i => if pbufGetAt q ((start + i) % 2 ^ 16) ≠ b then .ofNat 16 (i + 1) else memcmpLoop q start s2 (i + 1)

/-- `pbuf_memcmp(p, offset, s2, n)`. -/
def pbufMemcmp (p : List Pbuf) (offset : ℕ) (s2 : List Byte) : BitVec 16 :=
  if totLen p < offset + s2.length then 0xffff
  else memcmpLoop (pbufSkip p offset).1 (pbufSkip p offset).2 s2 0

/-- The loop of `pbuf_memfind`. -/
def memfindLoop (p : List Pbuf) (mem : List Byte) (max : BitVec 16) : ℕ → BitVec 16 → Option (BitVec 16)
  | 0, _ => none
  | fuel + 1, i =>
    if i ≤ max then if pbufMemcmp p i.toNat mem = 0 then some i else memfindLoop p mem max fuel (i + 1)
    else some 0xffff

/-- `pbuf_memfind(p, mem, mem_len, start_offset)`. -/
def pbufMemfind (p : List Pbuf) (mem : List Byte) (startOffset : BitVec 16) : Option (BitVec 16) :=
  if mem.length + startOffset.toNat ≤ totLen p then
    memfindLoop p mem (BitVec.ofNat 16 (totLen p) - BitVec.ofNat 16 mem.length) (2 ^ 16 + 1) startOffset
  else some 0xffff

/-- `pbuf_strstr(p, substr)`, on the characters of the string. -/
def pbufStrstr (p : List Pbuf) (substr : List Byte) : Option (BitVec 16) :=
  if substr = [] ∨ totLen p = 0xffff then some 0xffff
  else if 0xffff ≤ substr.length then some 0xffff
  else pbufMemfind p substr 0

end WirelessSpeakers.Model
