import Mathlib.Data.Finset.Insert
import WirelessSpeakers.Machine.RefCount
import WirelessSpeakers.Model.RamHeap

/-! # The pbufs of lwIP in memory

`pbuf.c` with its three sources of memory: the heap for `PBUF_RAM`, and the pools `MEMP_PBUF_POOL` and
`MEMP_PBUF`, whose free elements are the lists of `memp.c`. Custom pbufs, which only IP fragmentation
makes, are left out, and so are calls with NULL, which an assertion stops. `none` is a system that
stands still or that touches memory which it has given back.
-/

namespace WirelessSpeakers.Model

open Counted

inductive PbufLayer
  | transport
  | ip
  | link
  | rawTx
  | raw
deriving DecidableEq, Repr

inductive PbufType
  | ram
  | rom
  | ref
  | pool
deriving DecidableEq, Repr

def pbufLinkEncapsulationHlen : ℕ := 0
def pbufLinkHlen : ℕ := 14
def pbufIpHlen : ℕ := 20
def pbufTransportHlen : ℕ := 20

/-- The room for headers that a layer asks for. -/
def PbufLayer.offset : PbufLayer → ℕ
  | .transport => pbufLinkEncapsulationHlen + pbufLinkHlen + pbufIpHlen + pbufTransportHlen
  | .ip => pbufLinkEncapsulationHlen + pbufLinkHlen + pbufIpHlen
  | .link => pbufLinkEncapsulationHlen + pbufLinkHlen
  | .rawTx => pbufLinkEncapsulationHlen
  | .raw => 0

def sizeofStructPbuf : ℕ := 16
def pbufPoolBufsizeAligned : ℕ := 1516
def pbufPoolSize : ℕ := 9
def mempNumPbuf : ℕ := 15

/-- Where a pbuf lies: at an offset of the heap, or in an element of a pool. -/
inductive PbufAddr
  | ram (rmem : ℕ)
  | pool (element : ℕ)
  | ref (element : ℕ)
deriving DecidableEq, Repr

/-- `struct pbuf`. The payload pointer of RAM and POOL is counted from the pbuf itself, that of ROM and
REF is an address of somebody else. -/
structure StructPbuf where
  next : Option PbufAddr := none
  payload : ℤ := 0
  totLen : BitVec 16 := 0
  len : BitVec 16 := 0
  type : PbufType := .ram
  ref : BitVec 16 := 0
deriving DecidableEq, Repr

/-- What lies in memory, and which pbufs are allocated. -/
structure PbufStore where
  heap : RamHeap := .memInit
  poolTab : List ℕ := (List.range pbufPoolSize).reverse
  pbufTab : List ℕ := (List.range mempNumPbuf).reverse
  live : Finset PbufAddr := ∅
  pbufs : PbufAddr → StructPbuf := fun _ => {}

namespace PbufStore

/-- Only allocated memory may be looked at. -/
def read (s : PbufStore) (p : PbufAddr) : Option StructPbuf := if p ∈ s.live then some (s.pbufs p) else none

def write (s : PbufStore) (p : PbufAddr) (pbuf : StructPbuf) : PbufStore :=
  { s with pbufs := Function.update s.pbufs p pbuf }

/-- Allocated memory becomes a pbuf. -/
def init (s : PbufStore) (p : PbufAddr) (pbuf : StructPbuf) : PbufStore :=
  { s with live := insert p s.live, pbufs := Function.update s.pbufs p pbuf }

/-- `memp_free` or `mem_free`, as the type says. -/
def dealloc (s : PbufStore) (p : PbufAddr) (type : PbufType) : Option PbufStore :=
  match type, p with
  | .pool, .pool element => some { s with poolTab := element :: s.poolTab, live := s.live.erase p }
  | .rom, .ref element => some { s with pbufTab := element :: s.pbufTab, live := s.live.erase p }
  | .ref, .ref element => some { s with pbufTab := element :: s.pbufTab, live := s.live.erase p }
  | .ram, .ram rmem => (s.heap.memFree (some rmem)).map fun heap => { s with heap, live := s.live.erase p }
  | _, _ => none

/-- One iteration of the loop in `pbuf_free`: whether it counted a pbuf, and the next `p`. -/
def freeNext (s : PbufStore) (p : PbufAddr) : Option (PbufStore × Bool × Option PbufAddr) :=
  (s.read p).bind fun pbuf =>
    if pbuf.ref = 0 then none
    else
      let ref := pbuf.ref - 1
      let lowered := s.write p { pbuf with ref }
      if ref = 0 then (lowered.dealloc p pbuf.type).map fun freed => (freed, true, pbuf.next)
      else some (lowered, false, none)

/-- The loop of `pbuf_free`, with its counter. -/
def freeWalk : ℕ → PbufStore → Option PbufAddr → BitVec 8 → Option (PbufStore × BitVec 8)
  | _, s, none, count => some (s, count)
  | 0, _, some _, _ => none
  | fuel + 1, s, some p, count => (s.freeNext p).bind fun (s, counted, next) =>
    freeWalk fuel s next (if counted then count + 1 else count)

/-- `pbuf_free(p)`. -/
def pbufFree (s : PbufStore) (p : PbufAddr) : Option (PbufStore × BitVec 8) :=
  s.freeWalk (s.live.card + 1) (some p) 0

/-- A further pbuf of the chain that `pbuf_alloc` makes, with `rem_len` bytes from here on. -/
def tailPbuf (remLen : ℕ) : StructPbuf where
  payload := sizeofStructPbuf
  totLen := .ofNat 16 remLen
  len := .ofNat 16 (min remLen pbufPoolBufsizeAligned)
  type := .pool
  ref := 1

/-- The loop of `pbuf_alloc` that takes further pbufs from the free ones of the pool. -/
def allocTail (head : PbufAddr) : List ℕ → PbufStore → PbufAddr → ℕ → Option (PbufStore × Option PbufAddr)
  | poolTab, s, r, remLen =>
    if 0 < remLen then
      match poolTab with
      | [] => (s.pbufFree head).map fun (s, _) => (s, none)
      | element :: rest =>
        let q := PbufAddr.pool element
        if remLen < 0xffff then
          let linked := { s with poolTab := rest }.write r { s.pbufs r with next := some q }
          allocTail head rest (linked.init q (tailPbuf remLen)) q (remLen - min remLen pbufPoolBufsizeAligned)
        else none
    else some (s, some head)

/-- The first pbuf of that chain, with room for the headers. -/
def headPbuf (layer : PbufLayer) (length : BitVec 16) : StructPbuf where
  payload := memAlignSize (sizeofStructPbuf + layer.offset)
  totLen := length
  len := .ofNat 16 (min length.toNat (pbufPoolBufsizeAligned - memAlignSize layer.offset))
  type := .pool
  ref := 1

/-- `pbuf_alloc(layer, length, PBUF_POOL)`. -/
def allocPool (s : PbufStore) (layer : PbufLayer) (length : BitVec 16) : Option (PbufStore × Option PbufAddr) :=
  match s.poolTab with
  | [] => some (s, none)
  | element :: rest =>
    let p := PbufAddr.pool element
    let pbuf := headPbuf layer length
    if pbuf.payload + pbuf.len.toNat ≤ sizeofStructPbuf + pbufPoolBufsizeAligned then
      allocTail p rest ({ s with poolTab := rest }.init p pbuf) p (length.toNat - pbuf.len.toNat)
    else none

/-- `pbuf_alloc(layer, length, PBUF_RAM)`. -/
def allocRam (s : PbufStore) (layer : PbufLayer) (length : BitVec 16) : Option (PbufStore × Option PbufAddr) :=
  let allocLen := BitVec.ofNat 16 (memAlignSize (sizeofStructPbuf + layer.offset) + memAlignSize length.toNat)
  if allocLen.toNat < memAlignSize length.toNat then some (s, none)
  else (s.heap.memMalloc allocLen).map fun
    | (heap, none) => ({ s with heap }, none)
    | (heap, some rmem) => ({ s with heap }.init (.ram rmem)
      { payload := memAlignSize (sizeofStructPbuf + layer.offset), totLen := length, len := length, ref := 1 },
      some (.ram rmem))

/-- `pbuf_alloc(layer, length, PBUF_ROM)` and `pbuf_alloc(layer, length, PBUF_REF)`. -/
def allocRef (s : PbufStore) (length : BitVec 16) (type : PbufType) : PbufStore × Option PbufAddr :=
  match s.pbufTab with
  | [] => (s, none)
  | element :: rest =>
    ({ s with pbufTab := rest }.init (.ref element) { totLen := length, len := length, type, ref := 1 },
      some (.ref element))

/-- `pbuf_alloc(layer, length, type)`. -/
def pbufAlloc (s : PbufStore) (layer : PbufLayer) (length : BitVec 16) :
    PbufType → Option (PbufStore × Option PbufAddr)
  | .pool => s.allocPool layer length
  | .ram => s.allocRam layer length
  | .rom => some (s.allocRef length .rom)
  | .ref => some (s.allocRef length .ref)

/-- `pbuf_ref(p)`. -/
def pbufRef (s : PbufStore) (p : PbufAddr) : Option PbufStore :=
  (s.read p).bind fun pbuf =>
    let ref := pbuf.ref + 1
    if ref = 0 then none else some (s.write p { pbuf with ref })

/-- The loop of `pbuf_cat`: `p` at its end. -/
def catWalk (t : PbufAddr) : ℕ → PbufStore → PbufAddr → Option (PbufStore × PbufAddr)
  | 0, _, _ => none
  | fuel + 1, s, p => (s.read p).bind fun pbuf =>
    match pbuf.next with
    | none => some (s, p)
    | some next => (s.read t).bind fun tail =>
      catWalk t fuel (s.write p { pbuf with totLen := pbuf.totLen + tail.totLen }) next

/-- `pbuf_cat(h, t)`. -/
def pbufCat (s : PbufStore) (h t : PbufAddr) : Option PbufStore :=
  (s.catWalk t (s.live.card + 1) h).bind fun (s, p) =>
    (s.read p).bind fun pbuf =>
      if pbuf.totLen = pbuf.len then (s.read t).map fun tail =>
        s.write p { pbuf with totLen := pbuf.totLen + tail.totLen, next := some t }
      else none

/-- `pbuf_chain(h, t)`. -/
def pbufChain (s : PbufStore) (h t : PbufAddr) : Option PbufStore :=
  (s.pbufCat h t).bind fun s => s.pbufRef t

/-- `pbuf_dechain(p)`, with the pointer that it returns. -/
def pbufDechain (s : PbufStore) (p : PbufAddr) : Option (PbufStore × Option PbufAddr) :=
  (s.read p).bind fun pbuf =>
    match pbuf.next with
    | none => if pbuf.totLen = pbuf.len then some (s, none) else none
    | some q => (s.read q).bind fun tail =>
      if (tail.totLen.toNat : ℤ) = pbuf.totLen.toNat - pbuf.len.toNat then
        let decoupled := (s.write q { tail with totLen := pbuf.totLen - pbuf.len }).write p
          { pbuf with next := none, totLen := pbuf.len }
        (decoupled.pbufFree q).map fun (s, tailGone) => (s, if 0 < tailGone then none else some q)
      else none

/-- The loop of `pbuf_realloc`: `q` and `rem_len` at its end. -/
def reallocWalk (grow : BitVec 16) :
    ℕ → PbufStore → PbufAddr → BitVec 16 → Option (PbufStore × PbufAddr × BitVec 16)
  | 0, _, _, _ => none
  | fuel + 1, s, q, remLen => (s.read q).bind fun pbuf =>
    if pbuf.len < remLen then pbuf.next.bind fun next =>
      reallocWalk grow fuel (s.write q { pbuf with totLen := pbuf.totLen + grow }) next (remLen - pbuf.len)
    else some (s, q, remLen)

/-- `mem_trim` on a pbuf that keeps `rem_len` bytes of its payload, with the pointer that it returns. -/
def trim (s : PbufStore) (q : PbufAddr) (pbuf : StructPbuf) (remLen : BitVec 16) :
    Option (PbufStore × PbufAddr) :=
  match q with
  | .ram rmem => (s.heap.memTrim rmem (BitVec.ofInt 16 pbuf.payload + remLen)).bind fun (heap, trimmed) =>
    trimmed.map fun rmem => ({ s with heap }, .ram rmem)
  | _ => none

/-- The end of `pbuf_realloc`: what is behind the new last pbuf is freed, before its pointer is cleared. -/
def cutOff (s : PbufStore) (q : PbufAddr) : Option PbufAddr → Option PbufStore
  | none => (s.read q).map fun pbuf => s.write q { pbuf with next := none }
  | some next => (s.pbufFree next).bind fun (s, _) =>
    (s.read q).map fun pbuf => s.write q { pbuf with next := none }

/-- `pbuf_realloc(p, new_len)`. -/
def pbufRealloc (s : PbufStore) (p : PbufAddr) (newLen : BitVec 16) : Option PbufStore :=
  (s.read p).bind fun head =>
    if head.totLen ≤ newLen then some s
    else (s.reallocWalk (newLen - head.totLen) (s.live.card + 1) p newLen).bind fun (s, q, remLen) =>
      (s.read q).bind fun pbuf =>
        (if pbuf.type = .ram ∧ remLen ≠ pbuf.len then s.trim q pbuf remLen else some (s, q)).bind fun (s, q) =>
          (s.write q { pbuf with len := remLen, totLen := remLen }).cutOff q pbuf.next

/-- `pbuf_header_impl(p, header_size_increment, force)`, and whether it failed. -/
def pbufHeaderImpl (s : PbufStore) (p : PbufAddr) (headerSizeIncrement : BitVec 16) (force : Bool) :
    Option (PbufStore × Bool) :=
  (s.read p).bind fun pbuf =>
    if headerSizeIncrement = 0 then some (s, false)
    else if headerSizeIncrement.toInt < 0 ∧ ¬ -headerSizeIncrement.toInt ≤ pbuf.len.toNat then none
    else
      let payload := pbuf.payload - headerSizeIncrement.toInt
      let len := pbuf.len + headerSizeIncrement
      let moved := s.write p { pbuf with payload, len, totLen := pbuf.totLen + headerSizeIncrement }
      match pbuf.type with
      | .ram | .pool => some (if payload < sizeofStructPbuf then (s, true) else (moved, false))
      | .ref | .rom => some (if headerSizeIncrement.toInt < 0 ∨ force then (moved, false) else (s, true))

/-- `pbuf_header(p, header_size_increment)`. -/
def pbufHeader (s : PbufStore) (p : PbufAddr) (headerSizeIncrement : BitVec 16) : Option (PbufStore × Bool) :=
  s.pbufHeaderImpl p headerSizeIncrement false

/-- `pbuf_header_force(p, header_size_increment)`. -/
def pbufHeaderForce (s : PbufStore) (p : PbufAddr) (headerSizeIncrement : BitVec 16) :
    Option (PbufStore × Bool) :=
  s.pbufHeaderImpl p headerSizeIncrement true

/-- What `netbuf_ref` does to the pbuf that it has allocated. -/
def refer (s : PbufStore) (p : PbufAddr) (dataptr : ℤ) (size : BitVec 16) : Option PbufStore :=
  (s.read p).map fun pbuf => s.write p { pbuf with payload := dataptr, len := size, totLen := size }

/-- The pbufs from `p` on. -/
def chainFrom (s : PbufStore) : ℕ → Option PbufAddr → List PbufAddr
  | fuel + 1, some p => p :: s.chainFrom fuel (s.pbufs p).next
  | _, _ => []

def chain (s : PbufStore) (p : PbufAddr) : List PbufAddr := s.chainFrom s.live.card (some p)

end PbufStore

inductive PbufCall
  | alloc (layer : PbufLayer) (length : BitVec 16) (type : PbufType)
  /-- `pbuf_free` is called. -/
  | free (p : PbufAddr)
  /-- An iteration of a loop in `pbuf_free` that has come to `p`. -/
  | iterate (p : PbufAddr)
  | ref (p : PbufAddr)
  | cat (h t : PbufAddr)
  | chain (h t : PbufAddr)
  | dechain (p : PbufAddr)
  | realloc (p : PbufAddr) (newLen : BitVec 16)
  | header (p : PbufAddr) (headerSizeIncrement : BitVec 16) (force : Bool)
  | refer (p : PbufAddr) (dataptr : ℤ) (size : BitVec 16)
deriving DecidableEq, Repr

/-- The pbufs, the references that have not been given back, and the `p` of every `pbuf_free` that is
under way. -/
structure PbufUse where
  store : PbufStore := {}
  handles : Multiset PbufAddr := 0
  walks : Multiset PbufAddr := 0

namespace PbufUse

/-- One call, or one iteration of `pbuf_free`, which other threads may interrupt. Only an allocated pbuf
may be handed over, `free` and the tail of `cat` give up a reference, and a pbuf is not put behind a
chain that it is part of. -/
def step (s : PbufUse) : PbufCall → Option PbufUse
  | .alloc layer length type => (s.store.pbufAlloc layer length type).map fun (store, p) =>
    { s with store, handles := pointee p + s.handles }
  | .free p =>
    if p ∈ s.handles then some { s with handles := s.handles.erase p, walks := p ::ₘ s.walks } else none
  | .iterate p =>
    if p ∈ s.walks then (s.store.freeNext p).map fun (store, _, next) =>
      { s with store, walks := pointee next + s.walks.erase p }
    else none
  | .ref p =>
    if p ∈ s.store.live then (s.store.pbufRef p).map fun store => { s with store, handles := p ::ₘ s.handles }
    else none
  | .cat h t =>
    if h ∈ s.store.live ∧ t ∈ s.handles ∧ ∀ a ∈ s.store.chain h, a ∉ s.store.chain t then
      (s.store.pbufCat h t).map fun store => { s with store, handles := s.handles.erase t }
    else none
  | .chain h t =>
    if h ∈ s.store.live ∧ t ∈ s.store.live ∧ ∀ a ∈ s.store.chain h, a ∉ s.store.chain t then
      (s.store.pbufChain h t).map fun store => { s with store }
    else none
  | .dechain p =>
    if p ∈ s.store.live then (s.store.pbufDechain p).map fun (store, _) => { s with store } else none
  | .realloc p newLen =>
    if p ∈ s.store.live then (s.store.pbufRealloc p newLen).map fun store => { s with store } else none
  | .header p headerSizeIncrement force =>
    if p ∈ s.store.live then
      (s.store.pbufHeaderImpl p headerSizeIncrement force).map fun (store, _) => { s with store }
    else none
  | .refer p dataptr size =>
    if p ∈ s.store.live ∧ ((s.store.pbufs p).type = .ref ∨ (s.store.pbufs p).type = .rom) then
      (s.store.refer p dataptr size).map fun store => { s with store }
    else none

end PbufUse

def pbufUse : TapeMachine PbufUse PbufCall := ⟨{}, PbufUse.step⟩

end WirelessSpeakers.Model
