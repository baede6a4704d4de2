import Mathlib.Data.BitVec
import Mathlib.Logic.Function.Basic
import WirelessSpeakers.Machine.Tape

/-! # The heap of lwIP

`mem.c` with `MEM_SIZE` of 22 KiB: every block starts with a `struct mem` that links it to both
neighbours by their offsets in `ram`, `lfree` is the lowest free block and `ram_end` closes the list.
Pointers are offsets from `ram`. A `mem_size_t` has 16 bits; `LWIP_MEM_ALIGN_SIZE` computes in 32 and
its result is cut when it is stored. `none` is a system that stands still: an assertion fails, or a
walk does not come to an end.
-/

namespace WirelessSpeakers.Model

/-- `struct mem`. -/
structure Mem where
  next : ℕ
  prev : ℕ
  used : Bool
deriving DecidableEq, Repr

def memAlignment : ℕ := 4
def sizeofStructMem : ℕ := 8
def minSizeAligned : ℕ := 12
def memSizeAligned : ℕ := 22528

/-- `LWIP_MEM_ALIGN_SIZE`, in the arithmetic of an `unsigned int`. -/
def memAlignSize (size : ℕ) : ℕ := (size + (memAlignment - 1)) / memAlignment * memAlignment

/-- The `mem_size_t` that holds an integer. -/
def memSize (n : ℤ) : ℕ := (n % 2 ^ 16).toNat

/-- A difference of offsets in the arithmetic of `size_t`. -/
def sizeT (n : ℤ) : ℕ := (n % 2 ^ 32).toNat

/-- The size of a block for a request: aligned, and `MIN_SIZE_ALIGNED` at least. -/
def blockSize (size : BitVec 16) : ℕ :=
  let aligned := memSize (memAlignSize size.toNat)
  if aligned < minSizeAligned then minSizeAligned else aligned

/-- `ram` as the headers at its offsets, and `lfree`. -/
structure RamHeap where
  ram : ℕ → Mem
  lfree : ℕ

namespace RamHeap

def setNext (heap : RamHeap) (mem next : ℕ) : RamHeap :=
  { heap with ram := Function.update heap.ram mem { heap.ram mem with next } }

def setPrev (heap : RamHeap) (mem prev : ℕ) : RamHeap :=
  { heap with ram := Function.update heap.ram mem { heap.ram mem with prev } }

def setUsed (heap : RamHeap) (mem : ℕ) (used : Bool) : RamHeap :=
  { heap with ram := Function.update heap.ram mem { heap.ram mem with used } }

def setMem (heap : RamHeap) (mem : ℕ) (header : Mem) : RamHeap :=
  { heap with ram := Function.update heap.ram mem header }

section Lfree

variable (heap : RamHeap) (mem place : ℕ) (used : Bool) (header : Mem)

@[simp] theorem setNext_lfree : (heap.setNext mem place).lfree = heap.lfree := rfl
@[simp] theorem setPrev_lfree : (heap.setPrev mem place).lfree = heap.lfree := rfl
@[simp] theorem setUsed_lfree : (heap.setUsed mem used).lfree = heap.lfree := rfl
@[simp] theorem setMem_lfree : (heap.setMem mem header).lfree = heap.lfree := rfl

end Lfree

/-- `mem_init()`. -/
def memInit : RamHeap where
  ram k :=
    if k = 0 then ⟨memSizeAligned, 0, false⟩
    else if k = memSizeAligned then ⟨memSizeAligned, memSizeAligned, true⟩
    else ⟨0, 0, false⟩
  lfree := 0

/-- `plug_holes`, the part that joins a block with the next one. -/
def plugForward (heap : RamHeap) (mem : ℕ) : RamHeap :=
  let nmem := (heap.ram mem).next
  if mem ≠ nmem ∧ (heap.ram nmem).used = false ∧ nmem ≠ memSizeAligned then
    let behind := (heap.ram nmem).next
    ({ heap with lfree := if heap.lfree = nmem then mem else heap.lfree }.setNext mem behind).setPrev behind mem
  else heap

/-- `plug_holes`, the part that joins a block with the one before. -/
def plugBackward (heap : RamHeap) (mem : ℕ) : RamHeap :=
  let pmem := (heap.ram mem).prev
  if pmem ≠ mem ∧ (heap.ram pmem).used = false then
    let behind := (heap.ram mem).next
    ({ heap with lfree := if heap.lfree = mem then pmem else heap.lfree }.setNext pmem behind).setPrev behind pmem
  else heap

/-- `plug_holes(mem)`. -/
def plugHoles (heap : RamHeap) (mem : ℕ) : Option RamHeap :=
  if mem < memSizeAligned ∧ (heap.ram mem).used = false ∧ (heap.ram mem).next ≤ memSizeAligned then
    some ((heap.plugForward mem).plugBackward mem)
  else none

/-- `mem_free(rmem)`. -/
def memFree (heap : RamHeap) : Option ℕ → Option RamHeap
  | none => some heap
  | some rmem =>
    let mem := rmem - sizeofStructMem
    if rmem % memAlignment = 0 ∧ rmem < memSizeAligned ∧ (heap.ram mem).used then
      let freed := heap.setUsed mem false
      { freed with lfree := if mem < freed.lfree then mem else freed.lfree }.plugHoles mem
    else none

/-- `mem_trim(rmem, newsize)`, with the pointer that it returns. -/
def memTrim (heap : RamHeap) (rmem : ℕ) (newsize : BitVec 16) : Option (RamHeap × Option ℕ) :=
  let newsize := blockSize newsize
  if memSizeAligned < newsize then some (heap, none)
  else if rmem < memSizeAligned then
    let mem := rmem - sizeofStructMem
    let ptr := mem
    let size := memSize ((heap.ram mem).next - ptr - sizeofStructMem)
    if newsize ≤ size then
      if newsize = size then some (heap, some rmem)
      else
        let mem2 := (heap.ram mem).next
        let ptr2 := ptr + sizeofStructMem + newsize
        if (heap.ram mem2).used = false then
          let next := (heap.ram mem2).next
          let moved := { heap with lfree := if heap.lfree = mem2 then ptr2 else heap.lfree }
          let linked := (moved.setMem ptr2 ⟨next, ptr, false⟩).setNext mem ptr2
          some (if next ≠ memSizeAligned then linked.setPrev next ptr2 else linked, some rmem)
        else if newsize + sizeofStructMem + minSizeAligned ≤ size then
          let moved := { heap with lfree := if ptr2 < heap.lfree then ptr2 else heap.lfree }
          let linked := (moved.setMem ptr2 ⟨(heap.ram mem).next, ptr, false⟩).setNext mem ptr2
          some (if mem2 ≠ memSizeAligned then linked.setPrev mem2 ptr2 else linked, some rmem)
        else some (heap, some rmem)
    else none
  else none

/-- The scan of `mem_malloc` from `ptr` on: the block that it takes, if there is one. -/
def scan (heap : RamHeap) (size : ℕ) : ℕ → ℕ → Option (Option ℕ)
  | 0, _ => none
  | fuel + 1, ptr =>
    if ptr < memSizeAligned - size then
      let mem := heap.ram ptr
      if mem.used = false ∧ size ≤ sizeT (mem.next - (ptr + sizeofStructMem)) then some (some ptr)
      else heap.scan size fuel mem.next
    else some none

/-- `while (cur->used && cur != ram_end)`: the next block that is free. -/
def nextFree (heap : RamHeap) : ℕ → ℕ → Option ℕ
  | 0, _ => none
  | fuel + 1, cur =>
    if (heap.ram cur).used ∧ cur ≠ memSizeAligned then heap.nextFree fuel (heap.ram cur).next else some cur

/-- The block at `ptr` is taken, and what it has too much is split off. -/
def take (heap : RamHeap) (size ptr : ℕ) : RamHeap :=
  let mem := heap.ram ptr
  if size + sizeofStructMem + minSizeAligned ≤ sizeT (mem.next - (ptr + sizeofStructMem)) then
    let ptr2 := ptr + sizeofStructMem + size
    let split := ((heap.setMem ptr2 ⟨mem.next, ptr, false⟩).setNext ptr ptr2).setUsed ptr true
    if mem.next ≠ memSizeAligned then split.setPrev mem.next ptr2 else split
  else heap.setUsed ptr true

/-- The label `mem_malloc_adjust_lfree`. -/
def adjustLfree (heap : RamHeap) (mem : ℕ) : Option RamHeap :=
  if mem = heap.lfree then (heap.nextFree (memSizeAligned + 1) heap.lfree).bind fun cur =>
    if cur = memSizeAligned ∨ (heap.ram cur).used = false then some { heap with lfree := cur } else none
  else some heap

/-- `mem_malloc(size)`, with the pointer that it returns. -/
def memMalloc (heap : RamHeap) (size : BitVec 16) : Option (RamHeap × Option ℕ) :=
  if size = 0 then some (heap, none)
  else
    let size := blockSize size
    if memSizeAligned < size then some (heap, none)
    else
      (heap.scan size (memSizeAligned + 1) heap.lfree).bind fun
        | none => some (heap, none)
        | some mem => ((heap.take size mem).adjustLfree mem).bind fun heap =>
          if mem + sizeofStructMem + size ≤ memSizeAligned ∧ (mem + sizeofStructMem) % memAlignment = 0 then
            some (heap, some (mem + sizeofStructMem))
          else none

end RamHeap

/-- A pointer that was returned, and the size that was asked for. -/
structure Allocation where
  rmem : ℕ
  size : BitVec 16
deriving DecidableEq, Repr

/-- The offset of its header. -/
def Allocation.mem (a : Allocation) : ℕ := a.rmem - sizeofStructMem

inductive HeapCall
  | malloc (size : BitVec 16)
  | free (rmem : ℕ)
  | trim (rmem : ℕ) (newsize : BitVec 16)
deriving DecidableEq, Repr

/-- The heap, and the pointers that have not been given back. -/
structure HeapUse where
  heap : RamHeap := .memInit
  live : List Allocation := []

namespace HeapUse

/-- A successful trim is a request for the smaller size. -/
def resize (live : List Allocation) (rmem : ℕ) (newsize : BitVec 16) : List Allocation :=
  live.map fun a => if a.rmem = rmem then { a with size := newsize } else a

/-- One call under the mutex. Only a pointer that is live may be given back or trimmed. -/
def step (s : HeapUse) : HeapCall → Option HeapUse
  | .malloc size => (s.heap.memMalloc size).map fun (heap, rmem) =>
    ⟨heap, (rmem.map fun rmem => ⟨rmem, size⟩).toList ++ s.live⟩
  | .free rmem =>
    if rmem ∈ s.live.map Allocation.rmem then
      (s.heap.memFree (some rmem)).map fun heap => ⟨heap, s.live.filter (·.rmem ≠ rmem)⟩
    else none
  | .trim rmem newsize =>
    if rmem ∈ s.live.map Allocation.rmem then
      (s.heap.memTrim rmem newsize).map fun (heap, trimmed) =>
        ⟨heap, if trimmed.isSome then resize s.live rmem newsize else s.live⟩
    else none

end HeapUse

def heapUse : TapeMachine HeapUse HeapCall := ⟨{}, HeapUse.step⟩

end WirelessSpeakers.Model
