import WirelessSpeakers.Model.Netbuf

/-! # The double buffer and the playback interrupt

`buffer1`, `buffer2` and `buffer_flag` are shared between `UDP_thread` and `PIT0_IRQHandler`, and so
is the index `i`: a `uint16_t` for the handler, a `uint8_t` for the thread, one little-endian object
for the linker. Every byte of the buffers carries, as history, the ordinal of the datagram that
brought it; the program never looks at it.
-/

namespace WirelessSpeakers.Model

/-- `audio_buffer_sizes`. -/
def audioBufferSizes : ℕ := 750

/-- `sizeof(buffer1)`, two bytes per element. -/
def sizeofBuffer : ℕ := 2 * audioBufferSizes

/-- One byte of audio memory and the ordinal of the datagram that wrote it, if any did. -/
structure Cell where
  value : Byte
  origin : Option ℕ := none
deriving DecidableEq, Repr

inductive Buffer where
  | buffer1
  | buffer2
deriving DecidableEq, Repr

namespace Buffer

/-- The other one of the two. -/
def other : Buffer → Buffer
  | buffer1 => buffer2
  | buffer2 => buffer1

@[simp] theorem other_other (b : Buffer) : b.other.other = b := by cases b <;> rfl

theorem other_ne (b : Buffer) : b.other ≠ b := by cases b <;> decide

end Buffer

/-- One `uint16_t` element, as the two bytes it is made of. -/
structure Sample where
  lo : Cell
  hi : Cell
deriving DecidableEq, Repr

def Sample.value (sample : Sample) : BitVec 16 := sample.hi.value ++ sample.lo.value

/-- The audio state shared by thread and handler. -/
structure Speaker where
  buffer1 : ℕ → Cell
  buffer2 : ℕ → Cell
  bufferFlag : Bool
  i : BitVec 16

/-- `{ 2045 }`: the first element is 2045, the others are zero. -/
def initialBuffer : ℕ → Cell
  | 0 => ⟨0xFD, none⟩
  | 1 => ⟨0x07, none⟩
  | _ => ⟨0, none⟩

namespace Speaker

def initial : Speaker := ⟨initialBuffer, initialBuffer, false, 0⟩

def contents (speaker : Speaker) : Buffer → ℕ → Cell
  | .buffer1 => speaker.buffer1
  | .buffer2 => speaker.buffer2

/-- Element `k` of a buffer. -/
def sample (speaker : Speaker) (b : Buffer) (k : ℕ) : Sample :=
  ⟨speaker.contents b (2 * k), speaker.contents b (2 * k + 1)⟩

/-- One `MEMCPY` into a buffer. -/
def memcpy (speaker : Speaker) (b : Buffer) (left : ℕ) (block : List Cell) : Speaker :=
  match b with
  | .buffer1 => { speaker with buffer1 := splice speaker.buffer1 left block }
  | .buffer2 => { speaker with buffer2 := splice speaker.buffer2 left block }

/-- `i = 0` through `extern uint8_t i`: only the low byte is stored. -/
def clearIndex (speaker : Speaker) : Speaker := { speaker with i := speaker.i &&& 0xFF00 }

def setFlag (speaker : Speaker) (flag : Bool) : Speaker := { speaker with bufferFlag := flag }

/-- The buffer that `PIT0_IRQHandler` reads under the present flag. -/
def playing (speaker : Speaker) : Buffer :=
  if speaker.bufferFlag = false then .buffer1 else .buffer2

/-- The value that `PIT0_IRQHandler` passes to `DAC_SetBufferValue`. -/
def output (speaker : Speaker) : Sample := speaker.sample speaker.playing speaker.i.toNat

/-- `PIT0_IRQHandler`, up to the peripheral registers. -/
def pit0IrqHandler (speaker : Speaker) : Speaker × Sample :=
  ({ speaker with
      i := if speaker.i.toNat < audioBufferSizes - 1 then speaker.i + 1 else 0 }, speaker.output)

section Fields

variable (speaker : Speaker) (b c : Buffer) (left : ℕ) (block : List Cell) (flag : Bool)

theorem contents_memcpy : (speaker.memcpy b left block).contents c =
    if c = b then splice (speaker.contents b) left block else speaker.contents c := by
  cases b <;> cases c <;> rfl

@[simp] theorem bufferFlag_memcpy : (speaker.memcpy b left block).bufferFlag = speaker.bufferFlag := by
  cases b <;> rfl

@[simp] theorem playing_memcpy : (speaker.memcpy b left block).playing = speaker.playing := by
  simp only [playing, bufferFlag_memcpy]

@[simp] theorem contents_clearIndex : speaker.clearIndex.contents = speaker.contents := by
  funext b
  cases b <;> rfl

@[simp] theorem playing_clearIndex : speaker.clearIndex.playing = speaker.playing := rfl

@[simp] theorem contents_setFlag : (speaker.setFlag flag).contents = speaker.contents := by
  funext b
  cases b <;> rfl

@[simp] theorem contents_pit0IrqHandler :
    speaker.pit0IrqHandler.1.contents = speaker.contents := by
  funext b
  cases b <;> rfl

/-- The flag that the thread stores after filling `b` makes the handler play the other buffer. -/
theorem playing_setFlag_filled : (speaker.setFlag (b == .buffer1)).playing = b.other := by
  cases b <;> rfl

end Fields

end Speaker

end WirelessSpeakers.Model
