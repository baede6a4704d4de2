import Mathlib.Data.BitVec

/-! # PIT and DAC registers, and the code that drives them

`AudioConfig` and `AudioOutput` are straight-line scripts of register operations, run by two
different threads. A `|=` or `&=` on a `TCTRL` register is a load and a later store, and the other
thread may run in between; every other operation is one access. Setting up the DAC, clocks and the
NVIC touches no register that is modelled here.
-/

namespace WirelessSpeakers.Model

inductive Chnl where
  | chnl0
  | chnl1
deriving DecidableEq, Repr

/-- The read-modify-write operations on a `TCTRL` register. -/
inductive TctrlOp where
  | enableInterrupts
  | startTimer
  | stopTimer
deriving DecidableEq, Repr

/-- `PIT_TCTRL_TEN_MASK`. -/
def tenMask : BitVec 32 := 0x1

/-- `PIT_TCTRL_TIE_MASK`. -/
def tieMask : BitVec 32 := 0x2

namespace TctrlOp

/-- What the operation stores, from what it loaded. -/
def modify : TctrlOp → BitVec 32 → BitVec 32
  | enableInterrupts, tctrl => tctrl ||| tieMask
  | startTimer, tctrl => tctrl ||| tenMask
  | stopTimer, tctrl => tctrl &&& ~~~tenMask

end TctrlOp

inductive RegOp where
  | dacConfig
  | pitInit
  | setTimerPeriod (chnl : Chnl) (count : BitVec 32)
  | tctrl (chnl : Chnl) (op : TctrlOp)
  | dacSetBufferValue (value : BitVec 16)
deriving DecidableEq, Repr

/-- `USEC_TO_COUNT`, narrowed to the `uint32_t` parameter of `PIT_SetTimerPeriod`. -/
def usecToCount (us clock : ℕ) : BitVec 32 := BitVec.ofNat 32 (us * clock / 1000000)

/-- `MSEC_TO_COUNT`, narrowed likewise. -/
def msecToCount (ms clock : ℕ) : BitVec 32 := BitVec.ofNat 32 (ms * clock / 1000)

/-- `PIT_ConfigAndStart`. -/
def pitConfigAndStart (busClock : ℕ) (chnl : Chnl) (usecs : ℕ) : List RegOp :=
  [.pitInit,
    .setTimerPeriod chnl (match chnl with
      | .chnl0 => usecToCount usecs busClock
      | .chnl1 => msecToCount usecs busClock),
    .tctrl chnl .enableInterrupts,
    .tctrl chnl .startTimer]

/-- `AudioConfig`. -/
def audioConfig (busClock tx : ℕ) : List RegOp :=
  .dacConfig :: (pitConfigAndStart busClock .chnl0 tx ++ pitConfigAndStart busClock .chnl1 1000)

/-- `AudioOutput`: the argument 1 starts the timer, any other one stops it and silences the DAC. -/
def audioOutput (onOff : BitVec 8) : List RegOp :=
  if onOff = 1 then [.tctrl .chnl0 .startTimer]
  else [.tctrl .chnl0 .stopTimer, .dacSetBufferValue 0]

/-- One bus access of a script. -/
inductive Access where
  | load (chnl : Chnl) (tctrl : BitVec 32)
  | store (chnl : Chnl) (op : TctrlOp) (tctrl : BitVec 32)
  | whole (op : RegOp)
deriving DecidableEq, Repr

/-- The operations left to do, and the `TCTRL` value that the first of them has loaded. -/
structure Script where
  ops : List RegOp
  latch : Option (BitVec 32) := none
deriving DecidableEq, Repr

/-- One access of the thread that runs the script. -/
def Script.step (script : Script) : Access → Option Script
  | .load chnl value =>
    match script.ops, script.latch with
    | .tctrl chnl' _ :: _, none =>
      if chnl' = chnl then some { script with latch := some value } else none
    | _, _ => none
  | .store chnl op value =>
    match script.ops, script.latch with
    | .tctrl chnl' op' :: rest, some loaded =>
      if chnl' = chnl ∧ op' = op ∧ value = op.modify loaded then some ⟨rest, none⟩ else none
    | _, _ => none
  | .whole op =>
    match script.ops, op with
    | _, .tctrl _ _ => none
    | op' :: rest, _ => if op' = op then some ⟨rest, none⟩ else none
    | [], _ => none

namespace Script

variable {script rest : Script}

theorem step_load {chnl : Chnl} {value : BitVec 32} (step : script.step (.load chnl value) = some rest) :
    rest.ops = script.ops := by
  simp only [Script.step] at step
  split at step
  · split_ifs at step
    cases step
    rfl
  · contradiction

/-- A store ends the read-modify-write operation at the head of the script. -/
theorem step_store {chnl : Chnl} {op : TctrlOp} {value : BitVec 32}
    (step : script.step (.store chnl op value) = some rest) :
    script.ops = .tctrl chnl op :: rest.ops ∧ ∃ loaded, value = op.modify loaded := by
  simp only [Script.step] at step
  split at step
  · next chnl' op' tail loaded ops latch =>
    split_ifs at step with same
    obtain ⟨rfl, rfl, rfl⟩ := same
    cases step
    exact ⟨ops, loaded, rfl⟩
  · contradiction

theorem step_whole {op : RegOp} (step : script.step (.whole op) = some rest) :
    script.ops = op :: rest.ops ∧ ∀ chnl tctrlOp, op ≠ .tctrl chnl tctrlOp := by
  simp only [Script.step] at step
  split at step
  · contradiction
  · next op' tail ops single =>
    split_ifs at step with same
    cases same
    cases step
    exact ⟨ops, fun chnl tctrlOp => single chnl tctrlOp⟩
  · contradiction

end Script

structure PitChannel where
  ldval : BitVec 32 := 0
  tctrl : BitVec 32 := 0
deriving DecidableEq, Repr

/-- The registers of the PIT channels in use, and data register 0 of the DAC. -/
structure Peripherals where
  mcr : BitVec 32 := 0x6
  channel0 : PitChannel := {}
  channel1 : PitChannel := {}
  datl : BitVec 8 := 0
  dath : BitVec 8 := 0
deriving DecidableEq, Repr

namespace Peripherals

def channel (regs : Peripherals) : Chnl → PitChannel
  | .chnl0 => regs.channel0
  | .chnl1 => regs.channel1

def setChannel (regs : Peripherals) (chnl : Chnl) (channel : PitChannel) : Peripherals :=
  match chnl with
  | .chnl0 => { regs with channel0 := channel }
  | .chnl1 => { regs with channel1 := channel }

/-- `DAC_SetBufferValue(DAC0, 0, value)`. -/
def dacSetBufferValue (regs : Peripherals) (value : BitVec 16) : Peripherals :=
  { regs with
    datl := (value &&& 0xFF).setWidth 8
    dath := ((value &&& 0xF00) >>> 8).setWidth 8 }

/-- The response of the registers to one access; a load returns the register's value. -/
def access (regs : Peripherals) : Access → Option Peripherals
  | .load chnl value => if (regs.channel chnl).tctrl = value then some regs else none
  | .store chnl _ value => some (regs.setChannel chnl { regs.channel chnl with tctrl := value })
  | .whole .pitInit => some { regs with mcr := (regs.mcr &&& ~~~0x2) ||| 0x1 }
  | .whole (.setTimerPeriod chnl count) =>
    some (regs.setChannel chnl { regs.channel chnl with ldval := count })
  | .whole (.dacSetBufferValue value) => some (regs.dacSetBufferValue value)
  | .whole .dacConfig => some regs
  | .whole (.tctrl _ _) => none

/-- Whether the enable bit `TEN` of channel 0 is set. -/
def running (regs : Peripherals) : Bool := regs.channel0.tctrl.getLsbD 0

/-- Only a store to its `TCTRL` register starts or stops channel 0. -/
theorem running_access {regs later : Peripherals} {access : Access}
    (success : regs.access access = some later) :
    later.running = match access with
      | .store .chnl0 _ value => value.getLsbD 0
      | _ => regs.running := by
  cases access with
  | load chnl value =>
    simp only [Peripherals.access] at success
    split_ifs at success
    cases success
    rfl
  | store chnl op value =>
    cases success
    cases chnl <;> rfl
  | whole op =>
    cases op with
    | setTimerPeriod chnl count =>
      cases success
      cases chnl <;> rfl
    | tctrl chnl op => contradiction
    | _ => cases success; rfl

end Peripherals

/-- The accesses that a script has left, counted with both halves of each read-modify-write. -/
def Script.weight (script : Script) : ℕ :=
  2 * script.ops.length + (if script.latch = none then 1 else 0)

/-- A script that is not at its end can always go on. -/
theorem Script.enabled {script : Script} (unfinished : script.ops ≠ []) (regs : Peripherals) :
    ∃ access rest later, script.step access = some rest ∧ regs.access access = some later ∧
      rest.weight < script.weight := by
  rcases script with ⟨_ | ⟨op, ops⟩, latch⟩
  · contradiction
  · have lighter : Script.weight ⟨ops, none⟩ < Script.weight ⟨op :: ops, latch⟩ := by
      simp only [weight, List.length_cons, if_true]
      omega
    cases op with
    | tctrl chnl tctrlOp =>
      cases latch with
      | none =>
        refine ⟨.load chnl (regs.channel chnl).tctrl, _, regs, if_pos rfl, if_pos rfl, ?_⟩
        simp [weight]
      | some loaded =>
        refine ⟨.store chnl tctrlOp (tctrlOp.modify loaded), ⟨ops, none⟩, _, ?_, rfl, lighter⟩
        simp [Script.step]
    | dacConfig => exact ⟨.whole .dacConfig, ⟨ops, none⟩, _, rfl, rfl, lighter⟩
    | pitInit => exact ⟨.whole .pitInit, ⟨ops, none⟩, _, rfl, rfl, lighter⟩
    | setTimerPeriod chnl count =>
      exact ⟨.whole (.setTimerPeriod chnl count), ⟨ops, none⟩, _, if_pos rfl, rfl, lighter⟩
    | dacSetBufferValue value =>
      exact ⟨.whole (.dacSetBufferValue value), ⟨ops, none⟩, _, if_pos rfl, rfl, lighter⟩

/-- What each read-modify-write operation makes of the enable bit. -/
theorem TctrlOp.getLsbD_modify (op : TctrlOp) (tctrl : BitVec 32) :
    (op.modify tctrl).getLsbD 0 = match op with
      | .enableInterrupts => tctrl.getLsbD 0
      | .startTimer => true
      | .stopTimer => false := by
  cases op <;> simp [modify, tenMask, tieMask]

end WirelessSpeakers.Model
