import Mathlib.Data.BitVec
import WirelessSpeakers.Machine.Masked

/-! # The clock registers of the K64

The MCG bank, and the few SIM and RTC registers that the RTC route uses. A register holds what was
last written to it. The status register `MCG->S` and the read-only parts of the RTC, which the
hardware changes by itself, are kept apart in `ClockStatus`.
-/

namespace WirelessSpeakers.Model

/-- The writable registers of the MCG. -/
structure Mcg where
  c1 : BitVec 8
  c2 : BitVec 8
  c3 : BitVec 8
  c4 : BitVec 8
  c5 : BitVec 8
  c6 : BitVec 8
  c7 : BitVec 8
  c8 : BitVec 8
  sc : BitVec 8
  atcvh : BitVec 8
  atcvl : BitVec 8
deriving DecidableEq, Repr

/-- `MCG_C1_CLKS_MASK`. -/
@[simp] def c1ClksMask : BitVec 8 := 0xC0

/-- `MCG_C1_FRDIV_MASK`. -/
@[simp] def c1FrdivMask : BitVec 8 := 0x38

/-- `MCG_C1_IREFS_MASK`. -/
@[simp] def c1IrefsMask : BitVec 8 := 0x04

/-- `MCG_C1_IRCLKEN_MASK`. -/
@[simp] def c1IrclkenMask : BitVec 8 := 0x02

/-- `MCG_C1_IREFSTEN_MASK`. -/
@[simp] def c1IrefstenMask : BitVec 8 := 0x01

/-- `MCG_C2_RANGE0_MASK`. -/
@[simp] def c2Range0Mask : BitVec 8 := 0x30

/-- `MCG_C2_HGO0_MASK`. -/
@[simp] def c2Hgo0Mask : BitVec 8 := 0x08

/-- `MCG_C2_EREFS0_MASK`. -/
@[simp] def c2Erefs0Mask : BitVec 8 := 0x04

/-- `MCG_C2_LP_MASK`. -/
@[simp] def c2LpMask : BitVec 8 := 0x02

/-- `MCG_C2_IRCS_MASK`. -/
@[simp] def c2IrcsMask : BitVec 8 := 0x01

/-- `MCG_C5_PRDIV0_MASK`. -/
@[simp] def c5Prdiv0Mask : BitVec 8 := 0x1F

/-- `MCG_C6_PLLS_MASK`. -/
@[simp] def c6PllsMask : BitVec 8 := 0x40

/-- `MCG_C6_CME0_MASK`. -/
@[simp] def c6Cme0Mask : BitVec 8 := 0x20

/-- `MCG_C6_VDIV0_MASK`. -/
@[simp] def c6Vdiv0Mask : BitVec 8 := 0x1F

/-- `MCG_C7_OSCSEL_MASK`. -/
@[simp] def c7OscselMask : BitVec 8 := 0x03

/-- `MCG_C8_CME1_MASK`. -/
@[simp] def c8Cme1Mask : BitVec 8 := 0x20

/-- `SIM_SCGC6_RTC_MASK`. -/
@[simp] def scgc6RtcMask : BitVec 32 := 0x20000000

/-- `RTC_SR_TCE_MASK`. -/
@[simp] def rtcSrTceMask : BitVec 32 := 0x10

/-- `RTC_CR_OSCE_MASK`. -/
@[simp] def rtcCrOsceMask : BitVec 32 := 0x100

/-- `MCG_C1_CLKS(x)`. -/
@[simp] def c1Clks (x : BitVec 8) : BitVec 8 := (x <<< 6) &&& c1ClksMask

/-- `MCG_C1_FRDIV(x)`. -/
@[simp] def c1Frdiv (x : BitVec 8) : BitVec 8 := (x <<< 3) &&& c1FrdivMask

/-- `MCG_C2_RANGE0(x)`. -/
@[simp] def c2Range0 (x : BitVec 8) : BitVec 8 := (x <<< 4) &&& c2Range0Mask

/-- `MCG_C5_PRDIV0(x)`. -/
@[simp] def c5Prdiv0 (x : BitVec 8) : BitVec 8 := x &&& c5Prdiv0Mask

/-- `MCG_C6_VDIV0(x)`. -/
@[simp] def c6Vdiv0 (x : BitVec 8) : BitVec 8 := x &&& c6Vdiv0Mask

namespace Mcg

variable (mcg : Mcg)

def clks : BitVec 2 := mcg.c1.extractLsb' 6 2

def frdiv : BitVec 3 := mcg.c1.extractLsb' 3 3

def irefs : Bool := mcg.c1[2]

def irclken : Bool := mcg.c1[1]

def irefsten : Bool := mcg.c1[0]

def locre0 : Bool := mcg.c2[7]

def fcftrim : Bool := mcg.c2[6]

def range0 : BitVec 2 := mcg.c2.extractLsb' 4 2

def hgo0 : Bool := mcg.c2[3]

def erefs0 : Bool := mcg.c2[2]

def lp : Bool := mcg.c2[1]

def ircs : Bool := mcg.c2[0]

def dmx32 : Bool := mcg.c4[7]

def drstDrs : BitVec 2 := mcg.c4.extractLsb' 5 2

def prdiv0 : BitVec 5 := mcg.c5.extractLsb' 0 5

/-- `C5` above `PRDIV0`. -/
def pllEnables : BitVec 3 := mcg.c5.extractLsb' 5 3

def lolie0 : Bool := mcg.c6[7]

def plls : Bool := mcg.c6[6]

def cme0 : Bool := mcg.c6[5]

def vdiv0 : BitVec 5 := mcg.c6.extractLsb' 0 5

def cme1 : Bool := mcg.c8[5]

def fcrdiv : BitVec 3 := mcg.sc.extractLsb' 1 3

end Mcg

/-- The MCG bank, `SIM->SCGC6`, and `RTC->SR`, `RTC->CR` and `RTC->TSR` as far as they are written. -/
structure ClockRegisters where
  mcg : Mcg
  scgc6 : BitVec 32
  rtcSr : BitVec 32
  rtcCr : BitVec 32
  rtcTsr : BitVec 32
deriving DecidableEq, Repr

/-- The fields of `MCG->S` that are read, `RTC_SR_TIF` and `RTC->TPR`. -/
structure ClockStatus where
  clkst : BitVec 2
  irefst : Bool
  pllst : Bool
  ircst : Bool
  oscinit0 : Bool
  lock0 : Bool
  tif : Bool
  tpr : BitVec 32
deriving DecidableEq, Repr

/-- A masked assignment to one register: `reg &= ~clear; reg |= set`. -/
inductive ClockEdit where
  | c1 (clear set : BitVec 8)
  | c2 (clear set : BitVec 8)
  | c5 (clear set : BitVec 8)
  | c6 (clear set : BitVec 8)
  | c7 (clear set : BitVec 8)
  | c8 (clear set : BitVec 8)
  | scgc6 (clear set : BitVec 32)
  | rtcSr (clear set : BitVec 32)
  | rtcCr (clear set : BitVec 32)
  | rtcTsr (clear set : BitVec 32)
deriving DecidableEq, Repr

/-- What an assignment leaves. -/
def ClockEdit.apply : ClockEdit → ClockRegisters → ClockRegisters
  | c1 clear set, r => { r with mcg := { r.mcg with c1 := assign r.mcg.c1 clear set } }
  | c2 clear set, r => { r with mcg := { r.mcg with c2 := assign r.mcg.c2 clear set } }
  | c5 clear set, r => { r with mcg := { r.mcg with c5 := assign r.mcg.c5 clear set } }
  | c6 clear set, r => { r with mcg := { r.mcg with c6 := assign r.mcg.c6 clear set } }
  | c7 clear set, r => { r with mcg := { r.mcg with c7 := assign r.mcg.c7 clear set } }
  | c8 clear set, r => { r with mcg := { r.mcg with c8 := assign r.mcg.c8 clear set } }
  | scgc6 clear set, r => { r with scgc6 := assign r.scgc6 clear set }
  | rtcSr clear set, r => { r with rtcSr := assign r.rtcSr clear set }
  | rtcCr clear set, r => { r with rtcCr := assign r.rtcCr clear set }
  | rtcTsr clear set, r => { r with rtcTsr := assign r.rtcTsr clear set }

end WirelessSpeakers.Model
