import Mathlib.Data.Int.Init
import WirelessSpeakers.Machine.Program
import WirelessSpeakers.Model.ClockRegisters

/-! # The MCG driver

The mode transitions of `MCG.c`, statement by statement, as programs that sample `MCG->S` and store
into the registers. Every read of the status is a sample of its own. What several functions do in the
same words (the mode guard, a range check, a poll, the oscillator set-up) is one definition with
parameters. An error return is a failure with the code, the final return is the result.
-/

namespace WirelessSpeakers.Model

/-- What a C `int` holds after an assignment. -/
def int (x : ℤ) : ℤ := x.bmod (2 ^ 32)

/-- What a C `short` holds after an assignment. -/
def short (x : ℤ) : ℤ := x.bmod (2 ^ 16)

abbrev ClockDriver := Program ClockRegisters ClockStatus ℤ

namespace ClockDriver

open Program

def edit (e : ClockEdit) : ClockDriver Unit := write e.apply

def onlyIf (cond : Bool) (p : ClockDriver Unit) : ClockDriver Unit := if cond then p else pure ()

/-- C's `&&`: the right operand is read only if the left one holds. -/
def andThen (p q : ClockDriver Bool) : ClockDriver Bool := do
  if ← p then q else pure false

end ClockDriver

/-- The MCG mode defines. -/
inductive ClockMode where
  | blpi
  | fbi
  | fei
  | fee
  | fbe
  | blpe
  | pbe
  | pee
deriving DecidableEq, Repr

namespace ClockMode

/-- The `CLKST` a mode test looks for. -/
def clkst : ClockMode → BitVec 2
  | fei | fee => 0
  | fbi | blpi => 1
  | fbe | blpe | pbe => 2
  | pee => 3

/-- The `IREFST` a mode test looks for. -/
def irefst : ClockMode → Bool
  | fei | fbi | blpi => true
  | fee | fbe | blpe | pbe | pee => false

/-- The `PLLST` a mode test looks for. BLPE is recognised without it. -/
def pllst : ClockMode → Option Bool
  | fei | fee | fbi | blpi | fbe => some false
  | pbe | pee => some true
  | blpe => none

/-- The `C2[LP]` a mode test looks for. -/
def lp : ClockMode → Option Bool
  | fbi | fbe | pbe => some false
  | blpi | blpe => some true
  | fei | fee | pee => none

/-- The code a transition returns when it is called outside its starting mode. -/
def guardCode : ClockMode → ℤ
  | fei => 0x1
  | fee => 0x2
  | fbi => 0x3
  | fbe => 0x4
  | blpi => 0x5
  | blpe => 0x6
  | pbe => 0x7
  | pee => 0x8

end ClockMode

open Program ClockDriver

/-- The test for one mode, the same in every guard and in `what_mcg_mode`. -/
def inMode (mode : ClockMode) : ClockDriver Bool :=
  andThen (see fun s => s.clkst == mode.clkst) <|
  andThen (see fun s => s.irefst == mode.irefst) <|
  andThen (match mode.pllst with
    | some b => see fun s => s.pllst == b
    | none => pure true) <|
  match mode.lp with
    | some b => look fun r => r.mcg.lp == b
    | none => pure true

/-- The guard of a transition out of `mode`. -/
def requireMode (mode : ClockMode) : ClockDriver Unit := do
  failIf (¬ (← inMode mode)) mode.guardCode

/-- The first of these modes whose test succeeds. -/
def firstMode : List ClockMode → ClockDriver (Option ClockMode)
  | [] => pure none
  | mode :: rest => do if ← inMode mode then pure (some mode) else firstMode rest

/-- `what_mcg_mode`; `none` stands for its error value 0. -/
def whatMcgMode : ClockDriver (Option ClockMode) :=
  firstMode [.fei, .pee, .pbe, .fbe, .blpe, .blpi, .fbi, .fee]

/-- The multiplier of the FLL, by `DMX32` and `DRST_DRS`. -/
def fllMultiplier (dmx32 : Bool) (drs : BitVec 2) : ℤ :=
  match dmx32, drs.toNat with
  | true, 0 => 732
  | true, 1 => 1464
  | true, 2 => 2197
  | true, _ => 2929
  | false, 0 => 640
  | false, 1 => 1280
  | false, 2 => 1920
  | false, _ => 2560

/-- The lowest and highest FLL frequency for `DRST_DRS`, with the codes for missing them. -/
def fllRange (drs : BitVec 2) : ℤ × ℤ × ℤ × ℤ :=
  match drs.toNat with
  | 0 => (20000000, 25000000, 0x33, 0x34)
  | 1 => (40000000, 50000000, 0x35, 0x36)
  | 2 => (60000000, 75000000, 0x37, 0x38)
  | _ => (80000000, 100000000, 0x39, 0x3A)

/-- `fll_freq`. -/
def Mcg.fllFreq (mcg : Mcg) (fllRef : ℤ) : ℤ :=
  let (lowest, highest, below, above) := fllRange mcg.drstDrs
  let fllFreqHz := int (fllRef * fllMultiplier mcg.dmx32 mcg.drstDrs)
  if fllFreqHz < lowest then below else if fllFreqHz > highest then above else fllFreqHz

/-- The check that follows a call of `fll_freq`. -/
def checkFll (fllRef : ℤ) : ClockDriver ℤ := do
  let mcgOut ← look fun r => r.mcg.fllFreq fllRef
  failIf (mcgOut < 0x5B) mcgOut
  pure mcgOut

/-- The slow internal reference is within its limits. -/
def checkSlowIrc (slowIrcFreq : ℤ) : ClockDriver Unit :=
  failIf (slowIrcFreq < 31250 ∨ slowIrcFreq > 39063) 0x31

/-- The frequency matches the selected internal reference. -/
def checkIrc (ircFreq : ℤ) (ircSelect : BitVec 8) : ClockDriver Unit :=
  if ircSelect = 0 then checkSlowIrc ircFreq
  else failIf (ircFreq < 3000000 ∨ ircFreq > 5000000) 0x32

/-- The frequency of the internal reference as `MCGOUT`. -/
def ircOut (ircFreq : ℤ) (ircSelect : BitVec 8) : ClockDriver ℤ :=
  if ircSelect ≠ 0 then do
    let fcrdivVal ← look fun r => (2 ^ r.mcg.fcrdiv.toNat : ℤ)
    pure (ircFreq.tdiv fcrdivVal)
  else pure ircFreq

def waitOscinit (n : ℕ) : ClockDriver Unit := wait n (fun s => s.oscinit0) 0x23

def waitIrefst (b : Bool) : ClockDriver Unit :=
  wait 2000 (fun s => s.irefst == b) (if b then 0x12 else 0x11)

def waitIrcst (b : Bool) : ClockDriver Unit :=
  wait 2000 (fun s => s.ircst == b) (if b then 0x14 else 0x13)

def waitPllst (b : Bool) : ClockDriver Unit :=
  wait 2000 (fun s => s.pllst == b) (if b then 0x16 else 0x15)

/-- The code for a `CLKST` that does not show up. -/
def clkstCode (x : BitVec 2) : ℤ :=
  match x.toNat with
  | 0 => 0x18
  | 1 => 0x19
  | 2 => 0x1A
  | _ => 0x1B

def waitClkst (x : BitVec 2) : ClockDriver Unit := wait 2000 (fun s => s.clkst == x) (clkstCode x)

def waitLock (n : ℕ) : ClockDriver Unit := wait n (fun s => s.lock0) 0x44

def checkCrystalMax (crystalVal : ℤ) : ClockDriver Unit := failIf (crystalVal > 50000000) 0x21

/-- A crystal has to be in one of the two bands of the oscillator. -/
def checkCrystal (crystalVal : ℤ) (erefsVal : BitVec 8) : ClockDriver Unit :=
  onlyIf (erefsVal ≠ 0) <|
    failIf (crystalVal < 30000 ∨ (crystalVal > 40000 ∧ crystalVal < 3000000) ∨
      crystalVal > 32000000) 0x22

/-- `RANGE0` by external frequency. -/
def rangeVal (crystalVal : ℤ) : BitVec 8 :=
  if crystalVal ≤ 40000 then 0 else if crystalVal ≤ 8000000 then 1 else 2

/-- `FRDIV` by external frequency. -/
def frdivVal (crystalVal : ℤ) : BitVec 8 :=
  if crystalVal ≤ 1250000 then 0
  else if crystalVal ≤ 2500000 then 1
  else if crystalVal ≤ 5000000 then 2
  else if crystalVal ≤ 10000000 then 3
  else if crystalVal ≤ 20000000 then 4
  else 5

/-- The write of the oscillator fields of `C2`; `hgo_val` is forced to 0 or 1 before. -/
def oscillatorEdit (range hgoVal erefsVal : BitVec 8) : ClockEdit :=
  let hgoVal : BitVec 8 := if hgoVal > 0 then 1 else hgoVal
  .c2 (c2Range0Mask ||| c2Hgo0Mask ||| c2Erefs0Mask)
    (c2Range0 range ||| (hgoVal <<< 3) ||| (erefsVal <<< 2))

/-- The write of `C1` that selects the external reference behind `FRDIV`. -/
def externalEdit (clks frdiv : BitVec 8) : ClockEdit :=
  .c1 (c1ClksMask ||| c1FrdivMask ||| c1IrefsMask) (c1Clks clks ||| c1Frdiv frdiv)

/-- The reference behind the divider just chosen; `RANGE0` is read back from `C2`. -/
def Mcg.dividedReference (mcg : Mcg) (crystalVal : ℤ) : ℤ :=
  let frdiv := (frdivVal crystalVal).toNat
  if mcg.range0.toNat > 0 then crystalVal.tdiv (32 * 2 ^ frdiv) else crystalVal.tdiv (2 ^ frdiv)

def enableMonitor : ClockDriver Unit := edit (.c6 0 c6Cme0Mask)

def disableMonitor : ClockDriver Unit := edit (.c6 c6Cme0Mask 0)

/-- The write of `C2[IRCS]`. -/
def ircsEdit (ircSelect : BitVec 8) : ClockEdit :=
  if ircSelect ≠ 0 then .c2 0 c2IrcsMask else .c2 c2IrcsMask 0

/-- The divider settings are within their limits. -/
def checkDividers (prdivVal vdivVal : ℤ) : ClockDriver Unit := do
  failIf (prdivVal < 1 ∨ prdivVal > 25) 0x41
  failIf (vdivVal < 24 ∨ vdivVal > 55) 0x42

/-- The PLL reference is within its limits. -/
def checkReference (crystalVal prdivVal : ℤ) : ClockDriver Unit :=
  failIf (crystalVal.tdiv prdivVal < 2000000 ∨ crystalVal.tdiv prdivVal > 4000000) 0x43

/-- The PLL output is within its limits. -/
def checkOutput (crystalVal prdivVal vdivVal : ℤ) : ClockDriver Unit :=
  let pllFreq := int (crystalVal.tdiv prdivVal * vdivVal)
  failIf (pllFreq < 48000000 ∨ pllFreq > 100000000) 0x45

def prdivEdit (prdivVal : ℤ) : ClockEdit := .c5 c5Prdiv0Mask (c5Prdiv0 (BitVec.ofInt 8 (prdivVal - 1)))

def vdivEdit (vdivVal : ℤ) : ClockEdit :=
  .c6 c6Vdiv0Mask (c6PllsMask ||| c6Vdiv0 (BitVec.ofInt 8 (vdivVal - 24)))

/-- The divider encoded in `C5`. -/
def Mcg.prdiv (mcg : Mcg) : ℤ := mcg.prdiv0.toNat + 1

/-- The multiplier encoded in `C6`. -/
def Mcg.vdiv (mcg : Mcg) : ℤ := mcg.vdiv0.toNat + 24

/-- `CLKS` is cleared to switch to the PLL, and the frequency follows from the actual settings. -/
def switchToPll (crystalVal : ℤ) : ClockDriver ℤ := do
  let prdiv ← look fun r => r.mcg.prdiv
  let vdiv ← look fun r => r.mcg.vdiv
  edit (.c1 c1ClksMask 0)
  waitClkst 3
  pure (int (crystalVal.tdiv prdiv * vdiv))

/-- `pll_init`; `mcgout_select` is not used. -/
def pllInit (crystalVal : ℤ) (hgoVal erefsVal : BitVec 8) (prdivVal vdivVal : ℤ)
    (_mcgoutSelect : BitVec 8) : ClockDriver ℤ := do
  requireMode .fei
  checkCrystalMax crystalVal
  onlyIf (erefsVal ≠ 0) <| failIf (crystalVal < 3000000 ∨ crystalVal > 32000000) 0x22
  checkDividers prdivVal vdivVal
  checkReference crystalVal prdivVal
  checkOutput crystalVal prdivVal vdivVal
  edit (oscillatorEdit (if crystalVal ≤ 8000000 then 1 else 2) hgoVal erefsVal)
  edit (externalEdit 2 (frdivVal crystalVal))
  onlyIf (erefsVal ≠ 0) (waitOscinit 20000)
  waitIrefst false
  waitClkst 2
  enableMonitor
  edit (prdivEdit prdivVal)
  edit (vdivEdit vdivVal)
  waitPllst true
  waitLock 4000
  switchToPll crystalVal

/-- `pee_pbe`. -/
def peePbe (crystalVal : ℤ) : ClockDriver ℤ := do
  requireMode .pee
  edit (.c1 0 (c1Clks 2))
  waitClkst 2
  pure crystalVal

/-- `pbe_pee`. -/
def pbePee (crystalVal : ℤ) : ClockDriver ℤ := do
  requireMode .pbe
  waitLock 2000
  switchToPll crystalVal

/-- `pbe_fbe`. -/
def pbeFbe (crystalVal : ℤ) : ClockDriver ℤ := do
  requireMode .pbe
  edit (.c6 c6PllsMask 0)
  waitPllst false
  pure crystalVal

/-- `fbe_pbe`. -/
def fbePbe (crystalVal prdivVal vdivVal : ℤ) : ClockDriver ℤ := do
  requireMode .fbe
  checkDividers prdivVal vdivVal
  checkReference crystalVal prdivVal
  checkOutput crystalVal prdivVal vdivVal
  edit (prdivEdit prdivVal)
  edit (vdivEdit vdivVal)
  waitPllst true
  waitLock 2000
  pure crystalVal

/-- `pbe_blpe`. -/
def pbeBlpe (crystalVal : ℤ) : ClockDriver ℤ := do
  requireMode .pbe
  edit (.c2 0 c2LpMask)
  pure crystalVal

/-- `blpe_pbe`, without the check of the output that `fbe_pbe` has. -/
def blpePbe (crystalVal prdivVal vdivVal : ℤ) : ClockDriver ℤ := do
  requireMode .blpe
  checkDividers prdivVal vdivVal
  checkReference crystalVal prdivVal
  edit (prdivEdit prdivVal)
  edit (vdivEdit vdivVal)
  edit (.c2 c2LpMask 0)
  waitPllst true
  waitLock 2000
  pure crystalVal

/-- `blpe_fbe`. -/
def blpeFbe (crystalVal : ℤ) : ClockDriver ℤ := do
  requireMode .blpe
  edit (.c6 c6PllsMask 0)
  edit (.c2 c2LpMask 0)
  waitPllst false
  pure crystalVal

/-- `fbe_blpe`. -/
def fbeBlpe (crystalVal : ℤ) : ClockDriver ℤ := do
  requireMode .fbe
  edit (.c2 0 c2LpMask)
  pure crystalVal

/-- `fbe_fei`. -/
def fbeFei (slowIrcFreq : ℤ) : ClockDriver ℤ := do
  requireMode .fbe
  checkSlowIrc slowIrcFreq
  let mcgOut ← checkFll slowIrcFreq
  disableMonitor
  edit (.c1 c1ClksMask c1IrefsMask)
  waitIrefst true
  waitClkst 0
  pure mcgOut

/-- The common body of `fei_fbe` and `fbi_fbe`, behind the mode guard. -/
def toFbe (crystalVal : ℤ) (hgoVal erefsVal : BitVec 8) : ClockDriver ℤ := do
  checkCrystalMax crystalVal
  checkCrystal crystalVal erefsVal
  edit (oscillatorEdit (rangeVal crystalVal) hgoVal erefsVal)
  edit (externalEdit 2 (frdivVal crystalVal))
  onlyIf (erefsVal ≠ 0) (waitOscinit 10000)
  waitIrefst false
  waitClkst 2
  enableMonitor
  pure crystalVal

/-- `fei_fbe`. -/
def feiFbe (crystalVal : ℤ) (hgoVal erefsVal : BitVec 8) : ClockDriver ℤ := do
  requireMode .fei
  toFbe crystalVal hgoVal erefsVal

/-- `fbe_fee`; the reference frequency is a `short`. -/
def fbeFee (crystalVal : ℤ) : ClockDriver ℤ := do
  requireMode .fbe
  let range ← look fun r => r.mcg.range0.toNat
  let frdiv ← look fun r => r.mcg.frdiv.toNat
  let fllRefFreq := short
    (if range > 0 then crystalVal.tdiv (32 * 2 ^ frdiv) else crystalVal.tdiv (2 ^ range))
  let mcgOut ← checkFll fllRefFreq
  edit (.c1 c1ClksMask 0)
  waitClkst 0
  pure mcgOut

/-- `fee_fbe`. -/
def feeFbe (crystalVal : ℤ) : ClockDriver ℤ := do
  requireMode .fee
  edit (.c1 0 (c1Clks 2))
  waitClkst 2
  pure crystalVal

/-- `fbe_fbi`. -/
def fbeFbi (ircFreq : ℤ) (ircSelect : BitVec 8) : ClockDriver ℤ := do
  requireMode .fbe
  checkIrc ircFreq ircSelect
  edit (ircsEdit ircSelect)
  disableMonitor
  edit (.c1 c1ClksMask (c1Clks 1 ||| c1IrefsMask))
  waitIrcst (ircSelect ≠ 0)
  waitClkst 1
  waitIrefst true
  ircOut ircFreq ircSelect

/-- `fbi_fbe`. -/
def fbiFbe (crystalVal : ℤ) (hgoVal erefsVal : BitVec 8) : ClockDriver ℤ := do
  requireMode .fbi
  toFbe crystalVal hgoVal erefsVal

/-- `fbi_blpi`. -/
def fbiBlpi (ircFreq : ℤ) (ircSelect : BitVec 8) : ClockDriver ℤ := do
  requireMode .fbi
  edit (.c2 0 c2LpMask)
  ircOut ircFreq ircSelect

/-- `blpi_fbi`. -/
def blpiFbi (ircFreq : ℤ) (ircSelect : BitVec 8) : ClockDriver ℤ := do
  requireMode .blpi
  edit (.c2 c2LpMask 0)
  ircOut ircFreq ircSelect

/-- The common head of `fbi_fee` and `fei_fee`, behind the mode guard: `C2` is written before the
frequency of the FLL is checked. -/
def toFee (crystalVal : ℤ) (hgoVal erefsVal : BitVec 8) : ClockDriver ℤ := do
  checkCrystalMax crystalVal
  checkCrystal crystalVal erefsVal
  edit (oscillatorEdit (rangeVal crystalVal) hgoVal erefsVal)
  let fllRefFreq ← look fun r => r.mcg.dividedReference crystalVal
  let mcgOut ← checkFll fllRefFreq
  edit (externalEdit 0 (frdivVal crystalVal))
  pure mcgOut

/-- `fbi_fee`. -/
def fbiFee (crystalVal : ℤ) (hgoVal erefsVal : BitVec 8) : ClockDriver ℤ := do
  requireMode .fbi
  let mcgOut ← toFee crystalVal hgoVal erefsVal
  onlyIf (erefsVal ≠ 0) (waitOscinit 10000)
  waitIrefst false
  waitClkst 0
  enableMonitor
  pure mcgOut

/-- `fee_fbi`; `CLKS` is only set, not cleared first. -/
def feeFbi (ircFreq : ℤ) (ircSelect : BitVec 8) : ClockDriver ℤ := do
  requireMode .fee
  checkIrc ircFreq ircSelect
  edit (ircsEdit ircSelect)
  disableMonitor
  edit (.c1 0 (c1Clks 1 ||| c1IrefsMask))
  waitIrcst (ircSelect ≠ 0)
  waitClkst 1
  waitIrefst true
  ircOut ircFreq ircSelect

/-- `fbi_fei`. -/
def fbiFei (slowIrcFreq : ℤ) : ClockDriver ℤ := do
  requireMode .fbi
  checkSlowIrc slowIrcFreq
  let mcgOut ← checkFll slowIrcFreq
  edit (.c1 c1ClksMask (c1Clks 0 ||| c1IrefsMask))
  waitIrefst true
  waitClkst 0
  pure mcgOut

/-- `fei_fbi`. -/
def feiFbi (ircFreq : ℤ) (ircSelect : BitVec 8) : ClockDriver ℤ := do
  requireMode .fei
  checkIrc ircFreq ircSelect
  edit (ircsEdit ircSelect)
  edit (.c1 c1ClksMask (c1Clks 1))
  waitIrcst (ircSelect ≠ 0)
  waitClkst 1
  ircOut ircFreq ircSelect

/-- `fei_fee`. -/
def feiFee (crystalVal : ℤ) (hgoVal erefsVal : BitVec 8) : ClockDriver ℤ := do
  requireMode .fei
  let mcgOut ← toFee crystalVal hgoVal erefsVal
  onlyIf (erefsVal ≠ 0) (waitOscinit 20000000)
  waitIrefst false
  enableMonitor
  pure mcgOut

/-- `fee_fei`. -/
def feeFei (slowIrcFreq : ℤ) : ClockDriver ℤ := do
  requireMode .fee
  checkSlowIrc slowIrcFreq
  let mcgOut ← checkFll slowIrcFreq
  disableMonitor
  edit (.c1 0 c1IrefsMask)
  waitIrefst true
  pure mcgOut

/-- Enable what the RTC oscillator needs, and say what was off before: the clock gate and `TCE`. -/
def enableRtc : ClockDriver (Bool × Bool) := do
  let disableRtcClkGate ← look fun r => r.scgc6 &&& scgc6RtcMask == 0
  onlyIf disableRtcClkGate (edit (.scgc6 0 scgc6RtcMask))
  let disableRtcTce ← look fun r => r.rtcSr &&& rtcSrTceMask == 0
  onlyIf disableRtcTce (edit (.rtcSr 0 rtcSrTceMask))
  let oscillatorOff ← look fun r => r.rtcCr &&& rtcCrOsceMask == 0
  onlyIf oscillatorOff (edit (.rtcCr 0 rtcCrOsceMask))
  let timeInvalid ← see fun s => s.tif
  onlyIf timeInvalid do
    edit (.rtcSr rtcSrTceMask 0)
    edit (.rtcTsr (BitVec.allOnes 32) 0)
    edit (.rtcSr 0 rtcSrTceMask)
  pure (disableRtcClkGate, disableRtcTce)

/-- Disable again what was off. -/
def restoreRtc (disableRtcClkGate disableRtcTce : Bool) : ClockDriver Unit := do
  onlyIf disableRtcTce (edit (.rtcSr rtcSrTceMask 0))
  onlyIf disableRtcClkGate (edit (.scgc6 scgc6RtcMask 0))

/-- The value of `RTC->TPR` the oscillator check waits for. -/
def rtcCount : ClockDriver (BitVec 32) := do
  let tpr ← see fun s => s.tpr
  if tpr > 0x6FFF then see fun s => 0x8000 - s.tpr else see fun s => s.tpr + 4096

/-- `fei_fee_rtc`; the frequency of the FLL is checked when everything is written already. -/
def feiFeeRtc (rtcFreq : ℤ) : ClockDriver ℤ := do
  requireMode .fei
  failIf (rtcFreq > 40000 ∨ rtcFreq < 30000) 0x24
  let (disableRtcClkGate, disableRtcTce) ← enableRtc
  let count ← rtcCount
  spin (fun s => s.tpr == count) 11250000
  let counted ← see fun s => s.tpr == count
  onlyIf (!counted) do
    restoreRtc disableRtcClkGate disableRtcTce
    fail 0x25
  restoreRtc disableRtcClkGate disableRtcTce
  edit (.c7 0 c7OscselMask)
  edit (.c1 (~~~(c1IrclkenMask ||| c1IrefstenMask)) 0)
  waitIrefst false
  let mcgOut ← checkFll rtcFreq
  edit (.c8 0 c8Cme1Mask)
  pure mcgOut

/-- `fee_fei_rtc`. -/
def feeFeiRtc (slowIrcFreq : ℤ) : ClockDriver ℤ := do
  requireMode .fee
  checkSlowIrc slowIrcFreq
  let mcgOut ← checkFll slowIrcFreq
  edit (.c8 c8Cme1Mask 0)
  edit (.c1 0 c1IrefsMask)
  waitIrefst true
  edit (.c7 c7OscselMask 0)
  pure mcgOut

end WirelessSpeakers.Model
