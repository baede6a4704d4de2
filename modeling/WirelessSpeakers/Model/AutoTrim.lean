import WirelessSpeakers.Model.ClockDriver

/-! # The auto-trim machine

`atc` counts the internal reference against the bus clock, which it slows down for that through
`SIM->CLKDIV1`. The count is computed in `float`, as a function of the two frequencies that is left open
here. The poll of `ATME` has no bound in the source: a given number of its iterations is executed, and
the program that has not left it by then has no return value.
-/

namespace WirelessSpeakers.Model

/-- The registers of the other functions, and `SIM->CLKDIV1`. -/
structure TrimRegisters where
  clock : ClockRegisters
  clkdiv1 : BitVec 32
deriving DecidableEq, Repr

/-- The status that the other functions read, and what the trim machine changes: `MCG_SC_ATME`,
`MCG_SC_ATMF`, `MCG->C3` and `MCG_C4_FCTRIM`. -/
structure TrimStatus where
  clock : ClockStatus
  atme : Bool
  atmf : Bool
  c3 : BitVec 8
  fctrim : BitVec 4
deriving DecidableEq, Repr

abbrev TrimDriver := Program TrimRegisters TrimStatus ℤ

/-- `SIM_CLKDIV1_OUTDIV2_MASK`. -/
@[simp] def clkdiv1Outdiv2Mask : BitVec 32 := 0x0F000000

/-- `SIM_CLKDIV1_OUTDIV4_MASK`. -/
@[simp] def clkdiv1Outdiv4Mask : BitVec 32 := 0x000F0000

/-- `SIM_CLKDIV1_OUTDIV2(x)`. -/
@[simp] def clkdiv1Outdiv2 (x : BitVec 32) : BitVec 32 := (x <<< 24) &&& clkdiv1Outdiv2Mask

/-- `SIM_CLKDIV1_OUTDIV4(x)`. -/
@[simp] def clkdiv1Outdiv4 (x : BitVec 32) : BitVec 32 := (x <<< 16) &&& clkdiv1Outdiv4Mask

/-- `MCG_SC_ATME_MASK`. -/
@[simp] def scAtmeMask : BitVec 8 := 0x80

/-- `MCG_SC_ATMS_MASK`. -/
@[simp] def scAtmsMask : BitVec 8 := 0x40

/-- `MCG_SC_ATMF_MASK`. -/
@[simp] def scAtmfMask : BitVec 8 := 0x20

/-- `bus_clk_div_val`. -/
def busClkDivVal (mcgOutFreq : ℤ) : BitVec 32 := BitVec.ofInt 32 (mcgOutFreq.tdiv 16000000)

/-- What `atc` writes into `SIM->CLKDIV1`: bus and flash get the same divider. -/
def trimDividers (mcgOutFreq : ℤ) (clkdiv1 : BitVec 32) : BitVec 32 :=
  assign clkdiv1 (clkdiv1Outdiv2Mask ||| clkdiv1Outdiv4Mask)
    (clkdiv1Outdiv2 (busClkDivVal mcgOutFreq) ||| clkdiv1Outdiv4 (busClkDivVal mcgOutFreq))

/-- The field `OUTDIV2`. -/
def outdiv2 (clkdiv1 : BitVec 32) : BitVec 32 := (clkdiv1 &&& clkdiv1Outdiv2Mask) >>> 24

/-- `bus_clock_freq`: the register is unsigned, so the division is, and the quotient becomes an `int`. -/
def busClockFreq (mcgOutFreq : ℤ) (clkdiv1 : BitVec 32) : ℤ :=
  (BitVec.ofInt 32 mcgOutFreq / (outdiv2 clkdiv1 + 1)).toInt

/-- Hardware that shows any status at any time. -/
def anyTrimHardware : Hardware TrimRegisters TrimStatus where
  Move := TrimStatus
  apply _ _ s := some s

open Program

/-- Put the old dividers back and return an error code. -/
def giveUp (origDiv : BitVec 32) (wrong : Prop) [Decidable wrong] (code : ℤ) : TrimDriver Unit :=
  if wrong then do
    write fun r => { r with clkdiv1 := origDiv }
    fail code
  else pure ()

/-- `while (MCG->SC & MCG_SC_ATME_MASK) {}`, for so many reads; has the loop ended? -/
def pollAtme : ℕ → TrimDriver Bool
  | 0 => pure false
  | n + 1 => do if ← see fun s => s.atme then pollAtme n else pure true

/-- C's `||` of two reads. -/
def eitherOf (p q : TrimStatus → Bool) : TrimDriver Bool := do
  if ← see p then pure true else see q

/-- The frequency matches the internal reference to be trimmed. -/
def checkTrimIrc (origDiv : BitVec 32) (ircSelect : BitVec 8) (ircFreq : ℤ) : TrimDriver Unit :=
  if ircSelect = 0 then do
    giveUp origDiv (ircFreq < 31250) 4
    giveUp origDiv (ircFreq > 39062) 5
  else do
    giveUp origDiv (ircFreq < 3000000) 6
    giveUp origDiv (ircFreq > 5000000) 7

/-- The count is written, and the trim machine is started. -/
def startTrim (atcv : BitVec 16) (ircSelect : BitVec 8) : TrimDriver Unit := do
  write fun r => { r with clock.mcg.atcvl := atcv.extractLsb' 0 8 }
  write fun r => { r with clock.mcg.atcvh := atcv.extractLsb' 8 8 }
  write fun r =>
    { r with clock.mcg.sc := assign r.clock.mcg.sc (scAtmeMask ||| scAtmsMask ||| scAtmfMask) 0 }
  write fun r => { r with clock.mcg.sc := assign r.clock.mcg.sc 0 (scAtmeMask ||| (ircSelect <<< 6)) }

/-- The trim machine has failed, or its result is at a limit. -/
def checkTrimmed (origDiv : BitVec 32) (ircSelect : BitVec 8) : TrimDriver Unit := do
  let failed ← see fun s => s.atmf
  giveUp origDiv failed 8
  if ircSelect = 0 then
    let limit ← eitherOf (fun s => s.c3 == 0xFF) fun s => s.c3 == 0
    giveUp origDiv limit 9
  else
    let limit ← eitherOf (fun s => s.fctrim == 0xF) fun s => s.fctrim == 0
    giveUp origDiv limit 10

/-- `atc`, with `none` for a poll that has not ended. -/
def atc (polls : ℕ) (atcv : BitVec 8 → ℤ → ℤ → BitVec 16) (ircSelect : BitVec 8)
    (ircFreq mcgOutFreq : ℤ) : TrimDriver (Option ℤ) := do
  let ircSelect : BitVec 8 := if ircSelect > 0 then 1 else ircSelect
  let mcgMode ← whatMcgMode.zoom TrimRegisters.clock (fun clock r => { r with clock })
    TrimStatus.clock
  failIf (mcgMode ≠ some .pee ∧ mcgMode ≠ some .pbe ∧ mcgMode ≠ some .fbe) 1
  let origDiv ← look TrimRegisters.clkdiv1
  write fun r => { r with clkdiv1 := trimDividers mcgOutFreq r.clkdiv1 }
  let busClockFreq ← look fun r => busClockFreq mcgOutFreq r.clkdiv1
  giveUp origDiv (busClockFreq < 8000000 ∨ busClockFreq > 16000000) 3
  checkTrimIrc origDiv ircSelect ircFreq
  startTrim (atcv ircSelect busClockFreq ircFreq) ircSelect
  if ← pollAtme polls then
    checkTrimmed origDiv ircSelect
    write fun r => { r with clkdiv1 := origDiv }
    pure (some 0)
  else pure none

end WirelessSpeakers.Model
