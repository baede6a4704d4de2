import WirelessSpeakers.Machine.Session
import WirelessSpeakers.Model.ClockDriver

/-! # The MCG beside its driver

Calls of the transition functions in any order and with any arguments, while the status bits follow
the control bits in their own time. `mcgHardware` is the documented behaviour: a status field only
moves to the value that is commanded, `OSCINIT0` and `LOCK0` are free. `anyHardware` shows any status
at any time.
-/

namespace WirelessSpeakers.Model

/-- A call of a transition function with its arguments. -/
inductive Transition where
  | pllInit (crystalVal : ℤ) (hgoVal erefsVal : BitVec 8) (prdivVal vdivVal : ℤ)
    (mcgoutSelect : BitVec 8)
  | peePbe (crystalVal : ℤ)
  | pbePee (crystalVal : ℤ)
  | pbeFbe (crystalVal : ℤ)
  | fbePbe (crystalVal prdivVal vdivVal : ℤ)
  | pbeBlpe (crystalVal : ℤ)
  | blpePbe (crystalVal prdivVal vdivVal : ℤ)
  | blpeFbe (crystalVal : ℤ)
  | fbeBlpe (crystalVal : ℤ)
  | fbeFei (slowIrcFreq : ℤ)
  | feiFbe (crystalVal : ℤ) (hgoVal erefsVal : BitVec 8)
  | fbeFee (crystalVal : ℤ)
  | feeFbe (crystalVal : ℤ)
  | fbeFbi (ircFreq : ℤ) (ircSelect : BitVec 8)
  | fbiFbe (crystalVal : ℤ) (hgoVal erefsVal : BitVec 8)
  | fbiBlpi (ircFreq : ℤ) (ircSelect : BitVec 8)
  | blpiFbi (ircFreq : ℤ) (ircSelect : BitVec 8)
  | fbiFee (crystalVal : ℤ) (hgoVal erefsVal : BitVec 8)
  | feeFbi (ircFreq : ℤ) (ircSelect : BitVec 8)
  | fbiFei (slowIrcFreq : ℤ)
  | feiFbi (ircFreq : ℤ) (ircSelect : BitVec 8)
  | feiFee (crystalVal : ℤ) (hgoVal erefsVal : BitVec 8)
  | feeFei (slowIrcFreq : ℤ)
  | feiFeeRtc (rtcFreq : ℤ)
  | feeFeiRtc (slowIrcFreq : ℤ)
deriving DecidableEq, Repr

namespace Transition

def program : Transition → ClockDriver ℤ
  | pllInit c h e p v m => Model.pllInit c h e p v m
  | peePbe c => Model.peePbe c
  | pbePee c => Model.pbePee c
  | pbeFbe c => Model.pbeFbe c
  | fbePbe c p v => Model.fbePbe c p v
  | pbeBlpe c => Model.pbeBlpe c
  | blpePbe c p v => Model.blpePbe c p v
  | blpeFbe c => Model.blpeFbe c
  | fbeBlpe c => Model.fbeBlpe c
  | fbeFei f => Model.fbeFei f
  | feiFbe c h e => Model.feiFbe c h e
  | fbeFee c => Model.fbeFee c
  | feeFbe c => Model.feeFbe c
  | fbeFbi f s => Model.fbeFbi f s
  | fbiFbe c h e => Model.fbiFbe c h e
  | fbiBlpi f s => Model.fbiBlpi f s
  | blpiFbi f s => Model.blpiFbi f s
  | fbiFee c h e => Model.fbiFee c h e
  | feeFbi f s => Model.feeFbi f s
  | fbiFei f => Model.fbiFei f
  | feiFbi f s => Model.feiFbi f s
  | feiFee c h e => Model.feiFee c h e
  | feeFei f => Model.feeFei f
  | feiFeeRtc f => Model.feiFeeRtc f
  | feeFeiRtc f => Model.feeFeiRtc f

/-- The mode in the function's name; PEE for `pll_init`. -/
def target : Transition → ClockMode
  | pllInit .. | pbePee .. => .pee
  | peePbe .. | fbePbe .. | blpePbe .. => .pbe
  | pbeFbe .. | blpeFbe .. | feiFbe .. | feeFbe .. | fbiFbe .. => .fbe
  | pbeBlpe .. | fbeBlpe .. => .blpe
  | fbeFei .. | fbiFei .. | feeFei .. | feeFeiRtc .. => .fei
  | fbeFee .. | fbiFee .. | feiFee .. | feiFeeRtc .. => .fee
  | fbeFbi .. | blpiFbi .. | feeFbi .. | feiFbi .. => .fbi
  | fbiBlpi .. => .blpi

/-- The `crystal_val` of a call that has one. -/
def crystalVal? : Transition → Option ℤ
  | pllInit c .. | peePbe c | pbePee c | pbeFbe c | fbePbe c .. | pbeBlpe c | blpePbe c ..
  | blpeFbe c | fbeBlpe c | feiFbe c .. | fbeFee c | feeFbe c | fbiFbe c .. | fbiFee c ..
  | feiFee c .. => some c
  | fbeFei .. | fbeFbi .. | fbiBlpi .. | blpiFbi .. | feeFbi .. | fbiFei .. | feiFbi .. | feeFei ..
  | feiFeeRtc .. | feeFeiRtc .. => none

/-- The `prdiv_val` and `vdiv_val` of a call that has them. -/
def dividers? : Transition → Option (ℤ × ℤ)
  | pllInit _ _ _ p v _ | fbePbe _ p v | blpePbe _ p v => some (p, v)
  | _ => none

/-- The `crystal_val`, `hgo_val` and `erefs_val` of a call that writes the oscillator fields of `C2`. -/
def oscillator? : Transition → Option (ℤ × BitVec 8 × BitVec 8)
  | pllInit c h e .. | feiFbe c h e | fbiFbe c h e | fbiFee c h e | feiFee c h e => some (c, h, e)
  | _ => none

end Transition

/-- Calls one after the other, whatever they return, and what they have returned. -/
def calls (list : List Transition) : ClockDriver (List (Except ℤ ℤ)) :=
  list.mapM fun x => x.program.attempt

/-- What `main` does without `PLL_DIRECT_INIT`. -/
def startUp (slowIrcFreq clkFreqHz : ℤ) (lowPower externalClock : BitVec 8) (prdiv vdiv : ℤ) :
    ClockDriver (List (Except ℤ ℤ)) :=
  calls [.feiFbi slowIrcFreq 0, .fbiFbe clkFreqHz lowPower externalClock,
    .fbePbe clkFreqHz prdiv vdiv, .pbePee clkFreqHz]

/-- The codes of the polls of `MCG->S`. -/
def timeoutCodes : List ℤ :=
  [0x11, 0x12, 0x13, 0x14, 0x15, 0x16, 0x18, 0x19, 0x1A, 0x1B, 0x23, 0x44]

/-- The codes of the mode guards and of the checks of arguments and frequencies. -/
def refusalCodes : List ℤ :=
  [0x1, 0x2, 0x3, 0x4, 0x5, 0x6, 0x7, 0x8, 0x21, 0x22, 0x24, 0x31, 0x32,
    0x33, 0x34, 0x35, 0x36, 0x37, 0x38, 0x39, 0x3A, 0x41, 0x42, 0x43, 0x45]

/-- A poll of a status bit failed. -/
def TimedOut (out : Except ℤ ℤ) : Prop := ∃ code ∈ timeoutCodes, out = .error code

/-- A guard or a check failed. -/
def Refused (out : Except ℤ ℤ) : Prop := ∃ code ∈ refusalCodes, out = .error code

inductive ClockMove where
  | irefst
  | pllst
  | ircst
  | clkst
  | oscinit0 (b : Bool)
  | lock0 (b : Bool)
  | rtc (tif : Bool) (tpr : BitVec 32)
deriving DecidableEq, Repr

/-- `CLKST` follows `CLKS`, and the PLL switch where `CLKS` selects its output. Nothing is promised for
the reserved selection. -/
def commandedClkst (mcg : Mcg) (s : ClockStatus) : Option (BitVec 2) :=
  match mcg.clks.toNat with
  | 0 => some (if s.pllst then 3 else 0)
  | 1 => some 1
  | 2 => some 2
  | _ => none

/-- The documented behaviour of the MCG. -/
def mcgHardware : Hardware ClockRegisters ClockStatus where
  Move := ClockMove
  apply r s
    | .irefst => some { s with irefst := r.mcg.irefs }
    | .pllst => some { s with pllst := r.mcg.plls }
    | .ircst => some { s with ircst := r.mcg.ircs }
    | .clkst => (commandedClkst r.mcg s).map fun x => { s with clkst := x }
    | .oscinit0 b => some { s with oscinit0 := b }
    | .lock0 b => some { s with lock0 := b }
    | .rtc tif tpr => some { s with tif := tif, tpr := tpr }

/-- Hardware that shows any status at any time. -/
def anyHardware : Hardware ClockRegisters ClockStatus where
  Move := ClockStatus
  apply _ _ s := some s

theorem reach_any {r : ClockRegisters} {v w : ClockStatus} : anyHardware.Reach r v w := .single w rfl

abbrev ClockSession := Session ClockRegisters ClockStatus ℤ ℤ Transition

/-- All sessions of calls on the documented hardware. -/
abbrev clockSessions (r : ClockRegisters) (s : ClockStatus) :
    TapeMachine ClockSession (SessionEvent Transition ClockMove) :=
  sessions mcgHardware Transition.program r s

/-- The MCG out of reset: FEI, low power off, PLL off. -/
structure AtReset (r : ClockRegisters) (s : ClockStatus) : Prop where
  clks : r.mcg.clks = 0
  irefs : r.mcg.irefs = true
  plls : r.mcg.plls = false
  lp : r.mcg.lp = false
  clkst : s.clkst = 0
  irefst : s.irefst = true
  pllst : s.pllst = false

/-- The registers as the device comes out of reset. -/
def resetRegisters : ClockRegisters where
  mcg := ⟨0x04, 0x80, 0, 0, 0, 0, 0, 0x80, 0x02, 0, 0⟩
  scgc6 := 0
  rtcSr := 0
  rtcCr := 0
  rtcTsr := 0

def resetStatus : ClockStatus where
  clkst := 0
  irefst := true
  pllst := false
  ircst := false
  oscinit0 := false
  lock0 := false
  tif := true
  tpr := 0

theorem atReset_reset : AtReset resetRegisters resetStatus := by
  constructor <;> rfl

end WirelessSpeakers.Model
