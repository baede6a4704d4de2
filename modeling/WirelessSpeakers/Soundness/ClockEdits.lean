import WirelessSpeakers.Model.ClockSystem

/-! # What a transition can write

Every store of a transition is one of a few masked assignments, fixed by its arguments. What no call
can disturb is read off these lists, for all timings of the hardware at once. The lemmas on fields say
what an assignment does to a field of a register.
-/

namespace WirelessSpeakers.Model

open Program

namespace Transition

/-- The oscillator fields, the external reference behind `FRDIV`, and the clock monitor. -/
def externalEdits (clks range : BitVec 8) (c : ℤ) (h e : BitVec 8) : List ClockEdit :=
  [oscillatorEdit range h e, externalEdit clks (frdivVal c), .c6 0 c6Cme0Mask]

/-- Every assignment a call can make. -/
def edits : Transition → List ClockEdit
  | pllInit c h e p v _ => [oscillatorEdit (if c ≤ 8000000 then 1 else 2) h e,
      externalEdit 2 (frdivVal c), .c6 0 c6Cme0Mask, prdivEdit p, vdivEdit v, .c1 c1ClksMask 0]
  | peePbe _ | feeFbe _ => [.c1 0 (c1Clks 2)]
  | pbePee _ | fbeFee _ => [.c1 c1ClksMask 0]
  | pbeFbe _ => [.c6 c6PllsMask 0]
  | fbePbe _ p v => [prdivEdit p, vdivEdit v]
  | pbeBlpe _ | fbeBlpe _ | fbiBlpi .. => [.c2 0 c2LpMask]
  | blpePbe _ p v => [prdivEdit p, vdivEdit v, .c2 c2LpMask 0]
  | blpeFbe _ => [.c6 c6PllsMask 0, .c2 c2LpMask 0]
  | fbeFei _ => [.c6 c6Cme0Mask 0, .c1 c1ClksMask c1IrefsMask]
  | feiFbe c h e | fbiFbe c h e => externalEdits 2 (rangeVal c) c h e
  | fbeFbi _ s => [ircsEdit s, .c6 c6Cme0Mask 0, .c1 c1ClksMask (c1Clks 1 ||| c1IrefsMask)]
  | blpiFbi .. => [.c2 c2LpMask 0]
  | fbiFee c h e | feiFee c h e => externalEdits 0 (rangeVal c) c h e
  | feeFbi _ s => [ircsEdit s, .c6 c6Cme0Mask 0, .c1 0 (c1Clks 1 ||| c1IrefsMask)]
  | fbiFei _ => [.c1 c1ClksMask (c1Clks 0 ||| c1IrefsMask)]
  | feiFbi _ s => [ircsEdit s, .c1 c1ClksMask (c1Clks 1)]
  | feeFei _ => [.c6 c6Cme0Mask 0, .c1 0 c1IrefsMask]
  | feiFeeRtc _ => [.scgc6 0 scgc6RtcMask, .rtcSr 0 rtcSrTceMask, .rtcCr 0 rtcCrOsceMask,
      .rtcSr rtcSrTceMask 0, .rtcTsr (BitVec.allOnes 32) 0, .scgc6 scgc6RtcMask 0,
      .c7 0 c7OscselMask, .c1 (~~~(c1IrclkenMask ||| c1IrefstenMask)) 0, .c8 0 c8Cme1Mask]
  | feeFeiRtc _ => [.c8 c8Cme1Mask 0, .c1 0 c1IrefsMask, .c7 c7OscselMask 0]

end Transition

section Stores

variable {P : (ClockRegisters → ClockRegisters) → Prop} {R : Unit → Prop}

instance : Nonempty ClockStatus := ⟨resetStatus⟩

@[simp] theorem stores_edit {e : ClockEdit} :
    (ClockDriver.edit e).Stores P R ↔ P e.apply ∧ R () := stores_write

@[simp] theorem stores_onlyIf {cond : Bool} {p : ClockDriver Unit} :
    (ClockDriver.onlyIf cond p).Stores P R ↔ (cond → p.Stores P R) ∧ (¬ cond → R ()) := stores_ite

@[simp] theorem stores_requireMode {mode : ClockMode} (rest : R ()) :
    (requireMode mode).Stores P R := by
  cases mode <;>
    simp [requireMode, inMode, ClockDriver.andThen, rest, ClockMode.pllst, ClockMode.lp]

end Stores

/-- The stores of a call are among its assignments. -/
theorem Transition.stores_program (x : Transition) :
    x.program.Stores (fun f => ∃ e ∈ x.edits, f = e.apply) fun _ => True := by
  cases x <;>
    simp [program, edits, externalEdits, Model.pllInit, Model.peePbe, Model.pbePee, Model.pbeFbe,
      Model.fbePbe, Model.pbeBlpe, Model.blpePbe, Model.blpeFbe, Model.fbeBlpe, Model.fbeFei,
      Model.feiFbe, Model.fbeFee, Model.feeFbe, Model.fbeFbi, Model.fbiFbe, Model.fbiBlpi,
      Model.blpiFbi, Model.fbiFee, Model.feeFbi, Model.fbiFei, Model.feiFbi, Model.feiFee,
      Model.feeFei, Model.feiFeeRtc, Model.feeFeiRtc, toFbe, toFee, switchToPll, checkCrystalMax,
      checkCrystal, checkDividers, checkReference, checkOutput, checkSlowIrc, checkIrc, checkFll,
      ircOut, enableMonitor, disableMonitor, waitOscinit, waitIrefst, waitIrcst,
      waitPllst, waitClkst, waitLock, enableRtc, restoreRtc, rtcCount]

theorem ircsEdit_eq (s : BitVec 8) :
    ircsEdit s = .c2 (if s = 0 then c2IrcsMask else 0) (if s = 0 then 0 else c2IrcsMask) := by
  unfold ircsEdit
  split <;> simp_all

theorem oscillatorEdit_eq (range h e : BitVec 8) : oscillatorEdit range h e =
    .c2 (c2Range0Mask ||| c2Hgo0Mask ||| c2Erefs0Mask)
      (c2Range0 range ||| (if h = 0 then 0 else c2Hgo0Mask) ||| (e <<< 2)) := by
  unfold oscillatorEdit
  by_cases zero : h = 0#8
  · simp [zero]
  · have positive : 0#8 < h := by bv_omega
    simp [zero, positive]

namespace ClockEdit

@[simp] theorem scgc6_mcg {clear set : BitVec 32} (r : ClockRegisters) :
    ((scgc6 clear set).apply r).mcg = r.mcg := rfl

@[simp] theorem rtcSr_mcg {clear set : BitVec 32} (r : ClockRegisters) :
    ((rtcSr clear set).apply r).mcg = r.mcg := rfl

@[simp] theorem rtcCr_mcg {clear set : BitVec 32} (r : ClockRegisters) :
    ((rtcCr clear set).apply r).mcg = r.mcg := rfl

@[simp] theorem rtcTsr_mcg {clear set : BitVec 32} (r : ClockRegisters) :
    ((rtcTsr clear set).apply r).mcg = r.mcg := rfl

variable (e : ClockEdit) (r : ClockRegisters)

/-- What an assignment leaves in the MCG depends on the MCG only. -/
theorem mcg_apply_congr {e : ClockEdit} {r r' : ClockRegisters} (same : r'.mcg = r.mcg) :
    (e.apply r').mcg = (e.apply r).mcg := by
  cases e <;> simp only [apply, same]

/-- Nothing writes the FLL settings. -/
@[simp] theorem fllFreq_apply (f : ℤ) : (e.apply r).mcg.fllFreq f = r.mcg.fllFreq f := by
  cases e <;> rfl

@[simp] theorem c4_apply : (e.apply r).mcg.c4 = r.mcg.c4 := by
  cases e <;> rfl

@[simp] theorem clks_apply : (e.apply r).mcg.clks = match e with
    | .c1 clear set => assign r.mcg.clks (clear.extractLsb' 6 2) (set.extractLsb' 6 2)
    | _ => r.mcg.clks := by
  cases e <;> simp [apply, Mcg.clks, extractLsb'_assign]

@[simp] theorem frdiv_apply : (e.apply r).mcg.frdiv = match e with
    | .c1 clear set => assign r.mcg.frdiv (clear.extractLsb' 3 3) (set.extractLsb' 3 3)
    | _ => r.mcg.frdiv := by
  cases e <;> simp [apply, Mcg.frdiv, extractLsb'_assign]

@[simp] theorem irefs_apply : (e.apply r).mcg.irefs = match e with
    | .c1 clear set => (r.mcg.irefs && !clear.getLsbD 2 || set.getLsbD 2)
    | _ => r.mcg.irefs := by
  cases e <;> simp [apply, Mcg.irefs]

@[simp] theorem irclken_apply : (e.apply r).mcg.irclken = match e with
    | .c1 clear set => (r.mcg.irclken && !clear.getLsbD 1 || set.getLsbD 1)
    | _ => r.mcg.irclken := by
  cases e <;> simp [apply, Mcg.irclken]

@[simp] theorem irefsten_apply : (e.apply r).mcg.irefsten = match e with
    | .c1 clear set => (r.mcg.irefsten && !clear.getLsbD 0 || set.getLsbD 0)
    | _ => r.mcg.irefsten := by
  cases e <;> simp [apply, Mcg.irefsten]

@[simp] theorem locre0_apply : (e.apply r).mcg.locre0 = match e with
    | .c2 clear set => (r.mcg.locre0 && !clear.getLsbD 7 || set.getLsbD 7)
    | _ => r.mcg.locre0 := by
  cases e <;> simp [apply, Mcg.locre0]

@[simp] theorem fcftrim_apply : (e.apply r).mcg.fcftrim = match e with
    | .c2 clear set => (r.mcg.fcftrim && !clear.getLsbD 6 || set.getLsbD 6)
    | _ => r.mcg.fcftrim := by
  cases e <;> simp [apply, Mcg.fcftrim]

@[simp] theorem range0_apply : (e.apply r).mcg.range0 = match e with
    | .c2 clear set => assign r.mcg.range0 (clear.extractLsb' 4 2) (set.extractLsb' 4 2)
    | _ => r.mcg.range0 := by
  cases e <;> simp [apply, Mcg.range0, extractLsb'_assign]

@[simp] theorem hgo0_apply : (e.apply r).mcg.hgo0 = match e with
    | .c2 clear set => (r.mcg.hgo0 && !clear.getLsbD 3 || set.getLsbD 3)
    | _ => r.mcg.hgo0 := by
  cases e <;> simp [apply, Mcg.hgo0]

@[simp] theorem erefs0_apply : (e.apply r).mcg.erefs0 = match e with
    | .c2 clear set => (r.mcg.erefs0 && !clear.getLsbD 2 || set.getLsbD 2)
    | _ => r.mcg.erefs0 := by
  cases e <;> simp [apply, Mcg.erefs0]

@[simp] theorem lp_apply : (e.apply r).mcg.lp = match e with
    | .c2 clear set => (r.mcg.lp && !clear.getLsbD 1 || set.getLsbD 1)
    | _ => r.mcg.lp := by
  cases e <;> simp [apply, Mcg.lp]

@[simp] theorem pllEnables_apply : (e.apply r).mcg.pllEnables = match e with
    | .c5 clear set => assign r.mcg.pllEnables (clear.extractLsb' 5 3) (set.extractLsb' 5 3)
    | _ => r.mcg.pllEnables := by
  cases e <;> simp [apply, Mcg.pllEnables, extractLsb'_assign]

@[simp] theorem prdiv0_apply : (e.apply r).mcg.prdiv0 = match e with
    | .c5 clear set => assign r.mcg.prdiv0 (clear.extractLsb' 0 5) (set.extractLsb' 0 5)
    | _ => r.mcg.prdiv0 := by
  cases e <;> simp [apply, Mcg.prdiv0, extractLsb'_assign]

@[simp] theorem lolie0_apply : (e.apply r).mcg.lolie0 = match e with
    | .c6 clear set => (r.mcg.lolie0 && !clear.getLsbD 7 || set.getLsbD 7)
    | _ => r.mcg.lolie0 := by
  cases e <;> simp [apply, Mcg.lolie0]

@[simp] theorem plls_apply : (e.apply r).mcg.plls = match e with
    | .c6 clear set => (r.mcg.plls && !clear.getLsbD 6 || set.getLsbD 6)
    | _ => r.mcg.plls := by
  cases e <;> simp [apply, Mcg.plls]

@[simp] theorem cme0_apply : (e.apply r).mcg.cme0 = match e with
    | .c6 clear set => (r.mcg.cme0 && !clear.getLsbD 5 || set.getLsbD 5)
    | _ => r.mcg.cme0 := by
  cases e <;> simp [apply, Mcg.cme0]

@[simp] theorem vdiv0_apply : (e.apply r).mcg.vdiv0 = match e with
    | .c6 clear set => assign r.mcg.vdiv0 (clear.extractLsb' 0 5) (set.extractLsb' 0 5)
    | _ => r.mcg.vdiv0 := by
  cases e <;> simp [apply, Mcg.vdiv0, extractLsb'_assign]

@[simp] theorem cme1_apply : (e.apply r).mcg.cme1 = match e with
    | .c8 clear set => (r.mcg.cme1 && !clear.getLsbD 5 || set.getLsbD 5)
    | _ => r.mcg.cme1 := by
  cases e <;> simp [apply, Mcg.cme1]

end ClockEdit

section

variable {r : ClockRegisters} {range h e : BitVec 8}

private theorem extractLsb'_byte_shift : (e <<< 2).extractLsb' 4 2 = e.extractLsb' 2 2 := by
  apply BitVec.eq_of_getElem_eq
  intro i within
  have here : i = 0 ∨ i = 1 := by omega
  rcases here with rfl | rfl <;> simp

private theorem extractLsb'_range : (c2Range0 range).extractLsb' 4 2 = range.extractLsb' 0 2 := by
  apply BitVec.eq_of_getElem_eq
  intro i within
  have here : i = 0 ∨ i = 1 := by omega
  rcases here with rfl | rfl <;> simp

/-- Bits 2 and 3 of `erefs_val` land on `RANGE0`. -/
theorem range0_oscillatorEdit : ((oscillatorEdit range h e).apply r).mcg.range0 =
    range.extractLsb' 0 2 ||| e.extractLsb' 2 2 := by
  rw [oscillatorEdit_eq]
  by_cases zero : h = 0#8 <;>
    simp [zero, BitVec.extractLsb'_or, extractLsb'_byte_shift, extractLsb'_range, -c2Range0]

end

end WirelessSpeakers.Model
