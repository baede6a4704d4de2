import WirelessSpeakers.Soundness.AutoTrim
import WirelessSpeakers.Soundness.ClockEdits

/-! # Settings that are given back

`atc` borrows the bus divider and `fei_fee_rtc` the clock gate and the time counter of the RTC. The first
saves the whole register and has an exit of its own for everything that can go wrong; the second keeps
two flags, and by the time it looks at them both settings are on, whatever the time invalid flag said.
-/

namespace WirelessSpeakers.Soundness

open Model Program

/-- `SIM_SCGC6_RTC` is clear. -/
def rtcGateOff (r : ClockRegisters) : Bool := r.scgc6 &&& scgc6RtcMask == 0

/-- `RTC_SR_TCE` is clear. -/
def rtcTceOff (r : ClockRegisters) : Bool := r.rtcSr &&& rtcSrTceMask == 0

section Fields

variable (r : ClockRegisters)

theorem rtcGateOff_set : rtcGateOff ((ClockEdit.scgc6 0 scgc6RtcMask).apply r) = false := by
  change (assign r.scgc6 0#32 scgc6RtcMask &&& scgc6RtcMask == 0) = false
  rw [assign_set_and]
  rfl

theorem rtcGateOff_clear : rtcGateOff ((ClockEdit.scgc6 scgc6RtcMask 0).apply r) = true := by
  change (assign r.scgc6 scgc6RtcMask 0#32 &&& scgc6RtcMask == 0) = true
  rw [assign_clear_and]
  rfl

theorem rtcTceOff_set : rtcTceOff ((ClockEdit.rtcSr 0 rtcSrTceMask).apply r) = false := by
  change (assign r.rtcSr 0#32 rtcSrTceMask &&& rtcSrTceMask == 0) = false
  rw [assign_set_and]
  rfl

theorem rtcTceOff_clear : rtcTceOff ((ClockEdit.rtcSr rtcSrTceMask 0).apply r) = true := by
  change (assign r.rtcSr rtcSrTceMask 0#32 &&& rtcSrTceMask == 0) = true
  rw [assign_clear_and]
  rfl

end Fields

section

variable {hw : Hardware ClockRegisters ClockStatus} {r : ClockRegisters} {v : ClockStatus}

theorem ensures_onlyIf_edit {cond : Bool} {e : ClockEdit}
    {Q : Except ℤ Unit → ClockRegisters → ClockStatus → Prop}
    (done : ∀ w, Q (.ok ()) (if cond then e.apply r else r) w) :
    (ClockDriver.onlyIf cond (ClockDriver.edit e)).Ensures hw.plain Q r v := by
  cases cond with
  | true => exact fun w _ _ => ⟨trivial, done w⟩
  | false => exact done v

/-- A setting is turned on if it is off, and the test is remembered. -/
theorem ensures_turnOn {α : Type} (off : ClockRegisters → Bool) {e : ClockEdit}
    (rest : Bool → ClockDriver α) {Q : Except ℤ α → ClockRegisters → ClockStatus → Prop}
    (next : ∀ r' w, r' = (if off r then e.apply r else r) → (rest (off r)).Ensures hw.plain Q r' w) :
    (do
      let disable ← look off
      ClockDriver.onlyIf disable (ClockDriver.edit e)
      rest disable).Ensures hw.plain Q r v :=
  ensures_bind.mpr (ensures_bind.mpr (ensures_onlyIf_edit fun w => next _ w rfl))

/-- Behind the set-up both are on, and the flags say which of them were off. -/
theorem ensures_enableRtc {Q : Except ℤ (Bool × Bool) → ClockRegisters → ClockStatus → Prop}
    (on : ∀ r' w, rtcGateOff r' = false → rtcTceOff r' = false → Q (.ok (rtcGateOff r, rtcTceOff r)) r' w) :
    enableRtc.Ensures hw.plain Q r v := by
  apply ensures_turnOn rtcGateOff
  intro r₁ _ same₁
  have gate₁ : rtcGateOff r₁ = false := by
    rw [same₁]
    split
    · exact rtcGateOff_set r
    · next on => exact Bool.eq_false_iff.mpr on
  have tce₁ : rtcTceOff r₁ = rtcTceOff r := by
    rw [same₁]
    split <;> rfl
  apply ensures_turnOn rtcTceOff
  intro r₂ _ same₂
  have gate₂ : rtcGateOff r₂ = false := by
    rw [same₂]
    split <;> exact gate₁
  have tce₂ : rtcTceOff r₂ = false := by
    rw [same₂]
    split
    · exact rtcTceOff_set r₁
    · next on => exact Bool.eq_false_iff.mpr on
  rw [tce₁]
  apply ensures_turnOn _ fun _ => _
  intro r₃ _ same₃
  have gate₃ : rtcGateOff r₃ = false := by
    rw [same₃]
    split <;> exact gate₂
  have tce₃ : rtcTceOff r₃ = false := by
    rw [same₃]
    split <;> exact tce₂
  refine ensures_bind.mpr fun w _ => ensures_bind.mpr (ensures_onlyIf.mpr ⟨fun _ => ?_, fun _ => ?_⟩)
  · simp only [ensures_bind, ensures_edit]
    exact fun _ _ _ => ⟨trivial, fun _ _ _ => ⟨trivial, fun u _ _ =>
      ⟨trivial, on _ u gate₃ (rtcTceOff_set _)⟩⟩⟩
  · exact on r₃ w gate₃ tce₃

/-- What was off is off again. -/
theorem ensures_restoreRtc {gate tce : Bool} {Q : Except ℤ Unit → ClockRegisters → ClockStatus → Prop}
    (gateOn : rtcGateOff r = false) (tceOn : rtcTceOff r = false)
    (back : ∀ r' w, rtcGateOff r' = gate → rtcTceOff r' = tce → Q (.ok ()) r' w) :
    (restoreRtc gate tce).Ensures hw.plain Q r v := by
  unfold restoreRtc
  refine ensures_bind.mpr (ensures_onlyIf_edit fun w => ensures_onlyIf_edit fun u => back _ u ?_ ?_)
  · cases gate with
    | true => exact rtcGateOff_clear _
    | false => cases tce <;> exact gateOn
  · cases tce with
    | true => cases gate <;> exact rtcTceOff_clear r
    | false => cases gate <;> exact tceOn

theorem reads_rtcCount : rtcCount.Reads := by
  apply Reads.bind reads_see
  intro tpr
  split <;> exact reads_see

/-- `fei_fee_rtc` leaves both as it found them. -/
theorem ensures_feiFeeRtc_settings (f : ℤ) : (feiFeeRtc f).Ensures hw.plain
    (fun _ r' _ => rtcGateOff r' = rtcGateOff r ∧ rtcTceOff r' = rtcTceOff r) r v := by
  refine ensures_guard (fun v _ _ => ?_) fun _ _ _ => ⟨rfl, rfl⟩
  refine ensures_check (fun _ => ⟨rfl, rfl⟩) fun _ => ?_
  refine ensures_bind.mpr (ensures_enableRtc fun r₁ w gateOn tceOn => ?_)
  refine ensures_bind.mpr (reads_rtcCount.ensures fun count w => ?_)
  refine ensures_bind.mpr (reads_spin.ensures fun _ w => ensures_bind.mpr fun w _ => ?_)
  refine ensures_bind.mpr (ensures_onlyIf.mpr ⟨fun _ => ?_, fun _ => ?_⟩)
  · exact ensures_bind.mpr (ensures_restoreRtc gateOn tceOn fun r' w gate tce => ⟨gate, tce⟩)
  · refine ensures_bind.mpr (ensures_restoreRtc gateOn tceOn fun r₂ w gate tce => ?_)
    have back : rtcGateOff r₂ = rtcGateOff r ∧ rtcTceOff r₂ = rtcTceOff r := ⟨gate, tce⟩
    simp only [ensures_bind, ensures_edit, waitIrefst, ensures_wait, checkFll, ensures_look, ensures_failIf,
      ensures_pure]
    refine fun _ _ _ => ⟨trivial, fun _ _ _ => ⟨trivial, fun _ _ => ⟨fun _ => ?_, fun _ => back⟩⟩⟩
    exact ⟨fun _ => back, fun _ _ _ _ => ⟨trivial, back⟩⟩

end

/-- On every exit of `atc` the bus dividers are those of the call, and on every exit of `fei_fee_rtc` the
clock gate and the time counter of the RTC are on or off as they were, whatever the hardware shows. -/
theorem settings_given_back :
    (∀ polls atcv select irc f r v out r' v',
      (atc polls atcv select irc f).Runs anyTrimHardware r v out r' v' → out ≠ .ok none →
        r'.clkdiv1 = r.clkdiv1) ∧
      ∀ f r v out r' v', (feiFeeRtc f).Runs anyHardware r v out r' v' →
        rtcGateOff r' = rtcGateOff r ∧ rtcTceOff r' = rtcTceOff r := by
  constructor
  · intro polls atcv select irc f r v out r' v' ran
    have exits : (atc polls atcv select irc f).Ensures anyTrimHardware.plain
        (fun out r' _ => out ≠ .ok none → r'.clkdiv1 = r.clkdiv1) r v := by
      apply ensures_atc
      · exact fun _ _ => rfl
      · exact fun _ _ _ => rfl
      · exact fun _ _ _ _ given => given.dividers
    exact ensures_plain_iff.mp exits out r' v' ran
  · intro f r v out r' v' ran
    exact ensures_plain_iff.mp (ensures_feiFeeRtc_settings f) out r' v' ran

/-- A trim in FBE at 50 MHz, and a switch to the RTC whose counter has moved on before the first poll. -/
theorem settings_given_back_trim_rtc :
    (∃ r' v', (atc 1 (fun _ bus irc => BitVec.ofInt 16 (21 * bus / irc)) 0 32768 50000000).Runs
      anyTrimHardware ⟨resetRegisters, 0x01140000⟩ trimStatusFbe (.ok (some 0)) r' v' ∧
        r'.clkdiv1 = 0x01140000) ∧
      ∃ r' v', (feiFeeRtc 32768).Runs anyHardware resetRegisters resetStatus (.ok 20971520) r' v' ∧
        rtcGateOff r' = true ∧ rtcTceOff r' = true := by
  have trim : ((atc 1 (fun _ bus irc => BitVec.ofInt 16 (21 * bus / irc)) 0 32768 50000000).replay
      anyTrimHardware [] ⟨resetRegisters, 0x01140000⟩ trimStatusFbe).map Prod.fst =
        some (.ok (some 0)) := by decide +kernel
  have counted : ((feiFeeRtc 32768).replay anyHardware
      (List.replicate 12 [] ++ [[{ resetStatus with tpr := 4096, irefst := false }]]) resetRegisters
        resetStatus).map Prod.fst = some (.ok 20971520) := by decide +kernel
  obtain ⟨⟨_, r₁, v₁⟩, replayed₁, rfl⟩ := Option.map_eq_some_iff.mp trim
  obtain ⟨⟨_, r₂, v₂⟩, replayed₂, rfl⟩ := Option.map_eq_some_iff.mp counted
  have run₁ := Runs.of_replay replayed₁
  have run₂ := Runs.of_replay replayed₂
  refine ⟨⟨r₁, v₁, run₁, ?_⟩, r₂, v₂, run₂, ?_⟩
  · exact settings_given_back.1 _ _ _ _ _ _ _ _ _ _ run₁ nofun
  · exact settings_given_back.2 _ _ _ _ _ _ run₂

end WirelessSpeakers.Soundness
