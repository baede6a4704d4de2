import WirelessSpeakers.Soundness.ClockEdits
import WirelessSpeakers.Soundness.ClockRules

/-! # What a refused transition leaves

A guard or a check that fails before the first write leaves the MCG as it was. Three functions check
the frequency of the FLL later: `fei_fee` and `fbi_fee` have written `C2` by then, `fei_fee_rtc` also
`C1` and `C7`. On hardware that may show any status, the exact condition is that this check passes, is
not reached, or finds registers that already held what was written.
-/

namespace WirelessSpeakers.Soundness

open Model Program

/-- The reference `fei_fee` and `fbi_fee` compute: the divider is behind a factor 32 if the `RANGE0`
just written is nonzero, be it from the table or from bits 2 and 3 of `erefs_val`. -/
def feeReference (crystalVal : ℤ) (erefsVal : BitVec 8) : ℤ :=
  let frdiv := (frdivVal crystalVal).toNat
  let range := (rangeVal crystalVal).extractLsb' 0 2 ||| erefsVal.extractLsb' 2 2
  if range.toNat > 0 then crystalVal.tdiv (32 * 2 ^ frdiv) else crystalVal.tdiv (2 ^ frdiv)

/-- The crystal is refused before the write of `C2`, or the FLL frequency is accepted after it, or `C2`
already holds what is written. -/
def FeeChecksSuffice (crystalVal : ℤ) (hgoVal erefsVal : BitVec 8) (r : ClockRegisters) : Prop :=
  crystalVal > 50000000 ∨
  (erefsVal ≠ 0 ∧ (crystalVal < 30000 ∨ (crystalVal > 40000 ∧ crystalVal < 3000000) ∨
    crystalVal > 32000000)) ∨
  0x5B ≤ r.mcg.fllFreq (feeReference crystalVal erefsVal) ∨
  (oscillatorEdit (rangeVal crystalVal) hgoVal erefsVal).apply r = r

/-- The RTC frequency is refused at once, or the FLL frequency is accepted, or `C7` and `C1` already
hold what is written. -/
def RtcChecksSuffice (rtcFreq : ℤ) (r : ClockRegisters) : Prop :=
  (rtcFreq > 40000 ∨ rtcFreq < 30000) ∨ 0x5B ≤ r.mcg.fllFreq rtcFreq ∨
  ((ClockEdit.c1 (~~~(c1IrclkenMask ||| c1IrefstenMask)) 0).apply
    ((ClockEdit.c7 0 c7OscselMask).apply r)).mcg = r.mcg

/-- The registers and arguments with which a refusal leaves everything as it was. -/
def ChecksSuffice (x : Transition) (r : ClockRegisters) : Prop :=
  match x with
  | .feiFee c h e => FeeChecksSuffice c h e r
  | .fbiFee c h e => r.mcg.lp = true ∨ FeeChecksSuffice c h e r
  | .feiFeeRtc f => RtcChecksSuffice f r
  | _ => True

/-- If this outcome is a refusal, the MCG is as it was. -/
def Unchanged (before : ClockRegisters) (out : Except ℤ ℤ) (after : ClockRegisters)
    (_ : ClockStatus) : Prop :=
  Refused out → after.mcg = before.mcg

section

variable {hw : Hardware ClockRegisters ClockStatus} {r after : ClockRegisters} {v : ClockStatus}
  {c : ℤ} {h e : BitVec 8}

@[simp] theorem unchanged_self {out : Except ℤ ℤ} : Unchanged r out r v := fun _ => rfl

@[simp] theorem unchanged_ok {f : ℤ} : Unchanged r (.ok f) after v := by
  rintro ⟨_, _, same⟩
  cases same

theorem unchanged_timeout {code : ℤ} (listed : code ∉ refusalCodes) :
    Unchanged r (.error code) after v := by
  rintro ⟨_, member, same⟩
  cases same
  exact absurd member listed

theorem unchanged_ite {cond : Prop} [Decidable cond] {code code' : ℤ} (listed : code ∉ refusalCodes)
    (listed' : code' ∉ refusalCodes) :
    Unchanged r (.error (if cond then code else code')) after v := by
  split
  · exact unchanged_timeout listed
  · exact unchanged_timeout listed'

/-- What `fll_freq` returns is a frequency or one of its codes. -/
theorem fllFreq_refused {mcg : Mcg} {f : ℤ} (low : mcg.fllFreq f < 0x5B) :
    Refused (.error (mcg.fllFreq f)) := by
  have codes : ∀ drs : BitVec 2, (fllRange drs).1 > 0x5B ∧ (fllRange drs).2.2.1 ∈ refusalCodes ∧
      (fllRange drs).2.2.2 ∈ refusalCodes := by decide
  refine ⟨_, ?_, rfl⟩
  obtain ⟨lowest, below, above⟩ := codes mcg.drstDrs
  unfold Mcg.fllFreq at low ⊢
  dsimp only at low ⊢
  split_ifs at low ⊢
  · exact below
  · exact above
  · omega

/-- The transitions that make all checks before their first write. -/
theorem ensures_checksFirst {x : Transition}
    (first : ∀ c h e f, x ≠ .feiFee c h e ∧ x ≠ .fbiFee c h e ∧ x ≠ .feiFeeRtc f) :
    x.program.Ensures hw.plain (Unchanged r) r v := by
  cases x
  case feiFee c h e => exact absurd rfl (first c h e 0).1
  case fbiFee c h e => exact absurd rfl (first c h e 0).2.1
  case feiFeeRtc f => exact absurd rfl (first 0 0 0 f).2.2
  all_goals
    refine ensures_guard (fun w _ _ => ?_) fun w _ _ => unchanged_self
    simp [Hardware.plain, checkCrystalMax, checkCrystal, checkDividers, checkReference, checkOutput,
      checkSlowIrc, checkFll, checkIrc, enableMonitor, disableMonitor, waitOscinit, waitIrefst,
      waitIrcst, waitPllst, waitClkst, waitLock, ircOut, switchToPll, toFbe, unchanged_timeout,
      unchanged_ite, refusalCodes, clkstCode]

/-- The status out of reset is that of FEI, and FEI puts no condition on a register. -/
theorem fei_shows : ClockMode.fei.Shows r.mcg resetStatus where
  clkst := rfl
  irefst := rfl
  pllst _ wanted := by
    cases wanted
    rfl
  lp _ wanted := by cases wanted

theorem dividedReference_oscillatorEdit :
    ((oscillatorEdit (rangeVal c) h e).apply r).mcg.dividedReference c = feeReference c e := by
  rw [Mcg.dividedReference, range0_oscillatorEdit, feeReference]

/-- What is left of `fei_fee` or `fbi_fee` behind the guard, with its own polls at the end. -/
theorem ensures_toFee_unchanged {rest : ℤ → ClockDriver ℤ}
    (polls : ∀ f r' v', (rest f).Ensures hw.plain (Unchanged r) r' v')
    (suffice : FeeChecksSuffice c h e r) :
    (toFee c h e >>= rest).Ensures hw.plain (Unchanged r) r v := by
  have late (low : r.mcg.fllFreq (feeReference c e) < 0x5B) {w : ClockStatus}
      (accepted : ¬ c > 50000000) (crystal : ¬ (decide (e ≠ 0) ∧ (c < 30000 ∨
        (c > 40000 ∧ c < 3000000) ∨ c > 32000000))) :
      Unchanged r (.error (r.mcg.fllFreq (feeReference c e)))
        ((oscillatorEdit (rangeVal c) h e).apply r) w := by
    rcases suffice with large | outside | high | same
    · exact absurd large accepted
    · exact absurd ⟨decide_eq_true outside.1, outside.2⟩ crystal
    · omega
    · rw [same]
      exact unchanged_self
  simp only [toFee, bind_assoc, pure_bind]
  apply ensures_check fun _ => unchanged_self
  intro accepted
  apply ensures_checkIf fun _ => unchanged_self
  intro crystal
  refine ensures_bind.mpr (ensures_edit.mpr fun w _ _ => ⟨trivial, ?_⟩)
  simp only [checkFll, ensures_bind, ensures_look, ensures_failIf, ensures_pure, ensures_edit,
    ClockEdit.fllFreq_apply, dividedReference_oscillatorEdit]
  refine ⟨fun low => late low accepted crystal, fun _ u _ _ => ⟨trivial, polls _ _ _⟩⟩

/-- A refusal behind the write of `C2` is reached if the condition fails. -/
theorem suffice_of_toFee {rest : ℤ → ClockDriver ℤ}
    (held : (toFee c h e >>= rest).Ensures hw.plain (Unchanged r) r v) : FeeChecksSuffice c h e r := by
  simp only [toFee, bind_assoc, pure_bind] at held
  have accepted := ensures_failIf.mp (ensures_bind.mp held)
  by_cases large : c > 50000000
  · exact .inl large
  · have crystal := ensures_onlyIf_failIf.mp (ensures_bind.mp (accepted.2 large))
    by_cases outside : decide (e ≠ 0) ∧ (c < 30000 ∨ (c > 40000 ∧ c < 3000000) ∨ c > 32000000)
    · exact .inr (.inl ⟨of_decide_eq_true outside.1, outside.2⟩)
    · have written := (ensures_edit.mp (ensures_bind.mp (crystal.2 outside)) v .refl trivial).2
      simp only [checkFll, ensures_bind, ensures_look, ensures_failIf, ensures_pure, ensures_edit,
        ClockEdit.fllFreq_apply, dividedReference_oscillatorEdit] at written
      by_cases low : r.mcg.fllFreq (feeReference c e) < 0x5B
      · refine .inr (.inr (.inr ?_))
        have same : ((oscillatorEdit (rangeVal c) h e).apply r).mcg = r.mcg :=
          written.1 low (fllFreq_refused low)
        change { r with mcg := ((oscillatorEdit (rangeVal c) h e).apply r).mcg } = r
        rw [same]
      · exact .inr (.inr (.inl (by omega)))

/-- A result, and the MCG as it was. -/
def Unnoticed {α : Type} (before : ClockRegisters) (out : Except ℤ α) (after : ClockRegisters)
    (_ : ClockStatus) : Prop :=
  (∃ a, out = .ok a) ∧ after.mcg = before.mcg

theorem unnoticed_enableRtc : enableRtc.Ensures hw.plain (Unnoticed r) r v := by
  simp [enableRtc, Unnoticed, Hardware.plain]

theorem unnoticed_rtcCount : rtcCount.Ensures hw.plain (Unnoticed r) r v := by
  simp [rtcCount, Unnoticed, Hardware.plain]

theorem unnoticed_restoreRtc {gate tce : Bool} :
    (restoreRtc gate tce).Ensures hw.plain (Unnoticed r) r v := by
  simp [restoreRtc, Unnoticed, Hardware.plain]

/-- An unnoticed part in front. -/
theorem ensures_unnoticed_bind {α : Type} {p : ClockDriver α} {rest : α → ClockDriver ℤ}
    {Q : Except ℤ ℤ → ClockRegisters → ClockStatus → Prop}
    (unnoticed : p.Ensures hw.plain (Unnoticed r) r v)
    (next : ∀ a r' v', r'.mcg = r.mcg → (rest a).Ensures hw.plain Q r' v') :
    (p >>= rest).Ensures hw.plain Q r v := by
  refine ensures_bind.mpr (unnoticed.mono ?_)
  rintro out r' v' ⟨⟨a, rfl⟩, same⟩
  exact next a r' v' same

/-- Some run gets past an unnoticed part. -/
theorem unnoticed_past {α : Type} {p : ClockDriver α} {rest : α → ClockDriver ℤ}
    {Q : Except ℤ ℤ → ClockRegisters → ClockStatus → Prop}
    (unnoticed : p.Ensures hw.plain (Unnoticed r) r v) (held : (p >>= rest).Ensures hw.plain Q r v) :
    ∃ a r' v', r'.mcg = r.mcg ∧ (rest a).Ensures hw.plain Q r' v' := by
  obtain ⟨out, r', v', ⟨⟨a, rfl⟩, same⟩, after⟩ := unnoticed.exists (ensures_bind.mp held)
  exact ⟨a, r', v', same, after⟩

theorem unnoticed_spin {cond : ClockStatus → Bool} {n : ℕ} :
    (spin cond n : ClockDriver Unit).Ensures hw.plain (Unnoticed r) r v :=
  (ensures_spin fun _ _ _ held => held).mpr ⟨⟨(), rfl⟩, rfl⟩

theorem ensures_feiFeeRtc {f : ℤ} (suffice : RtcChecksSuffice f r) :
    (feiFeeRtc f).Ensures hw.plain (Unchanged r) r v := by
  refine ensures_guard (fun w _ _ => ?_) fun w _ _ => unchanged_self
  apply ensures_check fun _ => unchanged_self
  intro inside
  refine ensures_unnoticed_bind unnoticed_enableRtc fun (gate, tce) r₁ v₁ same₁ => ?_
  apply ensures_unnoticed_bind unnoticed_rtcCount
  intro count r₂ v₂ same₂
  apply ensures_unnoticed_bind unnoticed_spin
  intro _ r₃ v₃ same₃
  refine ensures_bind.mpr (ensures_see.mpr fun w _ => ?_)
  refine ensures_bind.mpr (ensures_onlyIf.mpr ⟨fun _ => ?_, fun _ => ?_⟩)
  · refine ensures_bind.mpr (unnoticed_restoreRtc.mono ?_)
    rintro out r₄ v₄ ⟨⟨_, rfl⟩, _⟩
    exact unchanged_timeout (v := v₄) (by decide)
  · apply ensures_unnoticed_bind unnoticed_restoreRtc
    intro _ r₄ v₄ same₄
    have same := same₄.trans (same₃.trans (same₂.trans same₁))
    simp only [waitIrefst, checkFll, ensures_bind, ensures_edit, ensures_wait, ensures_look,
      ensures_failIf, ensures_pure, ClockEdit.fllFreq_apply, same]
    refine fun _ _ _ => ⟨trivial, fun _ _ _ => ⟨trivial, fun _ _ => ⟨fun _ => ⟨fun low => ?_, ?_⟩, ?_⟩⟩⟩
    · rcases suffice with outside | high | kept
      · exact absurd outside inside
      · omega
      · intro _
        rw [ClockEdit.mcg_apply_congr (ClockEdit.mcg_apply_congr same), kept]
    · exact fun _ _ _ _ => ⟨trivial, unchanged_ok⟩
    · exact fun _ => unchanged_timeout (by decide)

/-- The late check of the FLL is reached if the condition fails: some schedule lets the RTC count. -/
theorem suffice_of_feiFeeRtc {f : ℤ}
    (held : ∀ v, (feiFeeRtc f).Ensures anyHardware.plain (Unchanged r) r v) : RtcChecksSuffice f r := by
  have passed := requireMode_passes (ensures_bind.mp (held resetStatus)) fei_shows
  have inside := ensures_failIf.mp (ensures_bind.mp passed)
  by_cases outside : f > 40000 ∨ f < 30000
  · exact .inl outside
  by_cases low : r.mcg.fllFreq f < 0x5B
  · obtain ⟨⟨gate, tce⟩, r₁, v₁, same₁, counting⟩ :=
      unnoticed_past unnoticed_enableRtc (inside.2 outside)
    obtain ⟨count, r₂, v₂, same₂, polling⟩ := unnoticed_past unnoticed_rtcCount counting
    obtain ⟨_, r₃, v₃, same₃, polled⟩ := unnoticed_past unnoticed_spin polling
    have ready := ensures_see.mp (ensures_bind.mp polled)
      { resetStatus with tpr := count, irefst := false } reach_any
    have restored := (ensures_onlyIf.mp (ensures_bind.mp ready)).2 (by simp)
    obtain ⟨_, r₄, v₄, same₄, tail⟩ := unnoticed_past unnoticed_restoreRtc restored
    have same := same₄.trans (same₃.trans (same₂.trans same₁))
    simp only [waitIrefst, checkFll, ensures_bind, ensures_edit, ensures_wait, ensures_look,
      ensures_failIf, ensures_pure, ClockEdit.fllFreq_apply, same] at tail
    have late := ((tail _ .refl trivial).2 _ .refl trivial).2
      { resetStatus with irefst := false } reach_any
    have kept := (late.1 rfl).1 low (fllFreq_refused low)
    rw [ClockEdit.mcg_apply_congr (ClockEdit.mcg_apply_congr same)] at kept
    exact .inr (.inr kept)
  · exact .inr (.inl (by omega))

end

/-- Whatever the hardware does, a refused call leaves every MCG register as it was exactly where the
checks of the function suffice: everywhere but in `fei_fee`, `fbi_fee` and `fei_fee_rtc`. -/
theorem refusal_changes_nothing_iff (x : Transition) (r : ClockRegisters) :
    (∀ v out r' v', x.program.Runs anyHardware r v out r' v' → Refused out → r'.mcg = r.mcg) ↔
      ChecksSuffice x r := by
  have stated : (∀ v out r' v', x.program.Runs anyHardware r v out r' v' → Refused out →
      r'.mcg = r.mcg) ↔ ∀ v, x.program.Ensures anyHardware.plain (Unchanged r) r v :=
    forall_congr' fun v => ensures_plain_iff.symm
  rw [stated]
  constructor
  · intro held
    cases x
    case feiFee c h e =>
      exact suffice_of_toFee (requireMode_passes (ensures_bind.mp (held resetStatus)) fei_shows)
    case fbiFee c h e =>
      cases lp : r.mcg.lp with
      | true => exact .inl lp
      | false =>
        have shows : ClockMode.fbi.Shows r.mcg { resetStatus with clkst := 1 } :=
          ⟨rfl, rfl, fun _ wanted => by cases wanted; rfl, fun _ wanted => by cases wanted; exact lp⟩
        exact .inr (suffice_of_toFee (requireMode_passes (ensures_bind.mp (held _)) shows))
    case feiFeeRtc f => exact suffice_of_feiFeeRtc held
    all_goals trivial
  · intro suffice v
    cases x
    case feiFee c h e =>
      refine ensures_guard (fun w _ _ => ?_) fun w _ _ => unchanged_self
      refine ensures_toFee_unchanged (fun f r' v' => ?_) suffice
      simp [Hardware.plain, waitOscinit, waitIrefst, enableMonitor, unchanged_timeout, refusalCodes]
    case fbiFee c h e =>
      refine ensures_guard (fun w _ seen => ?_) fun w _ _ => unchanged_self
      have enabled := seen.lp false rfl
      refine ensures_toFee_unchanged (fun f r' v' => ?_) (suffice.resolve_left (by simp [enabled]))
      simp [Hardware.plain, waitOscinit, waitIrefst, waitClkst, enableMonitor, unchanged_timeout,
        refusalCodes, clkstCode]
    case feiFeeRtc f => exact ensures_feiFeeRtc suffice
    all_goals exact ensures_checksFirst (by simp)

/-- At 50 MHz `fei_fee` refuses the FLL frequency when the `RANGE0` of `C2` is already changed. -/
theorem refusal_changes_c2 : ¬ ∀ (x : Transition) r v out r' v',
    x.program.Runs anyHardware r v out r' v' → Refused out → r'.mcg = r.mcg := by
  intro keeps
  have held := ensures_plain_iff.mpr (keeps (.feiFee 50000000 0 0) resetRegisters resetStatus)
  rcases suffice_of_toFee (requireMode_passes (ensures_bind.mp held) fei_shows) with
    large | outside | high | same
  · exact absurd large (by decide)
  · exact absurd outside (by decide)
  · exact absurd high (by decide)
  · exact absurd same (by decide)

end WirelessSpeakers.Soundness
