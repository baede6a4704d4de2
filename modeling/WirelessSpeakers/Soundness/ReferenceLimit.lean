import WirelessSpeakers.Soundness.CrystalCalls
import WirelessSpeakers.Soundness.FllBand

/-! # The upper limit of the external FLL reference

The table of `FRDIV` keeps the reference at 39062 Hz or below up to 40 MHz. Its last row is open, and the
accepted frequencies end at 50 MHz, so above 40001535 Hz only the checks of the FLL frequency, or those
of a crystal and of the PLL, can refuse a reference that is too fast.
-/

namespace WirelessSpeakers.Soundness

open Model Program

/-- The FLL reference is divided, and not faster than the driver allows. -/
structure Limited (crystalVal : ℤ) (mcg : Mcg) : Prop where
  range0 : 0 < mcg.range0.toNat
  reference : crystalVal.tdiv (32 * 2 ^ mcg.frdiv.toNat) ≤ 39063

/-- Some run of the call that is not refused leaves these registers. -/
def Leaves (x : Transition) (after : ClockRegisters) : Prop :=
  ∃ r v out v', x.program.Runs anyHardware r v out after v' ∧ ¬ Refused out

/-- All such runs keep the limit, and all calls for this frequency choose one `FRDIV`. -/
def KeepsLimit (x : Transition) (crystalVal : ℤ) : Prop :=
  ∀ r', Leaves x r' → Limited crystalVal r'.mcg ∧ ∀ (y : Transition) (h e : BitVec 8) (s' : ClockRegisters),
    y.oscillator? = some (crystalVal, h, e) → Leaves y s' → s'.mcg.frdiv = r'.mcg.frdiv

/-- The frequency is low enough for the last row of the table, or a check refuses the call. -/
def DividesEnough : Transition → Prop
  | .feiFbe c _ e | .fbiFbe c _ e => c ≤ 40001535 ∨ ¬ CrystalFits c e
  | .pllInit c _ e p d _ => c ≤ 40001535 ∨ ¬ InitFits c e p d
  | _ => True

section

variable {x : Transition} {c : ℤ} {h e : BitVec 8} {r r' : ClockRegisters} {out : Except ℤ ℤ}

theorem tableRange_ne_zero (above : 40000 < c) : (tableRange x c).extractLsb' 0 2 ≠ 0 := by
  cases x with
  | pllInit =>
    change (if c ≤ 8000000 then 1 else 2 : BitVec 8).extractLsb' 0 2 ≠ 0
    split_ifs <;> decide
  | _ => exact rangeVal_ne_zero above

/-- The limit is kept where the condition holds, since the FLL checks are stricter than the limit. -/
theorem Configured.limited (configured : Configured x c e r out r') (sets : x.oscillator? = some (c, h, e))
    (above : 40000 < c) (enough : DividesEnough x) : Limited c r'.mcg := by
  constructor
  · rw [configured.range0]
    exact or_toNat_pos (tableRange_ne_zero above)
  · rw [configured.frdiv]
    have accepts := configured.accepts
    cases x with
    | feiFbe | fbiFbe | pllInit =>
      cases sets
      have low := enough.resolve_right (not_not.mpr accepts)
      exact (tdiv_frdivVal_le_iff above).mpr low
    | feiFee | fbiFee =>
      cases sets
      obtain ⟨fits, fll⟩ := accepts
      have limits := feeReference_limits (e := e) (by omega) fits.1
      have limited := reference_le_of_accepts (by omega) fll
      rw [feeReference_above above] at limited
      omega
    | _ => cases sets

/-- The reference is faster than the limit in any run that gets past the checks. -/
theorem Configured.unlimited (configured : Configured x c e r out r') (above : 40000 < c)
    (limited : Limited c r'.mcg) : c ≤ 40001535 := by
  rw [← tdiv_frdivVal_le_iff above, ← configured.frdiv]
  exact limited.reference

theorem Leaves.configured (leaves : Leaves x r') (sets : x.oscillator? = some (c, h, e)) :
    ∃ r out, Configured x c e r out r' := by
  obtain ⟨r, v, out, v', run, accepted⟩ := leaves
  exact ⟨r, out, ensures_plain_iff.mp (ensures_unlessRefused sets) out r' v' run accepted⟩

end

/-- A call that sets up the oscillator for more than 40 kHz keeps the limit exactly if the frequency is at
most 40001535 Hz, or the call checks the frequency of the FLL, or its checks refuse it. -/
theorem keepsLimit_iff {x : Transition} {c : ℤ} {h e : BitVec 8}
    (sets : x.oscillator? = some (c, h, e)) (above : 40000 < c) : KeepsLimit x c ↔ DividesEnough x := by
  constructor
  · intro keeps
    by_contra short
    have accepts : Accepts x resetRegisters.mcg ∧ ¬ c ≤ 40001535 := by
      cases x with
      | feiFbe | fbiFbe | pllInit =>
        cases sets
        obtain ⟨fast, fits⟩ := not_or.mp short
        exact ⟨not_not.mp fits, fast⟩
      | _ => exact absurd trivial short
    obtain ⟨v, r', v', run⟩ := exists_output sets (fun _ => rfl) accepts.1
    have leaves : Leaves x r' := ⟨_, v, _, v', run, by rintro ⟨_, _, ⟨⟩⟩⟩
    obtain ⟨r, out, configured⟩ := leaves.configured sets
    exact accepts.2 (configured.unlimited above (keeps r' leaves).1)
  · intro enough r' leaves
    obtain ⟨r, out, configured⟩ := leaves.configured sets
    refine ⟨configured.limited sets above enough, fun y h' e' s' sets' leaves' => ?_⟩
    obtain ⟨s, res, configured'⟩ := leaves'.configured sets'
    apply BitVec.eq_of_toNat_eq
    rw [configured.frdiv, configured'.frdiv]

/-- At 8 MHz, and at the 50 MHz of `main` with the checks of `fei_fee`. -/
theorem keepsLimit_8MHz : KeepsLimit (.feiFbe 8000000 0 1) 8000000 ∧
    KeepsLimit (.feiFee 50000000 0 0) 50000000 :=
  ⟨(keepsLimit_iff rfl (by decide)).mpr (.inl (by decide)), (keepsLimit_iff rfl (by decide)).mpr trivial⟩

/-- The external clock of `main` is divided by 1024, to 48828 Hz. -/
theorem not_keepsLimit : ¬ ∀ (x : Transition) (c : ℤ) (h e : BitVec 8), x.oscillator? = some (c, h, e) →
    40000 < c → (e = 0 ∨ e = 1) → KeepsLimit x c := by
  intro keeps
  have accepts : Accepts (.feiFbe 50000000 0 0) resetRegisters.mcg := ⟨by decide, absurd rfl⟩
  obtain ⟨v, r', v', run⟩ := exists_output (x := .feiFbe 50000000 0 0) rfl nofun accepts
  have leaves : Leaves (.feiFbe 50000000 0 0) r' := ⟨_, v, _, v', run, by rintro ⟨_, _, ⟨⟩⟩⟩
  obtain ⟨r, out, configured⟩ := leaves.configured rfl
  have limited := (keeps _ 50000000 0 0 rfl (by decide) (.inl rfl) r' leaves).1
  exact absurd (configured.unlimited (by decide) limited) (by decide)

end WirelessSpeakers.Soundness
