import WirelessSpeakers.Soundness.CrystalCalls
import WirelessSpeakers.Soundness.FllBand

/-! # Results that are exact and no error codes

A frequency and an error code share one `int`. The lower limit of the frequency is checked only for a
crystal, so an external clock can be given as a number that is a code, or as a negative one whose
multiple wraps around into the band of the FLL.
-/

namespace WirelessSpeakers.Soundness

open Model Program

/-- The products that a call forms, with the settings in the registers that it leaves. -/
def products (x : Transition) (mcg : Mcg) : List ℤ :=
  match x with
  | .feiFee c .. | .fbiFee c .. => [mcg.dividedReference c * fllMultiplier mcg.dmx32 mcg.drstDrs]
  | .pllInit c _ _ p d _ => [c.tdiv p * d, c.tdiv mcg.prdiv * mcg.vdiv]
  | _ => []

/-- The result is no error code, and no product has wrapped around. -/
structure Exact (x : Transition) (f : ℤ) (mcg : Mcg) : Prop where
  result : 0x5B ≤ f
  products : ∀ n ∈ products x mcg, int n = n

/-- Every success of the call with these settings is exact. -/
def ReturnsExactly (x : Transition) (r : ClockRegisters) : Prop :=
  ∀ v f r' v', x.program.Runs anyHardware r v (.ok f) r' v' → Exact x f r'.mcg

/-- The external clock is a crystal, is not negative, or is not mistaken for another one by its multiple
modulo `2 ^ 32`. -/
def NotMistaken (crystalVal : ℤ) (erefsVal : BitVec 8) (mcg : Mcg) : Prop :=
  erefsVal ≠ 0 ∨ 0 ≤ crystalVal ∨ ¬ (lowest mcg ≤ crystalVal * multiplier mcg % 2 ^ 32 ∧
    crystalVal * multiplier mcg % 2 ^ 32 ≤ highest mcg)

/-- The arguments and settings with which the result is exact; with `LP` set the calls out of FBI are
refused. -/
def Unambiguous (x : Transition) (r : ClockRegisters) : Prop :=
  match x with
  | .feiFbe c _ e => e ≠ 0 ∨ 0x5B ≤ c
  | .fbiFbe c _ e => r.mcg.lp = true ∨ e ≠ 0 ∨ 0x5B ≤ c
  | .feiFee c _ e => NotMistaken c e r.mcg
  | .fbiFee c _ e => r.mcg.lp = true ∨ NotMistaken c e r.mcg
  | _ => True

section

variable {x : Transition} {c p d f : ℤ} {h e : BitVec 8} {r r' : ClockRegisters}

/-- A crystal or an external clock of enough Hertz is returned as it is. -/
theorem le_of_crystalFits (fits : CrystalFits c e) (enough : e ≠ 0 ∨ 0x5B ≤ c) : 0x5B ≤ c := by
  rcases enough with crystal | enough
  · have bands := fits.2 crystal
    omega
  · exact enough

theorem Configured.dividedReference (configured : Configured x c e r (.ok f) r')
    (table : tableRange x c = rangeVal c) : r'.mcg.dividedReference c = feeReference c e := by
  rw [Mcg.dividedReference, configured.range0, table, feeReference]

theorem Configured.multiplier (configured : Configured x c e r (.ok f) r') :
    fllMultiplier r'.mcg.dmx32 r'.mcg.drstDrs = multiplier r.mcg := by
  rw [Soundness.multiplier, Mcg.dmx32, Mcg.drstDrs, configured.c4]
  rfl

/-- The product of an accepted reference fits. -/
theorem int_feeReference (fits : CrystalFits c e) (accepts : 0x5B ≤ r.mcg.fllFreq (feeReference c e))
    (distinct : NotMistaken c e r.mcg) :
    int (feeReference c e * multiplier r.mcg) = feeReference c e * multiplier r.mcg := by
  have positive : 0 ≤ c := by
    by_contra negative
    by_cases crystal : e = 0
    · subst crystal
      rw [feeReference_below (by omega) (.inl rfl), fllFreq_accepts_iff_emod] at accepts
      rcases distinct with crystal | positive | outside
      · exact crystal rfl
      · exact negative positive
      · exact outside accepts
    · have bands := fits.2 crystal
      omega
  have limits := feeReference_limits (e := e) positive fits.1
  exact int_multiple (by omega)

/-- The one product of `fei_fee` and `fbi_fee`. -/
theorem Configured.exact_fee (configured : Configured x c e r (.ok f) r')
    (table : tableRange x c = rangeVal c) (fits : CrystalFits c e)
    (accepts : 0x5B ≤ r.mcg.fllFreq (feeReference c e)) (distinct : NotMistaken c e r.mcg) :
    ∀ n ∈ [r'.mcg.dividedReference c * fllMultiplier r'.mcg.dmx32 r'.mcg.drstDrs], int n = n := by
  intro n member
  obtain rfl := List.mem_singleton.mp member
  rw [configured.dividedReference table, configured.multiplier]
  exact int_feeReference fits accepts distinct

theorem Configured.exact (configured : Configured x c e r (.ok f) r')
    (sets : x.oscillator? = some (c, h, e)) (unambiguous : Unambiguous x r) : Exact x f r'.mcg := by
  have output := configured.output f rfl
  have accepts := configured.accepts
  cases x with
  | feiFbe =>
    cases sets
    rw [output]
    exact ⟨le_of_crystalFits accepts unambiguous, nofun⟩
  | fbiFbe =>
    cases sets
    have enabled := configured.enabled rfl
    rw [output]
    exact ⟨le_of_crystalFits accepts (unambiguous.resolve_left (by simp [enabled])), nofun⟩
  | feiFee =>
    cases sets
    rw [output]
    exact ⟨accepts.2, configured.exact_fee rfl accepts.1 accepts.2 unambiguous⟩
  | fbiFee =>
    cases sets
    have enabled := configured.enabled rfl
    have distinct := unambiguous.resolve_left (by simp [enabled])
    rw [output]
    exact ⟨accepts.2, configured.exact_fee rfl accepts.1 accepts.2 distinct⟩
  | pllInit _ _ _ p d =>
    cases sets
    obtain ⟨_, _, _, factor, reference, limits⟩ := accepts
    obtain ⟨prdiv, vdiv⟩ := configured.dividers f rfl p d rfl
    have fitting := int_product reference factor
    constructor
    · rw [output]
      exact (by decide : (0x5B : ℤ) ≤ 48000000).trans limits.1
    · intro n member
      simp only [products, prdiv, vdiv, List.mem_cons, List.not_mem_nil, or_false, or_self] at member
      rw [member]
      exact fitting
  | _ => cases sets

/-- An external clock that is mistaken for another one. -/
theorem mistaken_of_not (mistaken : ¬ NotMistaken c e r.mcg) :
    e = 0 ∧ c < 0 ∧ 0x5B ≤ r.mcg.fllFreq (feeReference c e) := by
  obtain ⟨external, rest⟩ := not_or.mp mistaken
  obtain ⟨negative, wrapped⟩ := not_or.mp rest
  obtain rfl := not_not.mp external
  refine ⟨rfl, not_le.mp negative, ?_⟩
  rw [feeReference_below (by omega) (.inl rfl), fllFreq_accepts_iff_emod]
  exact not_not.mp wrapped

/-- Its product does not fit. -/
theorem Configured.not_exact_fee (configured : Configured x c e r (.ok f) r')
    (table : tableRange x c = rangeVal c) (mistaken : ¬ NotMistaken c e r.mcg) :
    ¬ ∀ n ∈ [r'.mcg.dividedReference c * fllMultiplier r'.mcg.dmx32 r'.mcg.drstDrs], int n = n := by
  obtain ⟨external, negative, accepts⟩ := mistaken_of_not mistaken
  intro exact
  have fits := exact _ List.mem_cons_self
  rw [configured.dividedReference table, configured.multiplier] at fits
  have inside := (fllFreq_accepts_iff.mp accepts).1
  rw [feeReference_below (by omega) (.inl external)] at fits inside
  have product : c * Soundness.multiplier r.mcg < 0 := Int.mul_neg_of_neg_of_pos negative
    (band r.mcg).multiplier.1
  have order := (band r.mcg).order
  omega

end

/-- Whatever the hardware shows, a call that sets up the oscillator returns exact results exactly with
these arguments and settings. -/
theorem returnsExactly_iff {x : Transition} {c : ℤ} {h e : BitVec 8}
    (sets : x.oscillator? = some (c, h, e)) (r : ClockRegisters) :
    ReturnsExactly x r ↔ Unambiguous x r := by
  have knows {v v' : ClockStatus} {f : ℤ} {r' : ClockRegisters}
      (run : x.program.Runs anyHardware r v (.ok f) r' v') : Configured x c e r (.ok f) r' :=
    ensures_plain_iff.mp (ensures_unlessRefused sets) _ r' v' run (by rintro ⟨_, _, ⟨⟩⟩)
  constructor
  · intro exact
    by_contra ambiguous
    have reached (enabled : entryMode x = .fbi → r.mcg.lp = false) (accepts : Accepts x r.mcg) :
        ∃ r', Configured x c e r (.ok (outputFreq x r.mcg)) r' ∧ Exact x (outputFreq x r.mcg) r'.mcg := by
      obtain ⟨v, r', v', run⟩ := exists_output sets enabled accepts
      exact ⟨r', knows run, exact v _ r' v' run⟩
    cases x with
    | feiFbe =>
      cases sets
      obtain ⟨external, low⟩ := not_or.mp ambiguous
      obtain ⟨r', _, exact⟩ := reached nofun ⟨by omega, fun crystal => absurd crystal external⟩
      exact low exact.result
    | fbiFbe =>
      cases sets
      obtain ⟨enabled, rest⟩ := not_or.mp ambiguous
      obtain ⟨external, low⟩ := not_or.mp rest
      obtain ⟨r', _, exact⟩ := reached (fun _ => Bool.eq_false_iff.mpr enabled)
        ⟨by omega, fun crystal => absurd crystal external⟩
      exact low exact.result
    | feiFee =>
      cases sets
      obtain ⟨rfl, negative, accepts⟩ := mistaken_of_not ambiguous
      obtain ⟨r', configured, exact⟩ := reached nofun ⟨⟨by omega, absurd rfl⟩, accepts⟩
      exact configured.not_exact_fee rfl ambiguous exact.products
    | fbiFee =>
      cases sets
      obtain ⟨enabled, mistaken⟩ := not_or.mp ambiguous
      obtain ⟨rfl, negative, accepts⟩ := mistaken_of_not mistaken
      obtain ⟨r', configured, exact⟩ := reached (fun _ => Bool.eq_false_iff.mpr enabled)
        ⟨⟨by omega, absurd rfl⟩, accepts⟩
      exact configured.not_exact_fee rfl mistaken exact.products
    | _ => exact ambiguous trivial
  · exact fun unambiguous v f r' v' run => (knows run).exact sets unambiguous

/-- A crystal of 8 MHz is exact in `fei_fee`. -/
theorem returnsExactly_8MHz : ReturnsExactly (.feiFee 8000000 0 1) resetRegisters :=
  (returnsExactly_iff rfl _).mpr (.inl (by decide))

/-- With an external clock of 1 Hz `fei_fbe` returns its own code for not being in FEI. -/
theorem not_returnsExactly : ¬ ∀ (x : Transition) (c : ℤ) (h e : BitVec 8) (r : ClockRegisters),
    x.oscillator? = some (c, h, e) → ReturnsExactly x r := by
  intro exact
  have accepts : Accepts (.feiFbe 1 0 0) resetRegisters.mcg := ⟨by decide, absurd rfl⟩
  obtain ⟨v, r', v', run⟩ := exists_output (x := .feiFbe 1 0 0) rfl nofun accepts
  exact absurd (exact _ 1 0 0 resetRegisters rfl v _ r' v' run).result (by decide)

end WirelessSpeakers.Soundness
