import WirelessSpeakers.Soundness.ClockEdits
import WirelessSpeakers.Soundness.ClockRules

/-! # The fields the clock driver owns

`hgo_val` is normalised before it is shifted into `C2`, `erefs_val` is not: its bits 1 to 5 land on
`HGO0`, `RANGE0`, `FCFTRIM` and `LOCRE0`, and an even value leaves `EREFS0` clear. Where the byte does
no harm, the driver keeps every field it does not own, and the oscillator fields are what the
arguments say, on any hardware.
-/

namespace WirelessSpeakers.Soundness

open Model Program TapeMachine

/-- The fields that no transition is to touch. -/
structure Foreign (before after : Mcg) : Prop where
  irclken : after.irclken = before.irclken
  irefsten : after.irefsten = before.irefsten
  locre0 : after.locre0 = before.locre0
  fcftrim : after.fcftrim = before.fcftrim
  pllEnables : after.pllEnables = before.pllEnables
  lolie0 : after.lolie0 = before.lolie0

namespace Foreign

theorem refl (mcg : Mcg) : Foreign mcg mcg := ⟨rfl, rfl, rfl, rfl, rfl, rfl⟩

theorem trans {a b c : Mcg} (first : Foreign a b) (second : Foreign b c) : Foreign a c :=
  ⟨second.irclken.trans first.irclken, second.irefsten.trans first.irefsten,
    second.locre0.trans first.locre0, second.fcftrim.trans first.fcftrim,
    second.pllEnables.trans first.pllEnables, second.lolie0.trans first.lolie0⟩

end Foreign

/-- What a call with these arguments is to leave in the oscillator fields. -/
structure OscillatorSet (crystalVal : ℤ) (hgoVal erefsVal : BitVec 8) (mcg : Mcg) : Prop where
  hgo0 : mcg.hgo0 = decide (hgoVal ≠ 0)
  erefs0 : mcg.erefs0 = decide (erefsVal ≠ 0)
  range0 : mcg.range0 = (rangeVal crystalVal).extractLsb' 0 2

/-- The bits of `erefs_val` set what they are to set and nothing that is not set anyway: bit 0 tells
whether the byte is nonzero, and bits 1 to 5 lie under `HGO0`, `RANGE0`, `FCFTRIM` and `LOCRE0`. -/
structure ErefsFits (crystalVal : ℤ) (hgoVal erefsVal : BitVec 8) (mcg : Mcg) : Prop where
  selects : erefsVal.getLsbD 0 = decide (erefsVal ≠ 0)
  hgo0 : erefsVal.getLsbD 1 → hgoVal ≠ 0
  range0 : (rangeVal crystalVal).extractLsb' 0 2 ||| erefsVal.extractLsb' 2 2 =
    (rangeVal crystalVal).extractLsb' 0 2
  fcftrim : erefsVal.getLsbD 4 → mcg.fcftrim
  locre0 : erefsVal.getLsbD 5 → mcg.locre0

/-- `ErefsFits` for a call that writes the oscillator fields. -/
def Fits (x : Transition) (r : ClockRegisters) : Prop :=
  ∀ c h e, x.oscillator? = some (c, h, e) → ErefsFits c h e r.mcg

instance (c : ℤ) (h e : BitVec 8) (mcg : Mcg) : Decidable (ErefsFits c h e mcg) :=
  decidable_of_iff
    (e.getLsbD 0 = decide (e ≠ 0) ∧ (e.getLsbD 1 → h ≠ 0) ∧
      (rangeVal c).extractLsb' 0 2 ||| e.extractLsb' 2 2 = (rangeVal c).extractLsb' 0 2 ∧
      (e.getLsbD 4 → mcg.fcftrim) ∧ (e.getLsbD 5 → mcg.locre0))
    ⟨fun ⟨selects, hgo0, range0, fcftrim, locre0⟩ => ⟨selects, hgo0, range0, fcftrim, locre0⟩,
      fun fits => ⟨fits.selects, fits.hgo0, fits.range0, fits.fcftrim, fits.locre0⟩⟩

instance (x : Transition) (r : ClockRegisters) : Decidable (Fits x r) :=
  match own : x.oscillator? with
  | none => isTrue fun _ _ _ same => by simp [own] at same
  | some (c, h, e) => decidable_of_iff (ErefsFits c h e r.mcg)
    ⟨fun fits _ _ _ same => by
      rw [own] at same
      cases same
      exact fits, fun fits => fits c h e own⟩

/-- The codes a call returns before it writes the oscillator fields. -/
def RefusedEarly (out : Except ℤ ℤ) : Prop :=
  ∃ code ∈ ([0x1, 0x3, 0x21, 0x22, 0x41, 0x42, 0x43, 0x45] : List ℤ), out = .error code

section

variable {r : ClockRegisters} {c : ℤ} {range h e : BitVec 8}

theorem foreign_oscillatorEdit (range h : BitVec 8) (fcftrim : e.getLsbD 4 → r.mcg.fcftrim)
    (locre0 : e.getLsbD 5 → r.mcg.locre0) :
    Foreign r.mcg ((oscillatorEdit range h e).apply r).mcg := by
  rw [oscillatorEdit_eq]
  by_cases zero : h = 0 <;> constructor <;> simp_all

theorem oscillatorSet_oscillatorEdit
    (table : range.extractLsb' 0 2 = (rangeVal c).extractLsb' 0 2) (fits : ErefsFits c h e r.mcg) :
    OscillatorSet c h e ((oscillatorEdit range h e).apply r).mcg := by
  rw [oscillatorEdit_eq]
  constructor
  · have hgo0 := fits.hgo0
    by_cases zero : h = 0#8 <;> simp_all
  · have selects := fits.selects
    by_cases zero : h = 0#8 <;> simp_all
  · rw [← oscillatorEdit_eq, range0_oscillatorEdit, table]
    exact fits.range0

end

/-- A write that leaves `C2` and the foreign fields alone. -/
def Harmless (f : ClockRegisters → ClockRegisters) : Prop :=
  ∀ r, (f r).mcg.c2 = r.mcg.c2 ∧ Foreign r.mcg (f r).mcg

theorem bits_of_extractLsb' {x : BitVec 8} {k : ℕ} (zero : x.extractLsb' k 2 = 0#2) :
    x.getLsbD k = false ∧ x.getLsbD (k + 1) = false := by
  have first := congrArg (·.getLsbD 0) zero
  have second := congrArg (·.getLsbD 1) zero
  simp only [BitVec.getLsbD_extractLsb'] at first second
  exact ⟨by simpa using first, by simpa using second⟩

theorem harmless_c1 {clear set : BitVec 8} (cleared : clear.extractLsb' 0 2 = 0#2)
    (set0 : set.extractLsb' 0 2 = 0#2) : Harmless (ClockEdit.c1 clear set).apply := by
  have low (x : BitVec 8) (zero : x.extractLsb' 0 2 = 0#2) : x[0] = false ∧ x[1] = false :=
    bits_of_extractLsb' zero
  intro r
  refine ⟨rfl, ?_⟩
  constructor <;> simp [low clear cleared, low set set0]

theorem harmless_c5 {clear set : BitVec 8} (cleared : clear.extractLsb' 5 3 = 0#3)
    (set0 : set.extractLsb' 5 3 = 0#3) : Harmless (ClockEdit.c5 clear set).apply := by
  intro r
  refine ⟨rfl, ?_⟩
  constructor <;> simp [cleared, set0]

theorem harmless_c6 {clear set : BitVec 8} (cleared : clear.getLsbD 7 = false)
    (set0 : set.getLsbD 7 = false) : Harmless (ClockEdit.c6 clear set).apply := by
  intro r
  rw [BitVec.getLsbD_eq_getElem (by decide)] at cleared set0
  refine ⟨rfl, ?_⟩
  constructor <;> simp [cleared, set0]

section

variable {before : Mcg} {hw : Hardware ClockRegisters ClockStatus} {x : Transition} {c : ℤ}
  {range h e : BitVec 8} {r : ClockRegisters} {v : ClockStatus}

/-- Behind the write of the oscillator fields nothing disturbs them. -/
theorem ensures_oscillatorEdit {rest : ClockDriver ℤ} (own : x.oscillator? = some (c, h, e))
    (table : range.extractLsb' 0 2 = (rangeVal c).extractLsb' 0 2)
    (stores : rest.Stores Harmless fun _ => True) (held : Foreign before r.mcg) :
    (do ClockDriver.edit (oscillatorEdit range h e); rest : ClockDriver ℤ).Ensures
      ⟨hw, Fits x, fun r _ => Foreign before r.mcg⟩
      (fun _ r _ => Foreign before r.mcg ∧ OscillatorSet c h e r.mcg) r v := by
  refine ensures_bind.mpr (ensures_edit.mpr fun w _ permitted => ?_)
  have fits := permitted c h e own
  have kept := held.trans (foreign_oscillatorEdit range h fits.fcftrim fits.locre0)
  refine ⟨kept, ?_⟩
  apply stores.ensures (P := fun r _ => Foreign before r.mcg ∧ OscillatorSet c h e r.mcg)
  · exact fun _ _ _ _ held _ => held
  · rintro f harmless r v _ ⟨kept, set⟩
    obtain ⟨same, further⟩ := harmless r
    refine ⟨kept.trans further, ?_⟩
    constructor
    · simpa only [Mcg.hgo0, same] using set.hgo0
    · simpa only [Mcg.erefs0, same] using set.erefs0
    · simpa only [Mcg.range0, same] using set.range0
  · exact fun _ _ held => held.1
  · exact ⟨kept, oscillatorSet_oscillatorEdit table fits⟩

/-- What is known after a call on the arguments `c`, `h` and `e`. -/
def Settles (before : Mcg) (c : ℤ) (h e : BitVec 8) (out : Except ℤ ℤ) (r : ClockRegisters)
    (_ : ClockStatus) : Prop :=
  Foreign before r.mcg ∧ (¬ RefusedEarly out → OscillatorSet c h e r.mcg)

theorem Settles.early {code : ℤ} (held : Foreign before r.mcg)
    (listed : code ∈ ([0x1, 0x3, 0x21, 0x22, 0x41, 0x42, 0x43, 0x45] : List ℤ)) :
    Settles before c h e (.error code) r v :=
  ⟨held, fun late => absurd ⟨code, listed, rfl⟩ late⟩

theorem ensures_toFbe_frame (own : x.oscillator? = some (c, h, e)) (held : Foreign before r.mcg) :
    (toFbe c h e).Ensures ⟨hw, Fits x, fun r _ => Foreign before r.mcg⟩ (Settles before c h e) r v := by
  apply ensures_check fun _ => .early held (by decide)
  intro _
  apply ensures_checkIf fun _ => .early held (by decide)
  intro _
  refine (ensures_oscillatorEdit own rfl ?_ held).mono fun _ _ _ set => ⟨set.1, fun _ => set.2⟩
  simp [waitOscinit, waitIrefst, waitClkst, enableMonitor, externalEdit, harmless_c1, harmless_c6,
    BitVec.extractLsb'_or, BitVec.extractLsb'_and]

/-- The head of `fei_fee` and `fbi_fee`, and whatever harmless comes behind it. -/
theorem ensures_toFee {rest : ℤ → ClockDriver ℤ} (own : x.oscillator? = some (c, h, e))
    (stores : ∀ f, (rest f).Stores Harmless fun _ => True) (held : Foreign before r.mcg) :
    (toFee c h e >>= rest).Ensures ⟨hw, Fits x, fun r _ => Foreign before r.mcg⟩
      (Settles before c h e) r v := by
  simp only [toFee, bind_assoc, pure_bind]
  apply ensures_check fun _ => .early held (by decide)
  intro _
  apply ensures_checkIf fun _ => .early held (by decide)
  intro _
  refine (ensures_oscillatorEdit own rfl ?_ held).mono fun _ _ _ set => ⟨set.1, fun _ => set.2⟩
  simp [checkFll, externalEdit, harmless_c1, stores, BitVec.extractLsb'_and]

theorem ensures_pllInit_frame {p m : ℤ} {u : BitVec 8} (held : Foreign before r.mcg) :
    (pllInit c h e p m u).Ensures ⟨hw, Fits (.pllInit c h e p m u), fun r _ => Foreign before r.mcg⟩
      (Settles before c h e) r v := by
  refine ensures_guard (fun w _ _ => ?_) fun w _ _ => .early held (by decide)
  apply ensures_check fun _ => .early held (by decide)
  intro _
  apply ensures_checkIf fun _ => .early held (by decide)
  intro _
  apply ensures_checkDividers
  · intro _ code listed
    apply Settles.early held
    revert code
    decide
  intro dividers
  apply ensures_check fun _ => .early held (by decide)
  intro reference
  apply ensures_check fun _ => .early held (by decide)
  intro _
  refine (ensures_oscillatorEdit rfl ?_ ?_ held).mono fun _ _ _ set => ⟨set.1, fun _ => set.2⟩
  · have crystal : 2000000 ≤ c := @le_of_tdiv c p 2000000 (by omega) (by omega) (by omega)
    have high : ¬ c ≤ 40000 := by omega
    simp only [rangeVal, high, if_false]
  · simp [waitOscinit, waitIrefst, waitClkst, waitPllst, waitLock, switchToPll, enableMonitor,
      externalEdit, prdivEdit, vdivEdit, harmless_c1, harmless_c5, harmless_c6,
      BitVec.extractLsb'_or, BitVec.extractLsb'_and]

theorem foreign_c2 {clear set : BitVec 8} (cleared : clear.extractLsb' 6 2 = 0#2)
    (set0 : set.extractLsb' 6 2 = 0#2) : Foreign r.mcg ((ClockEdit.c2 clear set).apply r).mcg := by
  have high (x : BitVec 8) (zero : x.extractLsb' 6 2 = 0#2) : x[6] = false ∧ x[7] = false :=
    bits_of_extractLsb' zero
  constructor <;> simp [high clear cleared, high set set0]

theorem foreign_ircsEdit {s : BitVec 8} : Foreign r.mcg ((ircsEdit s).apply r).mcg := by
  unfold ircsEdit
  split
  · exact foreign_c2 (by decide) (by decide)
  · exact foreign_c2 (by decide) (by decide)

/-- A call that does not write the oscillator fields keeps the foreign ones. -/
theorem foreign_edits (none : x.oscillator? = none) :
    ∀ e ∈ x.edits, Foreign r.mcg (e.apply r).mcg := by
  have c1 {clear set : BitVec 8} (cleared : clear.extractLsb' 0 2 = 0#2)
      (set0 : set.extractLsb' 0 2 = 0#2) : Foreign r.mcg ((ClockEdit.c1 clear set).apply r).mcg :=
    (harmless_c1 cleared set0 r).2
  have c5 {clear set : BitVec 8} (cleared : clear.extractLsb' 5 3 = 0#3)
      (set0 : set.extractLsb' 5 3 = 0#3) : Foreign r.mcg ((ClockEdit.c5 clear set).apply r).mcg :=
    (harmless_c5 cleared set0 r).2
  have c6 {clear set : BitVec 8} (cleared : clear[7] = false) (set0 : set[7] = false) :
      Foreign r.mcg ((ClockEdit.c6 clear set).apply r).mcg := (harmless_c6 cleared set0 r).2
  have c7 (clear set : BitVec 8) : Foreign r.mcg ((ClockEdit.c7 clear set).apply r).mcg :=
    ⟨rfl, rfl, rfl, rfl, rfl, rfl⟩
  have c8 (clear set : BitVec 8) : Foreign r.mcg ((ClockEdit.c8 clear set).apply r).mcg :=
    ⟨rfl, rfl, rfl, rfl, rfl, rfl⟩
  cases x <;>
    simp_all [Transition.oscillator?, Transition.edits, prdivEdit, vdivEdit, foreign_c2,
      foreign_ircsEdit, Foreign.refl, BitVec.extractLsb'_and]

/-- What a call leaves, whichever it is. -/
theorem ensures_program (held : Foreign before r.mcg) :
    x.program.Ensures ⟨hw, Fits x, fun r _ => Foreign before r.mcg⟩
      (fun out r _ => Foreign before r.mcg ∧ ∀ c h e, x.oscillator? = some (c, h, e) →
        ¬ RefusedEarly out → OscillatorSet c h e r.mcg) r v := by
  cases own : x.oscillator? with
  | none =>
    have kept : x.program.Ensures ⟨hw, Fits x, fun r _ => Foreign before r.mcg⟩
        (fun _ r _ => Foreign before r.mcg) r v := by
      refine x.stores_program.ensures (P := fun r _ => Foreign before r.mcg) ?_ ?_ ?_ held
      · exact fun _ _ _ _ held _ => held
      · rintro f ⟨e, member, rfl⟩ r v _ held
        exact held.trans (foreign_edits own e member)
      · exact fun _ _ held => held
    exact kept.mono fun _ _ _ held => ⟨held, fun _ _ _ same => by cases same⟩
  | some args =>
    obtain ⟨c, h, e⟩ := args
    have settles : x.program.Ensures ⟨hw, Fits x, fun r _ => Foreign before r.mcg⟩
        (Settles before c h e) r v := by
      cases x
      case pllInit =>
        cases own
        exact ensures_pllInit_frame held
      case feiFbe | fbiFbe =>
        have args := own
        cases own
        apply ensures_guard <;> intro w _ _
        · exact ensures_toFbe_frame args held
        · exact .early held (by decide)
      case feiFee | fbiFee =>
        have args := own
        cases own
        apply ensures_guard <;> intro w _ _
        · refine ensures_toFee args (fun f => ?_) held
          simp [waitOscinit, waitIrefst, waitClkst, enableMonitor, harmless_c6]
        · exact .early held (by decide)
      all_goals cases own
    refine settles.mono fun out r v settled => ⟨settled.1, fun _ _ _ same late => ?_⟩
    cases same
    exact settled.2 late

end

/-- On any hardware and from any registers: where the bits of `erefs_val` fit every time the oscillator
fields are written, no call touches a foreign field, and after a call that has written them the
oscillator fields are what its arguments say. -/
theorem clock_driver_frame {r : ClockRegisters} {v : ClockStatus}
    {tape : List (SessionEvent Transition ClockStatus)} {s : ClockSession}
    (fits : ∀ u x, (sessions anyHardware Transition.program r v).Takes tape u .access → u.Writes x →
      Fits x u.registers)
    (visit : (sessions anyHardware Transition.program r v).Visits tape s) :
    Foreign r.mcg s.registers.mcg ∧
      (s.running = none → ∀ x out c h e, s.log.getLast? = some (x, out) →
        x.oscillator? = some (c, h, e) → ¬ RefusedEarly out → OscillatorSet c h e s.registers.mcg) := by
  have invariant : Session.Invariant anyHardware Transition.program Fits
      (fun after _ => Foreign r.mcg after.mcg)
      (fun log after _ => Foreign r.mcg after.mcg ∧ ∀ x out c h e, log.getLast? = some (x, out) →
        x.oscillator? = some (c, h, e) → ¬ RefusedEarly out → OscillatorSet c h e after.mcg) r v := {
    start := ⟨.refl _, fun _ _ _ _ _ none => by cases none⟩
    stable := fun _ _ _ _ _ held _ => held
    stays := fun _ _ _ _ held _ => held
    enough := fun _ _ _ held => held.1
    calls := by
      intro log x after v held
      refine (ensures_program held.1).mono fun out after v done => ⟨done.1, ?_⟩
      intro x' out' c h e last
      rw [List.getLast?_concat] at last
      cases last
      exact done.2 c h e }
  obtain ⟨foreign, idle⟩ := invariant.sound fits visit
  exact ⟨foreign, fun running => (idle running).2⟩

/-- `fei_fbe` for an 8 MHz crystal on hardware that is ready at once. -/
def feiFbeTape (erefsVal : BitVec 8) : List (SessionEvent Transition ClockStatus) :=
  [.call (.feiFbe 8000000 0 erefsVal), .access, .access, .access, .access, .access,
    .move { resetStatus with clkst := 2, irefst := false, oscinit0 := true },
    .access, .access, .access, .access, .access, .access, .access, .access]

theorem clock_driver_frame_crystal :
    ∃ s, (sessions anyHardware Transition.program resetRegisters resetStatus).run (feiFbeTape 1) = some s ∧
      Foreign resetRegisters.mcg s.registers.mcg ∧ OscillatorSet 8000000 0 1 s.registers.mcg := by
  have observed : ((sessions anyHardware Transition.program resetRegisters resetStatus).run
      (feiFbeTape 1)).map (fun s => (s.running.isNone, s.log.getLast?)) =
        some (true, some (.feiFbe 8000000 0 1, .ok 8000000)) := by decide
  obtain ⟨s, ran, same⟩ := Option.map_eq_some_iff.mp observed
  obtain ⟨idle, last⟩ := Prod.mk.inj same
  have frame := clock_driver_frame ?_ (visits_of_run ran)
  · refine ⟨s, ran, frame.1, ?_⟩
    exact frame.2 (Option.isNone_iff_eq_none.mp idle) _ _ _ _ _ last rfl (by simp [RefusedEarly])
  · intro u x taken writes
    have tested := taken.test (p := fun s _ => s.testWrites fun x r => decide (Fits x r)) (by decide)
    exact of_decide_eq_true (writes.test tested)

/-- With `erefs_val` 16 the same call sets `FCFTRIM` and leaves `EREFS0` clear. -/
theorem clock_driver_frame_broken : ¬ ∀ tape s,
    (sessions anyHardware Transition.program resetRegisters resetStatus).run tape = some s →
    Foreign resetRegisters.mcg s.registers.mcg ∧
      (s.running = none → ∀ x out c h e, s.log.getLast? = some (x, out) →
        x.oscillator? = some (c, h, e) → ¬ RefusedEarly out → OscillatorSet c h e s.registers.mcg) := by
  intro frame
  have observed : ((sessions anyHardware Transition.program resetRegisters resetStatus).run
      (feiFbeTape 16)).map (fun s => s.registers.mcg.fcftrim) = some true := by decide
  obtain ⟨s, ran, fcftrim⟩ := Option.map_eq_some_iff.mp observed
  have kept := (frame _ s ran).1.fcftrim
  rw [fcftrim] at kept
  exact absurd kept (by decide)

end WirelessSpeakers.Soundness
