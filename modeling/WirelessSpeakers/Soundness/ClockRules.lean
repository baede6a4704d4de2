import WirelessSpeakers.Model.ClockSystem

/-! # Weakest preconditions of the parts that transitions share

A mode test reads one status field after the other while the hardware moves on, so its success says of
every field that it had the tested value at some moment, and its failure that at some moment some
field had not.
-/

namespace WirelessSpeakers.Model

open Program

/-- A quotient is no larger than the dividend. -/
theorem le_of_tdiv {c p n : ℤ} (positive : 0 < n) (divisor : 1 ≤ p) (quotient : n ≤ c.tdiv p) :
    n ≤ c := by
  rcases Int.lt_or_le c 0 with below | above
  · have negated : 0 ≤ (-c).tdiv p := Int.tdiv_nonneg (by omega) (by omega)
    rw [Int.neg_tdiv] at negated
    omega
  · exact quotient.trans (Int.tdiv_le_self p above)

/-- The status and `LP` are those of the mode, all at once. -/
structure ClockMode.Shows (mode : ClockMode) (mcg : Mcg) (v : ClockStatus) : Prop where
  clkst : v.clkst = mode.clkst
  irefst : v.irefst = mode.irefst
  pllst : ∀ b ∈ mode.pllst, v.pllst = b
  lp : ∀ b ∈ mode.lp, mcg.lp = b

section

variable (hw : Hardware ClockRegisters ClockStatus) (r : ClockRegisters) (v w : ClockStatus)

/-- At some moment between `v` and `w` the status satisfies `P`. -/
def Sometime (P : ClockStatus → Prop) : Prop := ∃ u, hw.Reach r v u ∧ hw.Reach r u w ∧ P u

/-- What a successful mode test has seen. -/
structure ClockMode.Seen (mode : ClockMode) : Prop where
  clkst : Sometime hw r v w fun u => u.clkst = mode.clkst
  irefst : Sometime hw r v w fun u => u.irefst = mode.irefst
  pllst : ∀ b ∈ mode.pllst, Sometime hw r v w fun u => u.pllst = b
  lp : ∀ b ∈ mode.lp, r.mcg.lp = b

end

section

variable {hw : Hardware ClockRegisters ClockStatus} {k : Contract ClockRegisters ClockStatus}
  {r : ClockRegisters} {u v w : ClockStatus} {mode : ClockMode}

theorem Sometime.mono {P : ClockStatus → Prop} (some : Sometime hw r v w P) {v' w' : ClockStatus}
    (before : hw.Reach r v' v) (after : hw.Reach r w w') : Sometime hw r v' w' P := by
  obtain ⟨u, first, second, holds⟩ := some
  exact ⟨u, before.trans first, second.trans after, holds⟩

theorem ClockMode.Seen.mono (seen : mode.Seen hw r v w) (before : hw.Reach r u v) :
    mode.Seen hw r u w :=
  ⟨seen.clkst.mono before .refl, seen.irefst.mono before .refl,
    fun b wanted => (seen.pllst b wanted).mono before .refl, seen.lp⟩

@[simp] theorem ensures_andThen {p q : ClockDriver Bool}
    {Q : Except ℤ Bool → ClockRegisters → ClockStatus → Prop} :
    (ClockDriver.andThen p q).Ensures k Q r v ↔ p.Ensures k (fun
      | .ok true => q.Ensures k Q
      | out => Q out) r v := by
  rw [ClockDriver.andThen, ensures_bind]
  constructor <;> intro held <;> refine held.mono fun out r v here => ?_
  · rcases out with e | (_ | _) <;> exact here
  · rcases out with e | (_ | _) <;> exact here

@[simp] theorem ensures_onlyIf {cond : Bool} {p : ClockDriver Unit}
    {Q : Except ℤ Unit → ClockRegisters → ClockStatus → Prop} :
    (ClockDriver.onlyIf cond p).Ensures k Q r v ↔
      (cond → p.Ensures k Q r v) ∧ (¬ cond → Q (.ok ()) r v) := ensures_ite

/-- A check that is made only if `cond` holds. -/
theorem ensures_onlyIf_failIf {cond : Bool} {wrong : Prop} [Decidable wrong] {code : ℤ}
    {Q : Except ℤ Unit → ClockRegisters → ClockStatus → Prop} :
    (ClockDriver.onlyIf cond (failIf wrong code)).Ensures k Q r v ↔
      (cond ∧ wrong → Q (.error code) r v) ∧ (¬ (cond ∧ wrong) → Q (.ok ()) r v) := by
  cases cond <;> simp

section

variable {α : Type} {rest : ClockDriver α} {Q : Except ℤ α → ClockRegisters → ClockStatus → Prop}

/-- A check, and what comes behind it. -/
theorem ensures_check {wrong : Prop} [Decidable wrong] {code : ℤ} (refused : wrong → Q (.error code) r v)
    (passed : ¬ wrong → rest.Ensures k Q r v) : (do failIf wrong code; rest).Ensures k Q r v :=
  ensures_bind.mpr (ensures_failIf.mpr ⟨refused, passed⟩)

theorem ensures_checkIf {cond : Bool} {wrong : Prop} [Decidable wrong] {code : ℤ}
    (refused : cond ∧ wrong → Q (.error code) r v) (passed : ¬ (cond ∧ wrong) → rest.Ensures k Q r v) :
    (do ClockDriver.onlyIf cond (failIf wrong code); rest).Ensures k Q r v :=
  ensures_bind.mpr (ensures_onlyIf_failIf.mpr ⟨refused, passed⟩)

end

@[simp] theorem ensures_edit {e : ClockEdit}
    {Q : Except ℤ Unit → ClockRegisters → ClockStatus → Prop} :
    (ClockDriver.edit e).Ensures k Q r v ↔ ∀ w, k.hardware.Reach r v w → k.permits r →
      k.keeps (e.apply r) w ∧ Q (.ok ()) (e.apply r) w := Iff.rfl

/-- One more field is tested if the present one has the wanted value. -/
theorem ensures_andThen_see {g : ClockStatus → Bool} {q : ClockDriver Bool}
    {Q : Except ℤ Bool → ClockRegisters → ClockStatus → Prop} :
    (ClockDriver.andThen (see g) q).Ensures k Q r v ↔ ∀ w, k.hardware.Reach r v w →
      (g w = true → q.Ensures k Q r w) ∧ (g w = false → Q (.ok false) r w) := by
  simp only [ensures_andThen, ensures_see]
  apply forall₂_congr
  intro w _
  cases g w <;> simp

/-- The rule of the mode test. -/
theorem ensures_inMode {Q : Except ℤ Bool → ClockRegisters → ClockStatus → Prop}
    (yes : ∀ w, k.hardware.Reach r v w → mode.Seen k.hardware r v w → Q (.ok true) r w)
    (no : ∀ w, k.hardware.Reach r v w →
      Sometime k.hardware r v w (fun u => ¬ mode.Shows r.mcg u) → Q (.ok false) r w) :
    (inMode mode).Ensures k Q r v := by
  have miss {w : ClockStatus} (reach : k.hardware.Reach r v w) (missed : ¬ mode.Shows r.mcg w) :
      Q (.ok false) r w := no w reach ⟨w, reach, .refl, missed⟩
  refine ensures_andThen_see.mpr fun w₁ reach₁ => ⟨fun clkst => ?_, fun clkst => ?_⟩
  · refine ensures_andThen_see.mpr fun w₂ reach₂ => ⟨fun irefst => ?_, fun irefst => ?_⟩
    · have to₂ := reach₁.trans reach₂
      have last (q : ClockDriver Bool) (free : mode.lp = none → q = pure true)
          (tested : ∀ b, mode.lp = some b → q = look fun r => r.mcg.lp == b) (w : ClockStatus)
          (reach : k.hardware.Reach r w₂ w)
          (pllst : ∀ b ∈ mode.pllst, Sometime k.hardware r v w fun u => u.pllst = b) :
          q.Ensures k Q r w := by
        have seen (lp : ∀ b ∈ mode.lp, r.mcg.lp = b) : mode.Seen k.hardware r v w :=
          ⟨⟨w₁, reach₁, reach₂.trans reach, eq_of_beq clkst⟩,
            ⟨w₂, to₂, reach, eq_of_beq irefst⟩, pllst, lp⟩
        cases wanted : mode.lp with
        | none =>
          rw [free wanted]
          exact yes w (to₂.trans reach) (seen (by simp [wanted]))
        | some b =>
          rw [tested b wanted]
          change Q (.ok (r.mcg.lp == b)) r w
          cases same : r.mcg.lp == b with
          | false =>
            exact miss (to₂.trans reach) fun shows => ne_of_beq_false same (shows.lp b wanted)
          | true =>
            refine yes w (to₂.trans reach) (seen fun b' wanted' => ?_)
            simp_all
      cases wanted : mode.pllst with
      | none =>
        refine ensures_andThen.mpr (last _ (fun free => ?_) (fun b tested => ?_) w₂ .refl ?_)
        · simp only [free]
        · simp only [tested]
        · simp [wanted]
      | some b =>
        refine ensures_andThen_see.mpr fun w₃ reach₃ => ⟨fun pllst => ?_, fun pllst => ?_⟩
        · refine last _ (fun free => ?_) (fun b tested => ?_) w₃ reach₃ fun b' wanted' =>
            ⟨w₃, to₂.trans reach₃, .refl, ?_⟩
          · simp only [free]
          · simp only [tested]
          · simp_all
        · exact miss (to₂.trans reach₃) fun shows =>
            ne_of_beq_false pllst (shows.pllst b wanted)
    · exact miss (reach₁.trans reach₂) fun shows => ne_of_beq_false irefst shows.irefst
  · exact miss reach₁ fun shows => ne_of_beq_false clkst shows.clkst

/-- The rule of the guard. -/
theorem ensures_requireMode {Q : Except ℤ Unit → ClockRegisters → ClockStatus → Prop}
    (passed : ∀ w, k.hardware.Reach r v w → mode.Seen k.hardware r v w → Q (.ok ()) r w)
    (refused : ∀ w, k.hardware.Reach r v w →
      Sometime k.hardware r v w (fun u => ¬ mode.Shows r.mcg u) → Q (.error mode.guardCode) r w) :
    (requireMode mode).Ensures k Q r v := by
  refine ensures_bind.mpr (ensures_inMode (fun w reach seen => ?_) fun w reach missed => ?_)
  · simpa using passed w reach seen
  · simpa using refused w reach missed

/-- The guard, and what comes behind it. -/
theorem ensures_guard {α : Type} {rest : ClockDriver α}
    {Q : Except ℤ α → ClockRegisters → ClockStatus → Prop}
    (passed : ∀ w, k.hardware.Reach r v w → mode.Seen k.hardware r v w → rest.Ensures k Q r w)
    (refused : ∀ w, k.hardware.Reach r v w →
      Sometime k.hardware r v w (fun u => ¬ mode.Shows r.mcg u) → Q (.error mode.guardCode) r w) :
    (do requireMode mode; rest).Ensures k Q r v :=
  ensures_bind.mpr (ensures_requireMode passed refused)

/-- A mode test succeeds where its mode shows. -/
theorem inMode_succeeds {Q : Except ℤ Bool → ClockRegisters → ClockStatus → Prop}
    (held : (inMode mode).Ensures k Q r v) (shows : mode.Shows r.mcg v) : Q (.ok true) r v := by
  have first := (ensures_andThen_see.mp held v .refl).1 (beq_iff_eq.mpr shows.clkst)
  have second := (ensures_andThen_see.mp first v .refl).1 (beq_iff_eq.mpr shows.irefst)
  have pllst := shows.pllst
  have lp := shows.lp
  cases wantedPllst : mode.pllst <;> cases wantedLp : mode.lp <;>
    simp only [wantedPllst, wantedLp] at second pllst lp
  · exact ensures_andThen.mp second
  · have last := ensures_andThen.mp second
    simpa [lp _ rfl] using last
  · exact (ensures_andThen_see.mp second v .refl).1 (beq_iff_eq.mpr (pllst _ rfl))
  · have last := (ensures_andThen_see.mp second v .refl).1 (beq_iff_eq.mpr (pllst _ rfl))
    simpa [lp _ rfl] using last

/-- A guard passes where its mode shows. -/
theorem requireMode_passes {Q : Except ℤ Unit → ClockRegisters → ClockStatus → Prop}
    (held : (requireMode mode).Ensures k Q r v) (shows : mode.Shows r.mcg v) : Q (.ok ()) r v := by
  simpa using inMode_succeeds (ensures_bind.mp held) shows

/-- A mode that is reported has been seen. -/
theorem ensures_firstMode {modes : List ClockMode} :
    (firstMode modes).Ensures k
      (fun out r' w => r' = r ∧ ∀ mode, out = .ok (some mode) → mode.Seen k.hardware r v w) r v := by
  have later (u : ClockStatus) (reach : k.hardware.Reach r v u) : (firstMode modes).Ensures k
      (fun out r' w => r' = r ∧ ∀ mode, out = .ok (some mode) → mode.Seen k.hardware r v w) r u := by
    induction modes generalizing u with
    | nil => exact ⟨rfl, fun _ same => by cases same⟩
    | cons mode rest ih =>
      refine ensures_bind.mpr (ensures_inMode (fun w _ seen => ?_) fun w further _ => ?_)
      · refine ensures_ite.mpr ⟨fun _ => ⟨rfl, fun found same => ?_⟩, fun no => absurd rfl no⟩
        cases same
        exact seen.mono reach
      · refine ensures_ite.mpr ⟨fun yes => absurd yes Bool.false_ne_true, fun _ => ?_⟩
        exact ih w (reach.trans further)
  exact later v .refl

end

/-- The frequency matches the selected internal reference. -/
def IrcFits (ircFreq : ℤ) (ircSelect : BitVec 8) : Prop :=
  if ircSelect = 0 then 31250 ≤ ircFreq ∧ ircFreq ≤ 39063 else 3000000 ≤ ircFreq ∧ ircFreq ≤ 5000000

/-- The external frequency is one that FBE accepts. -/
def CrystalFits (crystalVal : ℤ) (erefsVal : BitVec 8) : Prop :=
  crystalVal ≤ 50000000 ∧ (erefsVal ≠ 0 →
    30000 ≤ crystalVal ∧ (crystalVal ≤ 40000 ∨ 3000000 ≤ crystalVal) ∧ crystalVal ≤ 32000000)

/-- The code with which an external frequency is refused. -/
def crystalCode (crystalVal : ℤ) : ℤ := if crystalVal > 50000000 then 0x21 else 0x22

/-- The dividers keep the PLL within its limits. -/
def PllFits (crystalVal prdivVal vdivVal : ℤ) : Prop :=
  (1 ≤ prdivVal ∧ prdivVal ≤ 25) ∧ (24 ≤ vdivVal ∧ vdivVal ≤ 55) ∧
    (2000000 ≤ crystalVal.tdiv prdivVal ∧ crystalVal.tdiv prdivVal ≤ 4000000) ∧
    48000000 ≤ int (crystalVal.tdiv prdivVal * vdivVal) ∧
    int (crystalVal.tdiv prdivVal * vdivVal) ≤ 100000000

section

variable {c p d f : ℤ} {e s : BitVec 8} {r : ClockRegisters} {v : ClockStatus} {α : Type}
  {rest : ClockDriver α} {k : Contract ClockRegisters ClockStatus}
  {Q : Except ℤ α → ClockRegisters → ClockStatus → Prop}

theorem ensures_checkIrc (refused : ¬ IrcFits f s → ∀ code, Q (.error code) r v)
    (passed : IrcFits f s → rest.Ensures k Q r v) :
    (do checkIrc f s; rest).Ensures k Q r v := by
  unfold IrcFits at refused passed
  simp only [checkIrc, checkSlowIrc, ensures_bind, ensures_ite, ensures_failIf]
  split at refused
  next slow =>
    refine ⟨fun _ => ⟨fun wrong => refused (by omega) _, fun right => ?_⟩, fun fast => absurd slow fast⟩
    exact passed (by rw [if_pos slow]; omega)
  next fast =>
    refine ⟨fun slow => absurd slow fast, fun _ => ⟨fun wrong => refused (by omega) _, fun right => ?_⟩⟩
    exact passed (by rw [if_neg fast]; omega)

theorem refused_crystalCode : Refused (.error (crystalCode c)) := by
  unfold crystalCode
  split_ifs
  · exact ⟨0x21, by decide, rfl⟩
  · exact ⟨0x22, by decide, rfl⟩

theorem ensures_checkCrystal (refused : ¬ CrystalFits c e → Q (.error (crystalCode c)) r v)
    (passed : CrystalFits c e → rest.Ensures k Q r v) :
    (do checkCrystalMax c; checkCrystal c e; rest).Ensures k Q r v := by
  unfold CrystalFits at refused passed
  unfold crystalCode at refused
  apply ensures_check
  · intro large
    rw [if_pos large] at refused
    exact refused (by omega)
  intro small
  rw [if_neg small] at refused
  apply ensures_checkIf
  · rintro ⟨crystal, wrong⟩
    apply refused
    intro fits
    have bands := fits.2 (of_decide_eq_true crystal)
    omega
  · intro right
    refine passed ⟨by omega, fun crystal => ?_⟩
    have bands := not_and.mp right (decide_eq_true crystal)
    omega

theorem ensures_checkDividers
    (refused : ¬ ((1 ≤ p ∧ p ≤ 25) ∧ 24 ≤ d ∧ d ≤ 55) → ∀ code ∈ [0x41, 0x42], Q (.error code) r v)
    (passed : (1 ≤ p ∧ p ≤ 25) ∧ 24 ≤ d ∧ d ≤ 55 → rest.Ensures k Q r v) :
    (do checkDividers p d; rest).Ensures k Q r v := by
  apply ensures_bind.mpr
  apply ensures_check
  · exact fun wrong => refused (by omega) _ (by decide)
  intro prdiv
  refine ensures_failIf.mpr ⟨fun wrong => ?_, fun vdiv => passed (by omega)⟩
  exact refused (by omega) _ (by decide)

/-- The limits of the dividers and of the reference behind them. -/
theorem ensures_checkReference
    (refused : ¬ ((1 ≤ p ∧ p ≤ 25) ∧ (24 ≤ d ∧ d ≤ 55) ∧
      2000000 ≤ c.tdiv p ∧ c.tdiv p ≤ 4000000) → ∀ code, Refused (.error code) → Q (.error code) r v)
    (passed : (1 ≤ p ∧ p ≤ 25) ∧ (24 ≤ d ∧ d ≤ 55) ∧ 2000000 ≤ c.tdiv p ∧ c.tdiv p ≤ 4000000 →
      rest.Ensures k Q r v) : (do checkDividers p d; checkReference c p; rest).Ensures k Q r v := by
  apply ensures_checkDividers
  · intro wrong code listed
    refine refused (by omega) code ⟨_, ?_, rfl⟩
    revert code
    decide
  intro dividers
  apply ensures_check
  · exact fun wrong => refused (by omega) _ ⟨_, by decide, rfl⟩
  · exact fun right => passed (by omega)

theorem ensures_checkPll
    (refused : ¬ PllFits c p d → ∀ code, Refused (.error code) → Q (.error code) r v)
    (passed : PllFits c p d → rest.Ensures k Q r v) :
    (do checkDividers p d; checkReference c p; checkOutput c p d; rest).Ensures k Q r v := by
  unfold PllFits at refused passed
  apply ensures_checkReference (fun wrong code => refused (by omega) code)
  intro limits
  apply ensures_check
  · exact fun wrong => refused (by omega) _ ⟨_, by decide, rfl⟩
  · exact fun right => passed (by omega)

theorem ensures_ircOut {Q : Except ℤ ℤ → ClockRegisters → ClockStatus → Prop}
    (done : ∀ a, Q (.ok a) r v) : (ircOut f s).Ensures k Q r v :=
  ensures_ite.mpr ⟨fun _ => done _, fun _ => done f⟩

end

end WirelessSpeakers.Model
