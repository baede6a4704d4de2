import WirelessSpeakers.Machine.Feed
import WirelessSpeakers.Model.AutoTrim
import WirelessSpeakers.Soundness.ClockRules

/-! # What `atc` does with the bus clock

Three kinds of exit matter: the mode is refused before anything is written, the bus clock is refused
behind the write of the dividers, or the call goes on, and then every exit writes the old dividers back.
The divider is computed in `int`, truncated to its four bits, and applied in `unsigned` arithmetic; the
frequencies that come out between the two limits are those for which none of this changes anything.
-/

namespace WirelessSpeakers.Soundness

open Model Program

/-- The programmed divider does not bring the bus clock between its limits. -/
abbrev BusClockOff (f : ℤ) (clkdiv1 : BitVec 32) : Prop :=
  busClockFreq f (trimDividers f clkdiv1) < 8000000 ∨ busClockFreq f (trimDividers f clkdiv1) > 16000000

section

variable {hw : Hardware TrimRegisters TrimStatus} {r : TrimRegisters} {v : TrimStatus}

theorem reads_andThen {p q : ClockDriver Bool} (first : p.Reads) (second : q.Reads) :
    (ClockDriver.andThen p q).Reads := by
  apply first.bind
  intro b
  cases b with
  | true => exact second
  | false => trivial

theorem reads_inMode (mode : ClockMode) : (inMode mode).Reads := by
  apply reads_andThen reads_see
  apply reads_andThen reads_see
  cases mode <;> exact reads_andThen (by simp [ClockMode.pllst]) (by simp [ClockMode.lp])

theorem reads_whatMcgMode : whatMcgMode.Reads := by
  have each (modes : List ClockMode) : (firstMode modes).Reads := by
    induction modes with
    | nil => trivial
    | cons mode rest ih =>
      apply (reads_inMode mode).bind
      intro found
      cases found with
      | true => trivial
      | false => exact ih
  exact each _

/-- The rule of an exit, on hardware that does what it likes. -/
theorem ensures_giveUp {origDiv : BitVec 32} {wrong : Prop} [Decidable wrong] {code : ℤ}
    {Q : Except ℤ Unit → TrimRegisters → TrimStatus → Prop}
    (given : wrong → ∀ w, Q (.error code) { r with clkdiv1 := origDiv } w)
    (on : ¬ wrong → Q (.ok ()) r v) : (giveUp origDiv wrong code).Ensures hw.plain Q r v := by
  unfold giveUp
  split
  · next yes => exact fun w _ _ => ⟨trivial, given yes w⟩
  · next no => exact on no

theorem ensures_pollAtme {n : ℕ} {Q : Except ℤ Bool → TrimRegisters → TrimStatus → Prop}
    (result : ∀ b w, Q (.ok b) r w) : (pollAtme n).Ensures hw.plain Q r v := by
  induction n generalizing v with
  | zero => exact result false v
  | succ n ih =>
    intro w _
    exact ensures_ite.mpr ⟨fun _ => ih, fun _ => result true w⟩

theorem ensures_eitherOf {p q : TrimStatus → Bool}
    {Q : Except ℤ Bool → TrimRegisters → TrimStatus → Prop} (result : ∀ b w, Q (.ok b) r w) :
    (eitherOf p q).Ensures hw.plain Q r v := by
  intro w _
  exact ensures_ite.mpr ⟨fun _ => result true w, fun _ u _ => result (q u) u⟩

/-- The exit neither refuses the mode nor the bus clock, and unless the poll has not ended the old
dividers are back. -/
structure GivenBack (origDiv : BitVec 32) (out : Except ℤ (Option ℤ)) (r : TrimRegisters) : Prop where
  mode : out ≠ .error 1
  clock : out ≠ .error 3
  dividers : out ≠ .ok none → r.clkdiv1 = origDiv

theorem givenBack_giveUp {origDiv : BitVec 32} {code : ℤ} (mode : code ≠ 1) (clock : code ≠ 3)
    (r : TrimRegisters) : GivenBack origDiv (.error code) { r with clkdiv1 := origDiv } :=
  ⟨by simpa using mode, by simpa using clock, fun _ => rfl⟩

section Parts

variable {origDiv : BitVec 32} {select : BitVec 8} {rest : TrimDriver (Option ℤ)}
  {Q : Except ℤ (Option ℤ) → TrimRegisters → TrimStatus → Prop}

/-- A check with an exit, and what comes behind it. -/
theorem ensures_giveUp_bind {wrong : Prop} [Decidable wrong] {code : ℤ} (mode : code ≠ 1)
    (clock : code ≠ 3) (given : ∀ out r v, GivenBack origDiv out r → Q out r v)
    (on : rest.Ensures hw.plain Q r v) : (do giveUp origDiv wrong code; rest).Ensures hw.plain Q r v :=
  ensures_bind.mpr (ensures_giveUp (fun _ w => given _ _ w (givenBack_giveUp mode clock r)) fun _ => on)

theorem ensures_checkTrimIrc {irc : ℤ} (given : ∀ out r v, GivenBack origDiv out r → Q out r v)
    (on : rest.Ensures hw.plain Q r v) :
    (do checkTrimIrc origDiv select irc; rest).Ensures hw.plain Q r v := by
  unfold checkTrimIrc
  split
  · rw [bind_assoc]
    exact ensures_giveUp_bind (by decide) (by decide) given
      (ensures_giveUp_bind (by decide) (by decide) given on)
  · rw [bind_assoc]
    exact ensures_giveUp_bind (by decide) (by decide) given
      (ensures_giveUp_bind (by decide) (by decide) given on)

theorem ensures_startTrim {atcv : BitVec 16}
    (on : ∀ r' v, rest.Ensures hw.plain Q r' v) :
    (do startTrim atcv select; rest).Ensures hw.plain Q r v := by
  simp only [startTrim, bind_assoc, ensures_bind, ensures_write]
  exact fun _ _ _ => ⟨trivial, fun _ _ _ => ⟨trivial, fun _ _ _ => ⟨trivial, fun _ _ _ => ⟨trivial,
    on _ _⟩⟩⟩⟩

theorem ensures_checkTrimmed (given : ∀ out r v, GivenBack origDiv out r → Q out r v)
    (on : ∀ v, rest.Ensures hw.plain Q r v) :
    (do checkTrimmed origDiv select; rest).Ensures hw.plain Q r v := by
  simp only [checkTrimmed, bind_assoc]
  refine ensures_bind.mpr fun w _ => ?_
  refine ensures_giveUp_bind (by decide) (by decide) given ?_
  split
  · rw [bind_assoc]
    refine ensures_bind.mpr (ensures_eitherOf fun b w => ?_)
    exact ensures_giveUp_bind (by decide) (by decide) given (on w)
  · rw [bind_assoc]
    refine ensures_bind.mpr (ensures_eitherOf fun b w => ?_)
    exact ensures_giveUp_bind (by decide) (by decide) given (on w)

end Parts

end

/-- What is left of `atc` once the dividers are programmed. -/
def trimming (polls : ℕ) (atcv : BitVec 8 → ℤ → ℤ → BitVec 16) (origDiv : BitVec 32) (ircSelect : BitVec 8)
    (ircFreq busClockFreq : ℤ) : TrimDriver (Option ℤ) := do
  giveUp origDiv (busClockFreq < 8000000 ∨ busClockFreq > 16000000) 3
  checkTrimIrc origDiv ircSelect ircFreq
  startTrim (atcv ircSelect busClockFreq ircFreq) ircSelect
  if ← pollAtme polls then
    checkTrimmed origDiv ircSelect
    write fun r => { r with clkdiv1 := origDiv }
    pure (some 0)
  else pure none

theorem ensures_trimming {hw : Hardware TrimRegisters TrimStatus} {polls : ℕ}
    {atcv : BitVec 8 → ℤ → ℤ → BitVec 16} {origDiv : BitVec 32} {select : BitVec 8} {irc bus : ℤ}
    {r : TrimRegisters} {v : TrimStatus} {Q : Except ℤ (Option ℤ) → TrimRegisters → TrimStatus → Prop}
    (clock : bus < 8000000 ∨ bus > 16000000 → ∀ v, Q (.error 3) { r with clkdiv1 := origDiv } v)
    (rest : ¬ (bus < 8000000 ∨ bus > 16000000) → ∀ out r' v, GivenBack origDiv out r' → Q out r' v) :
    (trimming polls atcv origDiv select irc bus).Ensures hw.plain Q r v := by
  refine ensures_bind.mpr (ensures_giveUp clock fun fine => ?_)
  have given : ∀ out r' v, GivenBack origDiv out r' → Q out r' v := rest fine
  apply ensures_checkTrimIrc given
  apply ensures_startTrim
  intro r' v
  refine ensures_bind.mpr (ensures_pollAtme fun ended w => ?_)
  cases ended with
  | false => exact given _ _ _ ⟨by simp, by simp, fun ended => absurd rfl ended⟩
  | true =>
    apply ensures_checkTrimmed given
    exact fun v w _ _ => ⟨trivial, given _ _ _ ⟨by simp, by simp, fun _ => rfl⟩⟩

/-- What is known at the exits of `atc`. -/
theorem ensures_atc {hw : Hardware TrimRegisters TrimStatus} {polls : ℕ}
    {atcv : BitVec 8 → ℤ → ℤ → BitVec 16} {select : BitVec 8} {irc f : ℤ} {r : TrimRegisters}
    {v : TrimStatus} {Q : Except ℤ (Option ℤ) → TrimRegisters → TrimStatus → Prop}
    (mode : ∀ v, Q (.error 1) r v) (clock : BusClockOff f r.clkdiv1 → ∀ v, Q (.error 3) r v)
    (rest : ¬ BusClockOff f r.clkdiv1 → ∀ out r' v, GivenBack r.clkdiv1 out r' → Q out r' v) :
    (atc polls atcv select irc f).Ensures hw.plain Q r v := by
  refine ensures_bind.mpr ((reads_whatMcgMode.zoom _ _ _).ensures fun mcgMode v => ?_)
  simp only [ensures_bind (p := failIf _ _), ensures_failIf]
  refine ⟨fun _ => mode v, fun _ => ?_⟩
  exact fun w _ _ => ⟨trivial, ensures_trimming clock rest⟩

theorem toNat_outdiv2 (clkdiv1 : BitVec 32) :
    (outdiv2 clkdiv1).toNat = (clkdiv1.extractLsb' 24 4).toNat := by
  have mask : ∀ j (within : j < 32), (0x0F000000#32)[j] = decide (24 ≤ j ∧ j < 28) := by decide
  have same : outdiv2 clkdiv1 = (clkdiv1.extractLsb' 24 4).setWidth 32 := by
    apply BitVec.eq_of_getLsbD_eq
    intro i within
    rw [outdiv2, clkdiv1Outdiv2Mask, BitVec.getLsbD_ushiftRight, BitVec.getLsbD_and,
      BitVec.getLsbD_setWidth, BitVec.getLsbD_extractLsb']
    rcases Nat.lt_or_ge i 4 with low | high
    · have here : (0x0F000000#32).getLsbD (24 + i) = true := by
        rw [BitVec.getLsbD_eq_getElem (by omega), mask _ (by omega), decide_eq_true_iff]
        omega
      simp [here, low, within]
    · rcases Nat.lt_or_ge (24 + i) 32 with inside | beyond
      · have here : (0x0F000000#32).getLsbD (24 + i) = false := by
          rw [BitVec.getLsbD_eq_getElem inside, mask _ inside, decide_eq_false_iff_not]
          omega
        simp [here, Nat.not_lt.mpr high]
      · simp [BitVec.getLsbD_of_ge _ _ beyond]
  rw [same, BitVec.toNat_setWidth]
  omega

/-- The field that `atc` programs holds the low four bits of the quotient. -/
theorem toNat_outdiv2_trimDividers (f : ℤ) (clkdiv1 : BitVec 32) :
    ((outdiv2 (trimDividers f clkdiv1)).toNat : ℤ) = f.tdiv 16000000 % 16 := by
  have bus : (busClkDivVal f <<< 24).extractLsb' 24 4 = (busClkDivVal f).extractLsb' 0 4 := by
    apply BitVec.eq_of_getElem_eq
    intro i within
    simp
    omega
  have selects : clkdiv1Outdiv2Mask.extractLsb' 24 4 = BitVec.allOnes 4 := by decide
  have ignores : clkdiv1Outdiv4Mask.extractLsb' 24 4 = 0#4 := by decide
  have field : (trimDividers f clkdiv1).extractLsb' 24 4 = (busClkDivVal f).extractLsb' 0 4 := by
    rw [trimDividers, extractLsb'_assign (by decide), assign_whole (by decide), BitVec.extractLsb'_or,
      clkdiv1Outdiv2, clkdiv1Outdiv4, BitVec.extractLsb'_and, BitVec.extractLsb'_and, bus, selects, ignores,
      BitVec.and_allOnes, BitVec.and_zero, BitVec.or_zero]
  rw [toNat_outdiv2, field, BitVec.extractLsb'_toNat, Nat.shiftRight_zero, busClkDivVal, BitVec.toNat_ofInt]
  omega

/-- The `unsigned` division by the field plus one, back in an `int`. -/
theorem busClockFreq_eq (f : ℤ) (clkdiv1 : BitVec 32) :
    busClockFreq f clkdiv1 = int (f % 2 ^ 32 / ((outdiv2 clkdiv1).toNat + 1)) := by
  have small : (outdiv2 clkdiv1).toNat < 16 := by
    rw [toNat_outdiv2]
    exact BitVec.isLt _
  have divisor : (outdiv2 clkdiv1 + 1).toNat = (outdiv2 clkdiv1).toNat + 1 := by
    rw [BitVec.toNat_add]
    change (_ + 1) % _ = _
    omega
  have dividend : ((BitVec.ofInt 32 f).toNat : ℤ) = f % 2 ^ 32 := by
    rw [BitVec.toNat_ofInt]
    omega
  rw [busClockFreq, BitVec.toInt_eq_toNat_bmod, BitVec.toNat_udiv, divisor, Int.natCast_ediv, dividend]
  rfl

section Quotients

variable {f k j u : ℤ}

/-- The truncated divider keeps the quotient between half the target and the target. -/
theorem quotient_fits (positive : 0 ≤ k) (enough : 8000000 ≤ f) (above : 16000000 * k ≤ f)
    (below : f < 16000000 * (k + 1)) : 8000000 ≤ f / (k + 1) ∧ f / (k + 1) < 16000000 := by
  constructor
  · apply (Int.le_ediv_iff_mul_le (by omega)).mpr
    omega
  · apply (Int.ediv_lt_iff_lt_mul (by omega)).mpr
    omega

theorem quotient_exceeds (positive : 0 ≤ j) (beyond : 16000000 * (j + 1) + j < u) :
    16000000 < u / (j + 1) := by
  apply Int.lt_of_add_one_le
  apply (Int.le_ediv_iff_mul_le (by omega)).mpr
  omega

/-- A quotient that is too large stays so as an `int`, unless it is the dividend itself. -/
theorem int_quotient_exceeds (positive : 0 ≤ j) (beyond : 16000000 * (j + 1) + j < u)
    (fits : u < 2 ^ 31 ∨ 1 ≤ j ∧ u < 2 ^ 32) : 16000000 < int (u / (j + 1)) := by
  have large := quotient_exceeds positive beyond
  have small : u / (j + 1) < 2 ^ 31 := by
    apply (Int.ediv_lt_iff_lt_mul (by omega)).mpr
    omega
  rw [int, Int.bmod_eq_of_le (by omega) (by omega)]
  exact large

end Quotients

/-- The programmed divider fits exactly the frequencies from 8 to below 256 MHz. -/
theorem busClockOff_iff {f : ℤ} {clkdiv1 : BitVec 32} (range : -2 ^ 31 ≤ f ∧ f < 2 ^ 31) :
    BusClockOff f clkdiv1 ↔ f < 8000000 ∨ 256000000 ≤ f := by
  have field := toNat_outdiv2_trimDividers f clkdiv1
  unfold BusClockOff
  rw [busClockFreq_eq]
  generalize ((outdiv2 (trimDividers f clkdiv1)).toNat : ℤ) = d at field
  rcases Int.lt_or_le f 0 with negative | positive
  · have quotient : f.tdiv 16000000 = -(-f / 16000000) := by
      rw [← Int.tdiv_eq_ediv_of_nonneg (by omega), Int.neg_tdiv, Int.neg_neg]
    have wrapped : f % 2 ^ 32 = f + 2 ^ 32 := by omega
    rw [quotient] at field
    rw [wrapped]
    refine iff_of_true ?_ (.inl (by omega))
    rcases eq_or_ne d 0 with whole | divided
    · left
      have back : int (f + 2 ^ 32) = f :=
        (Int.add_bmod_right f (2 ^ 32)).trans (Int.bmod_eq_of_le (by omega) (by omega))
      rw [whole, Int.zero_add, Int.ediv_one, back]
      omega
    · right
      exact int_quotient_exceeds (by omega) (by omega) (.inr (by omega))
  · have quotient : f.tdiv 16000000 = f / 16000000 := Int.tdiv_eq_ediv_of_nonneg positive
    have unwrapped : f % 2 ^ 32 = f := by omega
    rw [quotient] at field
    rw [unwrapped]
    rcases Int.lt_or_le f 256000000 with below | above
    · have fits : f / (d + 1) ≤ f := Int.ediv_le_self _ positive
      have least : 0 ≤ f / (d + 1) := Int.ediv_nonneg positive (by omega)
      rw [int, Int.bmod_eq_of_le (by omega) (by omega)]
      rcases Int.lt_or_le f 8000000 with slow | enough
      · refine iff_of_true (.inl ?_) (.inl slow)
        omega
      · have inside := quotient_fits (k := d) (by omega) enough (by omega) (by omega)
        omega
    · refine iff_of_true (.inr ?_) (.inr above)
      exact int_quotient_exceeds (by omega) (by omega) (.inl range.2)

section Dividers

variable {origDiv during : BitVec 32} {select : BitVec 8} {rest : TrimDriver (Option ℤ)}

/-- The dividers stay as they are, until the old ones come back at the end. -/
abbrev GivesBack (during origDiv : BitVec 32) (p : TrimDriver (Option ℤ)) : Prop :=
  p.KeepsUntil (fun r => r.clkdiv1 = during) fun r => r.clkdiv1 = origDiv

theorem givesBack_giveUp {wrong : Prop} [Decidable wrong] {code : ℤ} (on : GivesBack during origDiv rest) :
    GivesBack during origDiv (do giveUp origDiv wrong code; rest) := by
  rw [giveUp]
  split
  · exact .inr ⟨fun _ _ => rfl, trivial⟩
  · exact on

theorem givesBack_checkTrimIrc {irc : ℤ} (on : GivesBack during origDiv rest) :
    GivesBack during origDiv (do checkTrimIrc origDiv select irc; rest) := by
  rw [checkTrimIrc]
  split
  · rw [bind_assoc]
    exact givesBack_giveUp (givesBack_giveUp on)
  · rw [bind_assoc]
    exact givesBack_giveUp (givesBack_giveUp on)

theorem reads_pollAtme (n : ℕ) : (pollAtme n).Reads := by
  induction n with
  | zero => trivial
  | succ n ih =>
    apply reads_see.bind
    intro running
    cases running with
    | true => exact ih
    | false => trivial

theorem reads_eitherOf (p q : TrimStatus → Bool) : (eitherOf p q).Reads := by
  apply reads_see.bind
  intro found
  cases found with
  | true => trivial
  | false => exact reads_see

theorem givesBack_checkTrimmed (on : GivesBack during origDiv rest) :
    GivesBack during origDiv (do checkTrimmed origDiv select; rest) := by
  simp only [checkTrimmed, bind_assoc]
  apply reads_see.stores.keepsUntil_bind
  intro failed _
  apply givesBack_giveUp
  split
  · rw [bind_assoc]
    exact (reads_eitherOf _ _).stores.keepsUntil_bind fun _ _ => givesBack_giveUp on
  · rw [bind_assoc]
    exact (reads_eitherOf _ _).stores.keepsUntil_bind fun _ _ => givesBack_giveUp on

/-- The trim machine runs on the dividers that were programmed for it. -/
theorem givesBack_trimming (polls : ℕ) (atcv : BitVec 8 → ℤ → ℤ → BitVec 16) (irc bus : ℤ) :
    GivesBack during origDiv (trimming polls atcv origDiv select irc bus) := by
  apply givesBack_giveUp
  apply givesBack_checkTrimIrc
  have starts : (startTrim (atcv select bus irc) select).Stores
      (fun f => ∀ r, r.clkdiv1 = during → (f r).clkdiv1 = during) fun _ => True := by simp [startTrim]
  apply starts.keepsUntil_bind
  intro _ _
  apply (reads_pollAtme polls).stores.keepsUntil_bind
  intro ended _
  cases ended with
  | false => trivial
  | true => exact givesBack_checkTrimmed (.inr ⟨fun _ _ => rfl, trivial⟩)

end Dividers

/-- The bus clock is between its limits with these dividers. -/
def BusClockFits (f : ℤ) (r : TrimRegisters) : Prop :=
  8000000 ≤ f / ((outdiv2 r.clkdiv1).toNat + 1) ∧ f / ((outdiv2 r.clkdiv1).toNat + 1) ≤ 16000000

theorem busClockFits_trimDividers {f : ℤ} {r : TrimRegisters} (slow : 8000000 ≤ f) (fast : f < 256000000)
    (programmed : ∃ clkdiv1, r.clkdiv1 = trimDividers f clkdiv1) : BusClockFits f r := by
  obtain ⟨clkdiv1, same⟩ := programmed
  have field := toNat_outdiv2_trimDividers f clkdiv1
  have quotient : f.tdiv 16000000 = f / 16000000 := Int.tdiv_eq_ediv_of_nonneg (by omega)
  rw [quotient] at field
  have inside := quotient_fits (f := f) (k := f / 16000000 % 16) (by omega) (by omega) (by omega) (by omega)
  rw [BusClockFits, same, field]
  omega

section Recorded

variable (polls : ℕ) (atcv : BitVec 8 → ℤ → ℤ → BitVec 16) (select : BitVec 8) (irc : ℤ) {f : ℤ}
  {s : ℕ → TrimStatus} {n : ℕ} {r : TrimRegisters} {mode : ClockMode}

theorem feed_trimming_iff {origDiv : BitVec 32} {bus : ℤ} :
    ((trimming polls atcv origDiv select irc bus).feed s n r).1 = .error 3 ↔ bus < 8000000 ∨ bus > 16000000 := by
  have free : ∀ c v w, anyTrimHardware.Reach c v w := fun c v w => .single w rfl
  obtain ⟨v', run⟩ := runs_of_feed free (v := s n) (p := trimming polls atcv origDiv select irc bus) (s := s)
    (n := n) (c := r) rfl
  have exits : (trimming polls atcv origDiv select irc bus).Ensures anyTrimHardware.plain
      (fun out _ _ => out = .error 3 ↔ bus < 8000000 ∨ bus > 16000000) r (s n) := by
    apply ensures_trimming
    · exact fun off _ => iff_of_true rfl off
    · exact fun fine _ _ _ given => iff_of_false given.clock fine
  exact ensures_plain_iff.mp exits _ _ v' run

/-- In its three modes `atc` programs the dividers first. -/
theorem atc_eq_trimming (external : mode = .pee ∨ mode = .pbe ∨ mode = .fbe)
    (reported : (whatMcgMode.feed (fun i => (s i).clock) n r.clock).1 = .ok (some mode)) :
    ∃ n' programmed part, programmed = { r with clkdiv1 := trimDividers f r.clkdiv1 } ∧
      part = trimming polls atcv r.clkdiv1 (if select > 0 then 1 else select) irc
        (busClockFreq f programmed.clkdiv1) ∧
      (atc polls atcv select irc f).feed s n r = part.feed s n' programmed ∧
      (atc polls atcv select irc f).stored s n r = programmed :: part.stored s n' programmed := by
  have reads := reads_whatMcgMode.zoom TrimRegisters.clock (fun clock r => { r with clock }) TrimStatus.clock
  obtain ⟨found, n', fed⟩ := reads.feed_eq (s := s) (n := n) (c := r)
  have same : found = some mode := by
    rw [reads_whatMcgMode.feed_zoom] at fed
    exact Except.ok.inj ((congrArg Prod.fst fed).symm.trans reported)
  subst same
  have passed : ¬ (some mode ≠ some .pee ∧ some mode ≠ some .pbe ∧ some mode ≠ some .fbe) := by
    rcases external with rfl | rfl | rfl <;> simp
  refine ⟨n', _, _, rfl, rfl, ?_, ?_⟩
  · rw [atc, feed_bind_ok fed, failIf, if_neg passed]
    rfl
  · rw [atc, reads.stored_bind fed, failIf, if_neg passed]
    rfl

/-- In PEE, PBE and FBE, as `what_mcg_mode` reports them, `atc` rejects exactly the frequencies below 8 MHz and
from 256 MHz on with code 3. For all others its first store brings a divider that puts the bus clock between its
limits, and this divider stays through every further store up to the last one, which gives the old one back. -/
theorem bus_clock_selected (range : -2 ^ 31 ≤ f ∧ f < 2 ^ 31)
    (external : mode = .pee ∨ mode = .pbe ∨ mode = .fbe)
    (reported : (whatMcgMode.feed (fun i => (s i).clock) n r.clock).1 = .ok (some mode)) :
    (((atc polls atcv select irc f).feed s n r).1 = .error 3 ↔ f < 8000000 ∨ 256000000 ≤ f) ∧
      (¬ (f < 8000000 ∨ 256000000 ≤ f) → ∃ programmed during,
        (∀ c ∈ programmed :: during, BusClockFits f c) ∧
        ((atc polls atcv select irc f).stored s n r = programmed :: during ∨
          ∃ back, back.clkdiv1 = r.clkdiv1 ∧
            (atc polls atcv select irc f).stored s n r = programmed :: during ++ [back])) := by
  obtain ⟨n', programmed, part, first, rest, outcome, stores⟩ :=
    atc_eq_trimming polls atcv select irc (f := f) external reported
  have dividers : programmed.clkdiv1 = trimDividers f r.clkdiv1 := by rw [first]
  rw [outcome, stores]
  subst rest
  constructor
  · rw [feed_trimming_iff, dividers]
    exact busClockOff_iff range
  · intro accepted
    obtain ⟨kept, same, whole⟩ := (givesBack_trimming polls atcv irc
      (busClockFreq f programmed.clkdiv1)).stored_eq (s := s) (n := n') rfl
    have fits : ∀ c ∈ programmed :: kept, BusClockFits f c := by
      intro c member
      apply busClockFits_trimDividers (by omega) (by omega)
      rcases List.mem_cons.mp member with rfl | later
      · exact ⟨_, dividers⟩
      · exact ⟨_, (same c later).trans dividers⟩
    refine ⟨programmed, kept, fits, ?_⟩
    rcases whole with whole | ⟨back, old, whole⟩
    · exact .inl (congrArg (programmed :: ·) whole)
    · exact .inr ⟨back, old, congrArg (programmed :: ·) whole⟩

/-- FBE, with a trim result in the middle. -/
def trimStatusFbe : TrimStatus where
  clock := { resetStatus with clkst := 2, irefst := false }
  atme := false
  atmf := false
  c3 := 0x80
  fctrim := 8

/-- At 50 MHz the bus clock is divided by four, and the slow reference is trimmed. -/
theorem bus_clock_selected_50MHz :
    ((atc 1 (fun _ bus irc => BitVec.ofInt 16 (21 * bus / irc)) 0 32768 50000000).feed
      (fun _ => trimStatusFbe) 0 ⟨resetRegisters, 0x01140000⟩).1 = .ok (some 0) ∧
    ∃ programmed during, (∀ c ∈ programmed :: during, BusClockFits 50000000 c) ∧
      ((atc 1 (fun _ bus irc => BitVec.ofInt 16 (21 * bus / irc)) 0 32768 50000000).stored
          (fun _ => trimStatusFbe) 0 ⟨resetRegisters, 0x01140000⟩ = programmed :: during ∨
        ∃ back, back.clkdiv1 = 0x01140000 ∧
          (atc 1 (fun _ bus irc => BitVec.ofInt 16 (21 * bus / irc)) 0 32768 50000000).stored
            (fun _ => trimStatusFbe) 0 ⟨resetRegisters, 0x01140000⟩ = programmed :: during ++ [back]) :=
  ⟨by decide +kernel,
    (bus_clock_selected 1 _ 0 32768 (by decide) (.inr (.inr rfl)) (by decide)).2 (by decide)⟩

end Recorded

end WirelessSpeakers.Soundness
