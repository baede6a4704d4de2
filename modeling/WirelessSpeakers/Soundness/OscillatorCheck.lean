import Mathlib.Order.Monotone.Basic
import WirelessSpeakers.Machine.Feed
import WirelessSpeakers.Soundness.Refusals

/-! # The oscillator check of `fei_fee_rtc`

The check waits for a value of the prescaler `TPR` that it computes from two reads, and reads once more
behind the loop. In front of the roll-over the value is the distance to it and not the remainder of the
4096 ticks, so from 0x7800 on the check ends too early. And a tick between the read that matches and the
last one makes it fail.
-/

namespace WirelessSpeakers.Soundness

open Model Program

/-- `fei_fee_rtc` up to the first read of `TPR`. -/
def rtcSetUp (rtcFreq : ℤ) : ClockDriver (Bool × Bool) := do
  requireMode .fei
  failIf (rtcFreq > 40000 ∨ rtcFreq < 30000) 0x24
  enableRtc

/-- The check. -/
def oscillatorCheck (disable : Bool × Bool) : ClockDriver Unit := do
  let count ← rtcCount
  spin (fun s => s.tpr == count) 11250000
  let counted ← see fun s => s.tpr == count
  ClockDriver.onlyIf (!counted) do
    restoreRtc disable.1 disable.2
    fail 0x25

/-- The rest. -/
def rtcSwitch (rtcFreq : ℤ) (disable : Bool × Bool) : ClockDriver ℤ := do
  restoreRtc disable.1 disable.2
  ClockDriver.edit (.c7 0 c7OscselMask)
  ClockDriver.edit (.c1 (~~~(c1IrclkenMask ||| c1IrefstenMask)) 0)
  waitIrefst false
  let mcgOut ← checkFll rtcFreq
  ClockDriver.edit (.c8 0 c8Cme1Mask)
  pure mcgOut

theorem feiFeeRtc_eq (f : ℤ) : feiFeeRtc f = (do
    let disable ← rtcSetUp f
    oscillatorCheck disable
    rtcSwitch f disable) := by
  simp only [feiFeeRtc, rtcSetUp, oscillatorCheck, rtcSwitch, bind_assoc]

/-- The prescaler counts modulo 0x8000, and `T i` ticks have passed when sample `i` is read. -/
structure Counting (s : ℕ → ClockStatus) (T : ℕ → ℕ) : Prop where
  monotone : Monotone T
  tpr : ∀ i, (s i).tpr = BitVec.ofNat 32 (T i % 0x8000)

/-- The call gets to the check, whose first read is sample `n`. -/
def Reaches (f : ℤ) (r : ClockRegisters) (s : ℕ → ClockStatus) (n : ℕ) : Prop :=
  ∃ disable r', (rtcSetUp f).feed s 0 r = (.ok disable, r', n)

variable (s : ℕ → ClockStatus) (n : ℕ)

/-- The value that the check waits for. -/
def target : BitVec 32 :=
  if (s n).tpr > 0x6FFF then 0x8000 - (s (n + 1)).tpr else (s (n + 1)).tpr + 4096

/-- The number of polls. -/
def polls : ℕ := polled (fun v => v.tpr == target s n) s (n + 2) 11250000

/-- The read behind the loop. -/
def lastRead : ℕ := n + 2 + polls s n

theorem feed_rtcCount (r : ClockRegisters) : rtcCount.feed s n r = (.ok (target s n), r, n + 2) := by
  unfold target
  change (if (s n).tpr > 0x6FFF then see fun s => 0x8000 - s.tpr else see fun s => s.tpr + 4096 :
    ClockDriver (BitVec 32)).feed s (n + 1) r = _
  split <;> rfl

variable {s n} {f : ℤ} {r r₁ : ClockRegisters} {disable : Bool × Bool} {T : ℕ → ℕ}

theorem feed_restoreRtc (gate tce : Bool) :
    ∃ r', (restoreRtc gate tce).feed s n r = (.ok (), r', n) := by
  cases gate <;> cases tce <;> exact ⟨_, rfl⟩

/-- The check passes if the last read finds the value. -/
theorem feed_oscillatorCheck_pass (found : (s (lastRead s n)).tpr = target s n) :
    (oscillatorCheck disable).feed s n r = (.ok (), r, lastRead s n + 1) := by
  rw [oscillatorCheck, feed_bind_ok (feed_rtcCount s n r), feed_bind_ok feed_spin]
  change (ClockDriver.onlyIf (!((s (lastRead s n)).tpr == target s n)) _).feed s (lastRead s n + 1) r = _
  rw [beq_iff_eq.mpr found]
  rfl

theorem feed_oscillatorCheck_fail (missed : (s (lastRead s n)).tpr ≠ target s n) :
    ∃ r', (oscillatorCheck disable).feed s n r = (.error 0x25, r', lastRead s n + 1) := by
  rw [oscillatorCheck, feed_bind_ok (feed_rtcCount s n r), feed_bind_ok feed_spin]
  change ∃ r', (ClockDriver.onlyIf (!((s (lastRead s n)).tpr == target s n)) (do
    restoreRtc disable.1 disable.2
    fail 0x25)).feed s (lastRead s n + 1) r = _
  rw [beq_eq_false_iff_ne.mpr missed]
  obtain ⟨r', restored⟩ := feed_restoreRtc disable.1 disable.2 (s := s) (n := lastRead s n + 1) (r := r)
  exact ⟨r', feed_bind_ok restored⟩

/-- Behind the check the code is not returned. -/
theorem rtcSwitch_code : ((rtcSwitch f disable).feed s n r).1 ≠ .error 0x25 := by
  have never : (rtcSwitch f disable).Ensures anyHardware.plain (fun out _ _ => out ≠ .error 0x25) r
      resetStatus := by
    apply ensures_unnoticed_bind unnoticed_restoreRtc
    intro _ r' v' _
    simp only [waitIrefst, checkFll, ensures_bind, ensures_edit, ensures_wait, ensures_look,
      ensures_failIf, ensures_pure]
    refine fun _ _ _ => ⟨trivial, fun _ _ _ => ⟨trivial, fun _ _ => ⟨fun _ => ⟨fun low => ?_, ?_⟩, ?_⟩⟩⟩
    · intro same
      obtain ⟨code, listed, refused⟩ := fllFreq_refused low
      rw [refused] at same
      cases same
      exact absurd listed (by decide)
    · exact fun _ _ _ _ => ⟨trivial, by simp⟩
    · exact fun _ => by simp
  obtain ⟨v', run⟩ := runs_of_feed (v := resetStatus) (fun _ _ _ => reach_any)
    (p := rtcSwitch f disable) (s := s) (n := n) (c := r) rfl
  exact ensures_plain_iff.mp never _ _ _ run

/-- The outcome of the call. -/
def rtcOutcome (f : ℤ) (r : ClockRegisters) (s : ℕ → ClockStatus) : Except ℤ ℤ :=
  ((feiFeeRtc f).feed s 0 r).1

/-- The recordings give the outcomes of the runs. -/
theorem exists_rtcOutcome_iff {out : Except ℤ ℤ} : (∃ s, rtcOutcome f r s = out) ↔
    ∃ v r' v', (feiFeeRtc f).Runs anyHardware r v out r' v' := by
  constructor
  · rintro ⟨s, rfl⟩
    obtain ⟨v', run⟩ := runs_of_feed (v := resetStatus) (fun _ _ _ => reach_any)
      (p := feiFeeRtc f) (s := s) (n := 0) (c := r) rfl
    exact ⟨_, _, v', run⟩
  · rintro ⟨v, r', v', run⟩
    obtain ⟨s, n, fed⟩ := run.exists_feed 0
    exact ⟨s, congrArg Prod.fst fed⟩

/-- The check decides over the code. -/
theorem rtcOutcome_iff (reaches : Reaches f r s n) :
    rtcOutcome f r s = .error 0x25 ↔ (s (lastRead s n)).tpr ≠ target s n := by
  obtain ⟨disable, r', setUp⟩ := reaches
  rw [rtcOutcome, feiFeeRtc_eq, feed_bind_ok setUp]
  by_cases found : (s (lastRead s n)).tpr = target s n
  · rw [feed_bind_ok (feed_oscillatorCheck_pass found)]
    exact iff_of_false rtcSwitch_code (not_not.mpr found)
  · obtain ⟨r'', failed⟩ : ∃ r'', (oscillatorCheck disable).feed s n r' =
        (.error 0x25, r'', lastRead s n + 1) := feed_oscillatorCheck_fail found
    rw [feed_bind_error failed]
    exact iff_of_true rfl found

/-- What is asked of a run that gets to the check: it goes on only when 4096 ticks have passed since the
first read, and it returns the code only if no poll has read the value. -/
structure CountsCycles (f : ℤ) (r : ClockRegisters) (s : ℕ → ClockStatus) (T : ℕ → ℕ) (n : ℕ) : Prop where
  elapsed : rtcOutcome f r s ≠ .error 0x25 → T n + 4096 ≤ T (lastRead s n)
  answers : rtcOutcome f r s = .error 0x25 → ∀ k < polls s n, (s (n + 2 + k)).tpr ≠ target s n

/-- Behind a poll that has read the value, the last read finds the counter where it was. -/
def Steady (s : ℕ → ClockStatus) (T : ℕ → ℕ) (n : ℕ) : Prop :=
  ∀ k < polls s n, (s (n + 2 + k)).tpr = target s n → T (lastRead s n) % 0x8000 = T (n + 2 + k) % 0x8000

/-- The first two reads are so close to the roll-over that less than 4096 ticks remain: the counter has
not rolled over between them, and together they exceed 0xF000. -/
def NearRollOver (first second : ℕ) : Prop :=
  first % 0x8000 + (second - first) < 0x8000 ∧ 0xF000 < 2 * (first % 0x8000) + (second - first)

/-- The moment at which a count from there ends too early: as far behind the roll-over as the second read
was in front of it. -/
def Early (first second t : ℕ) : Prop :=
  NearRollOver first second ∧ t = second + 2 * (0x8000 - second % 0x8000)

/-- The value as a number. -/
theorem toNat_target (counting : Counting s T) : (target s n).toNat =
    if T n % 0x8000 > 0x6FFF then 0x8000 - T (n + 1) % 0x8000 else T (n + 1) % 0x8000 + 4096 := by
  have number (i : ℕ) : ((s i).tpr).toNat = T i % 0x8000 := by
    rw [counting.tpr, BitVec.toNat_ofNat]
    omega
  have first := number n
  have second := number (n + 1)
  unfold target
  split_ifs <;> bv_omega

theorem tpr_eq_target_iff (counting : Counting s T) {i : ℕ} : (s i).tpr = target s n ↔ T i % 0x8000 =
    if T n % 0x8000 > 0x6FFF then 0x8000 - T (n + 1) % 0x8000 else T (n + 1) % 0x8000 + 4096 := by
  rw [← toNat_target counting, ← BitVec.toNat_inj, counting.tpr, BitVec.toNat_ofNat]
  omega

/-- Every other read that finds the value comes late enough. -/
theorem enough_ticks {a b t : ℕ} (first : a ≤ b) (later : b ≤ t) (late : ¬ Early a b t)
    (found : t % 0x8000 = if a % 0x8000 > 0x6FFF then 0x8000 - b % 0x8000 else b % 0x8000 + 4096) :
    a + 4096 ≤ t := by
  unfold Early NearRollOver at late
  split at found <;> omega

/-- A run that counts its cycles is steady. -/
theorem CountsCycles.steady (counts : CountsCycles f r s T n) (counting : Counting s T)
    (reaches : Reaches f r s n) : Steady s T n := by
  intro k taken hit
  have decides := rtcOutcome_iff reaches
  by_cases failed : rtcOutcome f r s = .error 0x25
  · exact absurd hit (counts.answers failed k taken)
  · have found := not_not.mp (mt decides.mpr failed)
    rw [tpr_eq_target_iff counting] at found hit
    rw [found, hit]

/-- At the early moment the check passes. -/
theorem CountsCycles.not_early (counts : CountsCycles f r s T n) (counting : Counting s T)
    (reaches : Reaches f r s n) : ¬ Early (T n) (T (n + 1)) (T (lastRead s n)) := by
  rintro ⟨⟨before, close⟩, moment⟩
  have first : T n ≤ T (n + 1) := counting.monotone n.le_succ
  have found : (s (lastRead s n)).tpr = target s n := by
    rw [tpr_eq_target_iff counting, moment, if_pos (by omega)]
    omega
  have elapsed := counts.elapsed (mt (rtcOutcome_iff reaches).mp (not_not.mpr found))
  omega

/-- Nothing else goes wrong. -/
theorem Steady.counts (steady : Steady s T n) (counting : Counting s T) (reaches : Reaches f r s n)
    (late : ¬ Early (T n) (T (n + 1)) (T (lastRead s n))) : CountsCycles f r s T n := by
  have decides := rtcOutcome_iff reaches
  constructor
  · intro passed
    have found := not_not.mp (mt decides.mpr passed)
    rw [tpr_eq_target_iff counting] at found
    have later : n + 1 ≤ lastRead s n := by
      unfold lastRead
      omega
    exact enough_ticks (counting.monotone n.le_succ) (counting.monotone later) late found
  · intro failed k taken hit
    have same := steady k taken hit
    rw [tpr_eq_target_iff counting, ← same, ← tpr_eq_target_iff counting] at hit
    exact decides.mp failed hit

/-- A run counts its cycles exactly if the counter does not move on between a poll that reads the value
and the last read, and the last read is not at the early moment. -/
theorem counts_cycles_iff (counting : Counting s T) (reaches : Reaches f r s n) :
    CountsCycles f r s T n ↔ Steady s T n ∧ ¬ Early (T n) (T (n + 1)) (T (lastRead s n)) :=
  ⟨fun counts => ⟨counts.steady counting reaches, counts.not_early counting reaches⟩,
    fun ⟨steady, late⟩ => steady.counts counting reaches late⟩

/-- A recording with the status out of reset, and these ticks before the reads. -/
def recording (T : ℕ → ℕ) (i : ℕ) : ClockStatus :=
  { resetStatus with tpr := BitVec.ofNat 32 (T i % 0x8000) }

/-- The first five reads, the second read of `TPR`, and all others. -/
def threeMoments (a b t : ℕ) (i : ℕ) : ℕ := if i ≤ 4 then a else if i = 5 then b else t

theorem counting_recording {a b t : ℕ} (first : a ≤ b) (later : b ≤ t) :
    Counting (recording (threeMoments a b t)) (threeMoments a b t) := by
  refine ⟨fun i j before => ?_, fun _ => rfl⟩
  unfold threeMoments
  split_ifs <;> omega

/-- The status out of reset is that of FEI, and the check begins with the fifth sample. -/
theorem reaches_recording (T : ℕ → ℕ) : Reaches 32768 resetRegisters (recording T) 4 :=
  ⟨(true, true), _, rfl⟩

theorem threeMoments_late {a b t i : ℕ} (late : 6 ≤ i) : threeMoments a b t i = t := by
  rw [threeMoments, if_neg (by omega), if_neg (by omega)]

theorem steady_recording {a b t : ℕ} : Steady (recording (threeMoments a b t)) (threeMoments a b t) 4 := by
  intro k _ _
  rw [threeMoments_late (by unfold lastRead; omega), threeMoments_late (by omega)]

/-- A counter that stands at 0 for the first two reads, and at 4096 for the polls. -/
theorem counts_cycles_iff_from_zero : CountsCycles 32768 resetRegisters
    (recording (threeMoments 0 0 4096)) (threeMoments 0 0 4096) 4 := by
  refine (counts_cycles_iff (counting_recording le_rfl (by decide)) (reaches_recording _)).mpr
    ⟨steady_recording, ?_⟩
  rintro ⟨near, _⟩
  exact absurd near.2 (by decide)

/-- Near the roll-over some steady run goes on too early. -/
theorem exists_early {a b : ℕ} (first : a ≤ b) (near : NearRollOver a b) : ∃ s T, Counting s T ∧
    Reaches 32768 resetRegisters s 4 ∧ T 4 = a ∧ T 5 = b ∧ Steady s T 4 ∧
      ¬ CountsCycles 32768 resetRegisters s T 4 := by
  have counting := counting_recording first (Nat.le_add_right b (2 * (0x8000 - b % 0x8000)))
  have reaches := reaches_recording (threeMoments a b (b + 2 * (0x8000 - b % 0x8000)))
  refine ⟨_, _, counting, reaches, rfl, rfl, steady_recording, fun counts => ?_⟩
  have late : 6 ≤ lastRead (recording (threeMoments a b (b + 2 * (0x8000 - b % 0x8000)))) 4 := by
    unfold lastRead
    omega
  exact counts.not_early counting reaches ⟨near, threeMoments_late late⟩

/-- From 0x7FFF the check waits for 1, two ticks later. -/
theorem not_counts_cycles : ¬ ∀ f r s T n, Counting s T → Reaches f r s n → CountsCycles f r s T n := by
  intro all
  have near : NearRollOver 0x7FFF 0x7FFF := by
    unfold NearRollOver
    decide
  obtain ⟨s, T, counting, reaches, _, _, _, early⟩ := exists_early le_rfl near
  exact early (all _ _ s T 4 counting reaches)

end WirelessSpeakers.Soundness
