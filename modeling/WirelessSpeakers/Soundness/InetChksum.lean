import WirelessSpeakers.Machine.EndAround
import WirelessSpeakers.Model.InetChksum

/-! # What a checksum is of

All versions of `lwip_standard_chksum` sum up the number whose digits are the bytes, with end-around carry.
So neither the alignment of data nor its division into pbufs matters.
-/

namespace WirelessSpeakers.Soundness

open Model

/-- The number whose digits are the bytes, the first one lowest. -/
def number (data : List Byte) : ℕ := Nat.ofDigits 256 (data.map BitVec.toNat)

/-- Bytes as words, with a zero behind an odd one. -/
def words (data : List Byte) : ℕ := pairSum 256 (data.map BitVec.toNat)

/-- What a machine with end-around carry does not tell apart from `n`, in a `u16_t`. -/
structure Sums (r n : ℕ) : Prop where
  le : r ≤ 65535
  same : SameSum 65535 r n

theorem base : 65535 + 1 = 256 * 256 := rfl

section Sums

variable {r r' n n' : ℕ}

theorem Sums.unique (one : Sums r n) (other : Sums r' n) : r = r' :=
  (one.same.trans other.same.symm).unique one.le other.le

theorem Sums.congr (sums : Sums r n) (same : SameSum 65535 n n') : Sums r n' := ⟨sums.le, sums.same.trans same⟩

/-- One fold is enough behind the addition of two words. -/
theorem sums_fold (small : n ≤ 2 * 65535) : Sums (foldU32T n) n := ⟨fold_le small, sameSum_fold 65535 n⟩

/-- Two folds are enough for every `u32_t`. -/
theorem sums_fold_fold (small : n < 2 ^ 32) : Sums (foldU32T (foldU32T n)) n where
  le := fold_le (fold_le_double small)
  same := (sameSum_fold 65535 _).trans (sameSum_fold 65535 n)

theorem Sums.swap (sums : Sums r n) : Sums (swapBytesInWord r) (256 * n) := by
  have high : r / 256 % 256 = r / 256 := Nat.mod_eq_of_lt (by have := sums.le; omega)
  constructor
  · unfold swapBytesInWord
    omega
  · rw [swapBytesInWord, high]
    exact (sameSum_swap base r).trans (sums.same.mul_left (by decide))

end Sums

section Words

variable {data rest : List Byte} {low high : Byte}

theorem words_cons : words (low :: high :: rest) = loadU16 low high + words rest := rfl

theorem sameSum_words (data : List Byte) : SameSum 65535 (words data) (number data) := sameSum_pairSum base _

theorem number_cons (first : Byte) : number (first :: rest) = first.toNat + 256 * number rest := by
  rw [number, List.map_cons, Nat.ofDigits_cons]
  rfl

theorem loadU16_le (low high : Byte) : loadU16 low high ≤ 65535 := by
  have := low.isLt
  have := high.isLt
  unfold loadU16
  omega

theorem words_short {rest : List Byte} (short : rest.length ≤ 1) : words rest = (rest.headD 0).toNat := by
  match rest with
  | [] => rfl
  | [_] => rfl

/-- What the loop over words adds, and what it leaves over. -/
theorem sumWords_eq (sum : ℕ) (data : List Byte) (small : sum + 65535 * (data.length / 2) < 2 ^ 32) :
    (sumWords sum data).1 + words (sumWords sum data).2 = sum + words data ∧
      (sumWords sum data).1 ≤ sum + 65535 * (data.length / 2) ∧ (sumWords sum data).2.length ≤ 1 := by
  induction sum, data using sumWords.induct with
  | case1 sum low high rest ih =>
    have word := loadU16_le low high
    simp only [List.length_cons] at small ⊢
    rw [sumWords, words_cons]
    rw [Nat.mod_eq_of_lt (by omega)] at ih ⊢
    obtain ⟨total, bound, short⟩ := ih (by omega)
    exact ⟨by omega, by omega, short⟩
  | case2 sum rest short =>
    match rest with
    | [] => exact ⟨rfl, Nat.le_add_right _ _, Nat.zero_le _⟩
    | [_] => exact ⟨rfl, Nat.le_add_right _ _, le_rfl⟩
    | low :: high :: rest => exact absurd rfl (short low high rest)

end Words

section Versions

variable {s : Stretch} {sum : ℕ} {first : Byte} {data rest : List Byte}

/-- A byte in front makes the others change their places in the words. -/
theorem sameSum_odd (first : Byte) (rest : List Byte) :
    SameSum 65535 (256 * (words rest + 256 * first.toNat)) (number (first :: rest)) := by
  have value : 256 * (words rest + 256 * first.toNat) = 256 * 256 * first.toNat + 256 * words rest := by ring
  rw [value, number_cons]
  exact (sameSum_square base _).add ((sameSum_words rest).mul_left (by decide))

/-- The byte at an odd address, and the rest. -/
theorem alignToU16_spec (s : Stretch) :
    (alignToU16 s).2.data.length ≤ s.data.length ∧
      SameSum 65535 (if s.addr % 2 = 1 then 256 * (words (alignToU16 s).2.data + 256 * (alignToU16 s).1.toNat)
        else words (alignToU16 s).2.data + 256 * (alignToU16 s).1.toNat) (number s.data) := by
  obtain ⟨addr, data⟩ := s
  cases data with
  | nil =>
    refine ⟨le_rfl, ?_⟩
    split <;> exact .refl _ 0
  | cons first rest =>
    unfold alignToU16
    dsimp only
    by_cases odd : addr % 2 = 1
    · rw [if_pos odd, if_pos odd]
      exact ⟨Nat.le_succ _, sameSum_odd first rest⟩
    · rw [if_neg odd, if_neg odd]
      exact ⟨le_rfl, sameSum_words (first :: rest)⟩

theorem sums_finish (odd : Bool) (small : sum + loadU16 (rest.headD 0) first < 2 ^ 32) :
    Sums (finishChksum odd first sum rest)
      (if odd then 256 * (sum + loadU16 (rest.headD 0) first) else sum + loadU16 (rest.headD 0) first) := by
  have folded := sums_fold_fold small
  unfold finishChksum
  rw [Nat.mod_eq_of_lt small]
  cases odd with
  | false =>
    have whole := Nat.mod_eq_of_lt (Nat.lt_succ_of_le folded.le)
    exact (congrArg (Sums · _) whole).mpr folded
  | true =>
    have whole := Nat.mod_eq_of_lt (Nat.lt_succ_of_le folded.swap.le)
    exact (congrArg (Sums · _) whole).mpr folded.swap

/-- Behind the loops, the words and the two end bytes are complete. -/
theorem sums_aligned (loop : ℕ × List Byte) (short : loop.2.length ≤ 1) (small : loop.1 + 65535 < 2 ^ 32)
    (total : SameSum 65535 (loop.1 + words loop.2) (words (alignToU16 s).2.data)) :
    Sums (finishChksum (s.addr % 2 = 1) (alignToU16 s).1 loop.1 loop.2) (number s.data) := by
  have word := loadU16_le (loop.2.headD 0) (alignToU16 s).1
  refine (sums_finish _ (by omega)).congr (.trans ?_ (alignToU16_spec s).2)
  have value : loop.1 + loadU16 (loop.2.headD 0) (alignToU16 s).1 =
      loop.1 + words loop.2 + 256 * (alignToU16 s).1.toNat := by
    rw [words_short short, loadU16]
    omega
  simp only [decide_eq_true_eq]
  rw [value]
  split
  · exact (total.add_right _).mul_left (by decide)
  · exact total.add_right _

theorem sums_standard_chksum (s : Stretch) (small : s.data.length ≤ 0x20000) :
    Sums (lwipStandardChksum s) (number s.data) := by
  have length := (alignToU16_spec s).1
  obtain ⟨total, bound, short⟩ := sumWords_eq 0 (alignToU16 s).2.data (by omega)
  rw [Nat.zero_add] at total
  exact sums_aligned (sumWords 0 (alignToU16 s).2.data) short (by omega) (total ▸ .refl _ _)

/-- The loop of version 1 adds the words with their bytes exchanged. -/
theorem sumOctets_eq (acc : ℕ) (data : List Byte) (small : acc + 65535 * (data.length / 2) < 2 ^ 32) :
    SameSum 65535 ((sumOctets acc data).1 + 256 * words (sumOctets acc data).2) (acc + 256 * words data) ∧
      (sumOctets acc data).1 ≤ acc + 65535 * (data.length / 2) ∧ (sumOctets acc data).2.length ≤ 1 := by
  induction acc, data using sumOctets.induct with
  | case1 acc first second rest ih =>
    have := first.isLt
    have := second.isLt
    simp only [List.length_cons] at small ⊢
    rw [sumOctets, words_cons]
    rw [Nat.mod_eq_of_lt (by omega)] at ih ⊢
    obtain ⟨total, bound, short⟩ := ih (by omega)
    refine ⟨total.trans ?_, by omega, short⟩
    have value : acc + 256 * (loadU16 first second + words rest) =
        acc + (first.toNat * 256 + 256 * 256 * second.toNat) + 256 * words rest := by
      unfold loadU16
      ring
    rw [value]
    exact (((sameSum_square base _).symm.add_left _).add_left _).add_right _
  | case2 acc rest short =>
    match rest with
    | [] => exact ⟨.refl _ _, Nat.le_add_right _ _, Nat.zero_le _⟩
    | [_] => exact ⟨.refl _ _, Nat.le_add_right _ _, le_rfl⟩
    | first :: second :: rest => exact absurd rfl (short first second rest)

/-- The second fold of version 1 is made only where it is needed. -/
theorem sums_fold_carry {n : ℕ} (small : n < 2 ^ 32) :
    Sums (if 65536 ≤ foldU32T n then foldU32T (foldU32T n) else foldU32T n) n := by
  split
  · exact sums_fold_fold small
  · next fits => exact ⟨by omega, sameSum_fold 65535 n⟩

theorem sums_standard_chksum1 (s : Stretch) (small : s.data.length ≤ 0x20000) :
    Sums (lwipStandardChksum1 s) (number s.data) := by
  obtain ⟨total, bound, short⟩ := sumOctets_eq 0 s.data (by omega)
  rw [Nat.zero_add] at total
  unfold lwipStandardChksum1
  generalize sumOctets 0 s.data = loop at total bound short ⊢
  obtain ⟨acc, rest⟩ := loop
  -- the octet that is left over
  have left : (if rest.isEmpty then acc else (acc + (rest.headD 0).toNat * 256) % 2 ^ 32) = acc + 256 * words rest ∧
      acc + 256 * words rest < 2 ^ 32 := by
    have := (rest.headD 0).isLt
    have word := words_short short
    cases rest with
    | nil => exact ⟨rfl, by rw [word]; omega⟩
    | cons octet more =>
      rw [word]
      exact ⟨by simp only [List.isEmpty_cons, Bool.false_eq_true, if_false]; omega, by omega⟩
  dsimp only at total ⊢
  rw [left.1]
  have folded := sums_fold_carry left.2
  rw [Nat.mod_eq_of_lt (Nat.lt_succ_of_le folded.le)]
  refine folded.swap.congr ?_
  have twice : SameSum 65535 (256 * (256 * words s.data)) (words s.data) := by
    rw [← Nat.mul_assoc]
    exact sameSum_square base _
  exact ((total.mul_left (by decide)).trans twice).trans (sameSum_words s.data)

/-- An addition that adds its carry back, in 32 bits. -/
theorem addBackCarry_spec {sum word : ℕ} (left : sum < 2 ^ 32) (right : word < 2 ^ 32) :
    addBackCarry sum word < 2 ^ 32 ∧ SameSum 65535 (addBackCarry sum word) (sum + word) := by
  unfold addBackCarry
  dsimp only
  rcases Nat.lt_or_ge (sum + word) (2 ^ 32) with fits | carries
  · rw [Nat.mod_eq_of_lt fits, if_neg (by omega)]
    exact ⟨fits, .refl _ _⟩
  · have wrapped : (sum + word) % 2 ^ 32 = sum + word - 2 ^ 32 := by omega
    rw [wrapped, if_pos (by omega)]
    have value : sum + word = (sum + word - 2 ^ 32 + 1) + 65535 * 65537 := by omega
    refine ⟨by omega, ?_, by omega⟩
    conv_rhs => rw [value]
    exact (Nat.add_mul_mod_self_left _ _ _).symm

theorem loadU32_spec (b0 b1 b2 b3 : Byte) :
    loadU32 b0 b1 b2 b3 < 2 ^ 32 ∧ SameSum 65535 (loadU32 b0 b1 b2 b3) (loadU16 b0 b1 + loadU16 b2 b3) := by
  have := loadU16_le b0 b1
  have := loadU16_le b2 b3
  refine ⟨by unfold loadU32; omega, (sameSum_square base _).add_left _⟩

/-- The loop over eight bytes at a time. -/
theorem sumLongs_eq (sum : ℕ) (data : List Byte) (small : sum < 2 ^ 32) :
    SameSum 65535 ((sumLongs sum data).1 + words (sumLongs sum data).2) (sum + words data) ∧
      (sumLongs sum data).1 < 2 ^ 32 ∧ (sumLongs sum data).2.length < 8 := by
  induction sum, data using sumLongs.induct with
  | case1 sum b0 b1 b2 b3 b4 b5 b6 b7 rest ih =>
    obtain ⟨low, lowSum⟩ := loadU32_spec b0 b1 b2 b3
    obtain ⟨high, highSum⟩ := loadU32_spec b4 b5 b6 b7
    obtain ⟨ping, pingSum⟩ := addBackCarry_spec small low
    obtain ⟨pong, pongSum⟩ := addBackCarry_spec ping high
    obtain ⟨total, bound, short⟩ := ih pong
    rw [sumLongs]
    refine ⟨total.trans ?_, bound, short⟩
    have value : sum + words (b0 :: b1 :: b2 :: b3 :: b4 :: b5 :: b6 :: b7 :: rest) =
        sum + (loadU16 b0 b1 + loadU16 b2 b3) + (loadU16 b4 b5 + loadU16 b6 b7) + words rest := by
      simp only [words_cons]
      ring
    rw [value]
    exact ((pongSum.trans (pingSum.add highSum)).trans ((lowSum.add_left _).add_right _)).add_right _
  | case2 sum rest short =>
    have same : sumLongs sum rest = (sum, rest) := by
      rw [sumLongs]
      exact short
    rw [same]
    refine ⟨.refl _ _, small, ?_⟩
    rcases rest with _ | ⟨b0, _ | ⟨b1, _ | ⟨b2, _ |
      ⟨b3, _ | ⟨b4, _ | ⟨b5, _ | ⟨b6, _ | ⟨b7, more⟩⟩⟩⟩⟩⟩⟩⟩
    case cons.cons.cons.cons.cons.cons.cons.cons => exact absurd rfl (short b0 b1 b2 b3 b4 b5 b6 b7 more)
    all_goals simp only [List.length_cons, List.length_nil]; omega

theorem alignToU32_spec (s : Stretch) : (alignToU32 s).1 ≤ 65535 ∧
    (alignToU32 s).1 + words (alignToU32 s).2 = words s.data := by
  obtain ⟨addr, data⟩ := s
  have none : (0 : ℕ) ≤ 65535 ∧ 0 + words data = words data := ⟨Nat.zero_le _, Nat.zero_add _⟩
  match data with
  | [] => exact none
  | [_] => exact none
  | low :: high :: rest =>
    unfold alignToU32
    dsimp only
    split
    · exact ⟨loadU16_le low high, words_cons.symm⟩
    · exact none

/-- Version 3 has no limit to its length. -/
theorem sums_standard_chksum3 (s : Stretch) : Sums (lwipStandardChksum3 s) (number s.data) := by
  obtain ⟨small, front⟩ := alignToU32_spec (alignToU16 s).2
  obtain ⟨middle, bound, short⟩ := sumLongs_eq (alignToU32 (alignToU16 s).2).1 (alignToU32 (alignToU16 s).2).2
    (by omega)
  unfold lwipStandardChksum3
  dsimp only
  generalize sumLongs (alignToU32 (alignToU16 s).2).1 (alignToU32 (alignToU16 s).2).2 = loop at *
  have folded : foldU32T loop.1 ≤ 2 * 65535 := fold_le_double bound
  obtain ⟨total, bound', short'⟩ := sumWords_eq (foldU32T loop.1) loop.2 (by omega)
  refine sums_aligned _ short' (by omega) ?_
  rw [total, ← front]
  exact ((sameSum_fold 65535 loop.1).add_right _).trans middle

/-- All versions of `lwip_standard_chksum` have the same result, at every address, for as many bytes as fit
into their sums. -/
theorem standard_chksum_agrees (data : List Byte) (small : data.length ≤ 0x20000) (addr addr1 addr2 addr3 : ℕ) :
    lwipStandardChksum1 ⟨addr1, data⟩ = lwipStandardChksum ⟨addr, data⟩ ∧
      lwipStandardChksum ⟨addr2, data⟩ = lwipStandardChksum ⟨addr, data⟩ ∧
      lwipStandardChksum3 ⟨addr3, data⟩ = lwipStandardChksum ⟨addr, data⟩ := by
  have here := sums_standard_chksum ⟨addr, data⟩ small
  exact ⟨(sums_standard_chksum1 ⟨addr1, data⟩ small).unique here,
    (sums_standard_chksum ⟨addr2, data⟩ small).unique here, (sums_standard_chksum3 ⟨addr3, data⟩).unique here⟩

theorem standard_chksum_agrees_odd :
    lwipStandardChksum ⟨3, [0x12, 0xf0, 0xff]⟩ = lwipStandardChksum ⟨0, [0x12, 0xf0, 0xff]⟩ :=
  (standard_chksum_agrees [0x12, 0xf0, 0xff] (by decide) 0 0 3 0).2.1

end Versions

/-- The bytes of a chain. -/
def together (p : List Stretch) : List Byte := p.flatMap Stretch.data

/-- What an `acc` with its bytes exchanged stands for. -/
def unswapped (swapped : Bool) (acc : ℕ) : ℕ := if swapped then 256 * acc else acc

section Chains

variable {acc n n' : ℕ} {p : List Stretch} {q : Stretch}

theorem unswapped_add (swapped : Bool) (n n' : ℕ) :
    unswapped swapped (n + n') = unswapped swapped n + unswapped swapped n' := by
  cases swapped
  · rfl
  · exact Nat.mul_add _ _ _

theorem SameSum.unswapped (same : SameSum 65535 n n') (swapped : Bool) :
    SameSum 65535 (unswapped swapped n) (unswapped swapped n') := by
  cases swapped
  · exact same
  · exact same.mul_left (by decide)

/-- An exchange of the bytes is undone by the next one. -/
theorem unswapped_not (swapped : Bool) (n : ℕ) :
    SameSum 65535 (unswapped (!swapped) (256 * n)) (unswapped swapped n) := by
  cases swapped
  · change SameSum 65535 (256 * (256 * n)) n
    rw [← Nat.mul_assoc]
    exact sameSum_square base n
  · exact .refl _ _

theorem number_append (front back : List Byte) : SameSum 65535 (number (front ++ back))
    (number front + if front.length % 2 = 0 then number back else 256 * number back) := by
  have append := sameSum_append base (front.map BitVec.toNat) (back.map BitVec.toNat)
  rwa [← List.map_append, List.length_map] at append

/-- The loop over a chain: every pbuf of odd length exchanges the bytes of what comes behind it. -/
theorem sumChain_spec (acc : ℕ) (swapped : Bool) (p : List Stretch) (small : acc ≤ 65535)
    (each : ∀ q ∈ p, q.data.length ≤ 0x20000) :
    (sumChain acc swapped p).1 ≤ 65535 ∧
      SameSum 65535 (unswapped (sumChain acc swapped p).2 (sumChain acc swapped p).1)
        (unswapped swapped acc + unswapped swapped (number (together p))) := by
  induction p generalizing acc swapped with
  | nil =>
    refine ⟨small, ?_⟩
    have nothing : unswapped swapped (number (together [])) = 0 := by cases swapped <;> rfl
    rw [nothing]
    exact .refl _ _
  | cons q next ih =>
    have block := sums_standard_chksum q (each q List.mem_cons_self)
    have := block.le
    have folded := sums_fold (n := acc + lwipStandardChksum q) (by omega)
    have added : SameSum 65535 (foldU32T (acc + lwipStandardChksum q)) (acc + number q.data) :=
      folded.same.trans (block.same.add_left acc)
    have others := fun r member => each r (List.mem_cons_of_mem q member)
    have whole : together (q :: next) = q.data ++ together next := List.flatMap_cons
    have value := number_append q.data (together next)
    rw [sumChain, whole, Nat.mod_eq_of_lt (show acc + lwipStandardChksum q < 2 ^ 32 by omega)]
    split
    · next odd =>
      rw [if_neg odd] at value
      obtain ⟨bound, total⟩ := ih (swapBytesInWord (foldU32T (acc + lwipStandardChksum q)))
        (!swapped) folded.swap.le others
      refine ⟨bound, total.trans ?_⟩
      have exchanged := folded.swap.same.trans ((block.same.add_left acc).mul_left (by decide))
      have front := (SameSum.unswapped exchanged (!swapped)).trans (unswapped_not swapped _)
      have behind := unswapped_not (!swapped) (number (together next))
      have all := SameSum.unswapped value swapped
      rw [Bool.not_not] at behind
      rw [unswapped_add] at front all
      refine (front.add behind.symm).trans ?_
      rw [Nat.add_assoc]
      exact all.symm.add_left _
    · next even =>
      rw [if_pos (not_not.mp even)] at value
      obtain ⟨bound, total⟩ := ih (foldU32T (acc + lwipStandardChksum q)) swapped folded.le others
      refine ⟨bound, total.trans ?_⟩
      have front := SameSum.unswapped added swapped
      have all := SameSum.unswapped value swapped
      rw [unswapped_add] at front all
      refine (front.add_right _).trans ?_
      rw [Nat.add_assoc]
      exact all.symm.add_left _

/-- What a chain adds to an `acc`. -/
theorem sums_chainSum (small : acc ≤ 65535) (each : ∀ q ∈ p, q.data.length ≤ 0x20000) :
    Sums (chainSum acc p) (acc + number (together p)) := by
  obtain ⟨bound, total⟩ := sumChain_spec acc false p small each
  unfold chainSum
  generalize sumChain acc false p = loop at *
  obtain ⟨acc', swapped⟩ := loop
  have plain : Sums acc' acc' := ⟨bound, .refl _ _⟩
  cases swapped
  · exact plain.congr total
  · exact plain.swap.congr total

theorem Sums.invert_unique {r r' : ℕ} (one : Sums r n) (other : Sums r' n) : invert r = invert r' := by
  rw [one.unique other]

theorem length_le_together (member : q ∈ p) : q.data.length ≤ (together p).length := by
  obtain ⟨front, back, rfl⟩ := List.append_of_mem member
  simp only [together, List.flatMap_append, List.flatMap_cons, List.length_append]
  omega

/-- `inet_chksum_pbuf` of a chain is `inet_chksum` of its bytes, wherever the parts lie. -/
theorem inetChksumPbuf_eq (small : (together p).length < 65536) (addr : ℕ) :
    inetChksumPbuf p = inetChksum ⟨addr, together p⟩ := by
  have each : ∀ q ∈ p, q.data.length ≤ 0x20000 := fun q member => (length_le_together member).trans (by omega)
  have chain : Sums (chainSum 0 p) (0 + number (together p)) := sums_chainSum (Nat.zero_le _) each
  rw [Nat.zero_add] at chain
  exact chain.invert_unique (sums_standard_chksum ⟨addr, together p⟩ (by dsimp only; omega))

/-- The pseudo header of UDP and TCP. -/
def pseudoHeader (proto : Byte) (protoLen : BitVec 16) (src dest : Ip4Addr) : List Byte :=
  src.bytes ++ dest.bytes ++ [0, proto, protoLen.extractLsb' 8 8, protoLen.extractLsb' 0 8]

theorem lwipHtons_proto (proto : Byte) : lwipHtons proto.toNat = loadU16 0 proto := by
  have := proto.isLt
  have zero : (0 : Byte).toNat = 0 := rfl
  unfold lwipHtons swapBytesInWord loadU16
  omega

theorem lwipHtons_len (len : BitVec 16) :
    lwipHtons len.toNat = loadU16 (len.extractLsb' 8 8) (len.extractLsb' 0 8) := by
  have := len.isLt
  unfold lwipHtons swapBytesInWord loadU16
  rw [BitVec.extractLsb'_toNat, BitVec.extractLsb'_toNat, Nat.shiftRight_eq_div_pow, Nat.shiftRight_eq_div_pow]
  omega

theorem getU32_halves (addr : Ip4Addr) :
    addr.getU32 % 65536 = loadU16 addr.a addr.b ∧ addr.getU32 / 65536 = loadU16 addr.c addr.d := by
  have := loadU16_le addr.a addr.b
  unfold Ip4Addr.getU32 loadU32
  omega

theorem length_pseudoHeader (proto : Byte) (protoLen : BitVec 16) (src dest : Ip4Addr) :
    (pseudoHeader proto protoLen src dest).length = 12 := by
  simp only [pseudoHeader, Ip4Addr.bytes, List.length_append, List.length_cons, List.length_nil]

theorem number_pseudoHeader (proto : Byte) (protoLen : BitVec 16) (src dest : Ip4Addr) (data : List Byte) :
    SameSum 65535
      (loadU16 src.a src.b + loadU16 src.c src.d + loadU16 dest.a dest.b + loadU16 dest.c dest.d + number data +
        loadU16 0 proto + loadU16 (protoLen.extractLsb' 8 8) (protoLen.extractLsb' 0 8))
      (number (pseudoHeader proto protoLen src dest ++ data)) := by
  have append := number_append (pseudoHeader proto protoLen src dest) data
  rw [if_pos (by rw [length_pseudoHeader])] at append
  have front := (sameSum_words (pseudoHeader proto protoLen src dest)).add_right (number data)
  refine .trans ?_ (front.trans append.symm)
  have value : words (pseudoHeader proto protoLen src dest) =
      loadU16 src.a src.b + (loadU16 src.c src.d + (loadU16 dest.a dest.b + (loadU16 dest.c dest.d +
        (loadU16 0 proto + loadU16 (protoLen.extractLsb' 8 8) (protoLen.extractLsb' 0 8))))) := by
    simp only [pseudoHeader, Ip4Addr.bytes, List.cons_append, List.nil_append, words_cons]
    rfl
  have order : ∀ a b c d e f n : ℕ, a + b + c + d + n + e + f = a + (b + (c + (d + (e + f)))) + n := by
    intros
    omega
  rw [value, order]
  exact .refl _ _

/-- The sum over the pseudo header and a chain. -/
theorem chksum_pseudo_eq (each : ∀ q ∈ p, q.data.length ≤ 0x20000) (proto : Byte) (protoLen : BitVec 16)
    (src dest : Ip4Addr) : ∃ r, inetChksumPseudo p proto protoLen src dest = invert r ∧
      Sums r (number (pseudoHeader proto protoLen src dest ++ together p)) := by
  have word := loadU16_le
  have four : loadU16 src.a src.b + loadU16 src.c src.d + loadU16 dest.a dest.b + loadU16 dest.c dest.d < 2 ^ 32 := by
    have := word src.a src.b
    have := word src.c src.d
    have := word dest.a dest.b
    have := word dest.c dest.d
    omega
  have start := sums_fold_fold four
  have chain := (sums_chainSum start.le each).congr (start.same.add_right _)
  have := chain.le
  have := word 0 proto
  have := word (protoLen.extractLsb' 8 8) (protoLen.extractLsb' 0 8)
  refine ⟨_, rfl, ?_⟩
  rw [(getU32_halves src).1, (getU32_halves src).2, (getU32_halves dest).1, (getU32_halves dest).2, lwipHtons_proto,
    lwipHtons_len, Nat.mod_eq_of_lt (by omega), Nat.mod_eq_of_lt (by omega)]
  refine (sums_fold_fold (by omega)).congr (.trans ?_ (number_pseudoHeader proto protoLen src dest _))
  exact (chain.same.add_right _).add_right _

/-- `inet_chksum_pseudo` of a chain is the inverted `lwip_standard_chksum` of the pseudo header and the bytes behind
it, as they would lie in one piece of memory; the two together may be more than `inet_chksum` takes. -/
theorem chksum_pseudo_flat (p : List Stretch) (small : (together p).length < 65536) (proto : Byte)
    (protoLen : BitVec 16) (src dest : Ip4Addr) (addr : ℕ) : inetChksumPseudo p proto protoLen src dest =
      invert (lwipStandardChksum ⟨addr, pseudoHeader proto protoLen src dest ++ together p⟩) := by
  have each : ∀ q ∈ p, q.data.length ≤ 0x20000 := fun q member => (length_le_together member).trans (by omega)
  obtain ⟨r, returns, sums⟩ := chksum_pseudo_eq each proto protoLen src dest
  rw [returns]
  refine sums.invert_unique (sums_standard_chksum _ ?_)
  rw [List.length_append, length_pseudoHeader]
  omega

/-- Parts of odd lengths, at odd and even addresses. -/
def oddParts : List Stretch := [⟨1, [0xff, 2, 0xfe]⟩, ⟨4, [7]⟩, ⟨3, [9, 0x80]⟩]

theorem chksum_pseudo_flat_odd : inetChksumPseudo oddParts 17 6 ⟨192, 168, 0, 1⟩ ⟨192, 168, 0, 2⟩ =
    invert (lwipStandardChksum
      ⟨0, pseudoHeader 17 6 ⟨192, 168, 0, 1⟩ ⟨192, 168, 0, 2⟩ ++ [0xff, 2, 0xfe, 7, 9, 0x80]⟩) :=
  chksum_pseudo_flat oddParts (by decide) 17 6 ⟨192, 168, 0, 1⟩ ⟨192, 168, 0, 2⟩ 0

end Chains

end WirelessSpeakers.Soundness
