import Mathlib.Data.List.Induction
import Mathlib.Data.Nat.Digits.Defs
import WirelessSpeakers.Model.TcpThread

/-! # The reply to the port prompt

`tcp_thread` adds up the first five bytes of an array that it never initialised, whatever they are. A
reply of five digits covers these bytes, so its value comes out; a shorter one leaves some of them to its
line ending or to the stack. The positional sum is taken modulo 2^16, and for one of the short replies
that makes up for the misplaced digits.
-/

namespace WirelessSpeakers.Soundness

open Model

variable {t : TcpThread} {buf : Netbuf} {garbage : ℕ → Byte} {message numeral : List Byte} {port : Port}

def IsDigit (b : Byte) : Prop := 0x30 ≤ b.toNat ∧ b.toNat ≤ 0x39

instance (b : Byte) : Decidable (IsDigit b) := inferInstanceAs (Decidable (_ ∧ _))

def carriageReturn : Byte := 0x0D
def lineFeed : Byte := 0x0A

/-- An optional CR and an optional LF. -/
def lineEndings : List (List Byte) := [[], [carriageReturn], [lineFeed], [carriageReturn, lineFeed]]

def numeralValue (numeral : List Byte) : ℕ :=
  Nat.ofDigits 10 (numeral.reverse.map fun b => b.toNat - 0x30)

/-- Without its line ending the message is a decimal numeral of one to five digits, for a port between 1
and 65535. -/
structure Names (message numeral : List Byte) (port : Port) : Prop where
  digits : ∀ b ∈ numeral, IsDigit b
  written : ∃ ending ∈ lineEndings, message = numeral ++ ending
  length : 1 ≤ numeral.length ∧ numeral.length ≤ 5
  value : numeralValue numeral = port.toNat
  positive : 0 < port.toNat

/-- With `garbage` in `read_port`, the thread at its reply goes on to `xQueueSend` with `port`. -/
def Sends (t : TcpThread) (garbage : ℕ → Byte) (port : Port) : Prop :=
  ∃ read stored sent block ok, tcpThread t (.readReply garbage) = some read ∧
    tcpThread read (.malloc block) = some stored ∧ tcpThread stored (.send block ok) = some sent ∧
    block.port = port

/-- The reply sends the port that it names, if it names one, and otherwise none. -/
def SendsNamed (t : TcpThread) (message : List Byte) : Prop :=
  ∀ garbage port, Sends t garbage port ↔ ∃ numeral, Names message numeral port

/-- The numeral are the digits that the message begins with. -/
theorem Names.numeral_eq (names : Names message numeral port) :
    numeral = message.takeWhile fun b => IsDigit b := by
  obtain ⟨ending, member, rfl⟩ := names.written
  have behind : ∀ ending ∈ lineEndings, ending.takeWhile (fun b => decide (IsDigit b)) = [] := by decide
  rw [List.takeWhile_append_of_pos (by simpa using names.digits), behind ending member, List.append_nil]

theorem Names.unique {numeral' : List Byte} {port' : Port} (names : Names message numeral port)
    (again : Names message numeral' port') : numeral = numeral' ∧ port = port' := by
  have same : numeral = numeral' := names.numeral_eq.trans again.numeral_eq.symm
  refine ⟨same, BitVec.eq_of_toNat_eq ?_⟩
  rw [← names.value, same, again.value]

theorem numeralValue_lt (digits : ∀ b ∈ numeral, IsDigit b) :
    numeralValue numeral < 10 ^ numeral.length := by
  have bound := Nat.ofDigits_lt_base_pow_length (b := 10)
    (l := numeral.reverse.map fun b => b.toNat - 0x30) (by decide) (by
      intro digit member
      obtain ⟨b, inside, rfl⟩ := List.mem_map.mp member
      have digit := digits b (List.mem_reverse.mp inside)
      unfold IsDigit at digit
      omega)
  simpa [numeralValue] using bound

/-- A cell of `read_port` behind `netbuf_copy`. -/
def readCell (message : List Byte) (garbage : ℕ → Byte) (k : ℕ) : Byte :=
  (message[k]?).getD (garbage k)

theorem readPort_eq {k : ℕ} (within : k < 10) :
    (netbufCopy buf garbage 10).1 k = readCell buf.bytes garbage k := by
  rw [fst_netbufCopy, splice, if_pos (Nat.zero_le k), Nat.sub_zero, List.getElem?_take_of_lt within,
    readCell]

theorem toNat_decodePort (f : ℕ → Byte) : ((decodePort f).toNat : ℤ) =
    (digitOf (f 0) * 10000 + digitOf (f 1) * 1000 + digitOf (f 2) * 100 + digitOf (f 3) * 10 +
      digitOf (f 4)) % 65536 := by
  rw [decodePort, BitVec.toNat_ofInt]
  exact Int.toNat_of_nonneg (Int.emod_nonneg _ (by decide))

theorem decodePort_congr {f g : ℕ → Byte} (same : ∀ k < 5, f k = g k) : decodePort f = decodePort g := by
  unfold decodePort
  rw [same 0 (by omega), same 1 (by omega), same 2 (by omega), same 3 (by omega), same 4 (by omega)]

/-- The last of the five positions always shows. -/
theorem decodePort_ne {f g : ℕ → Byte} (same : ∀ k < 4, f k = g k) (last : f 4 ≠ g 4) :
    decodePort f ≠ decodePort g := by
  intro equal
  have left := toNat_decodePort f
  have right := toNat_decodePort g
  have other : (f 4).toNat ≠ (g 4).toNat := fun h => last (BitVec.eq_of_toNat_eq h)
  rw [equal, right, same 0 (by omega), same 1 (by omega), same 2 (by omega), same 3 (by omega)] at left
  simp only [digitOf] at left
  omega

theorem sends_iff (here : t.pc = .readReply buf) : Sends t garbage port ↔
    readCell buf.bytes garbage 0 ≠ charX ∧ port = decodePort (readCell buf.bytes garbage) := by
  have decoded : decodePort (netbufCopy buf garbage 10).1 = decodePort (readCell buf.bytes garbage) :=
    decodePort_congr fun k within => readPort_eq (by omega)
  rw [← decoded, ← readPort_eq (by omega)]
  constructor
  · rintro ⟨read, stored, sent, block, ok, reads, stores, sends, rfl⟩
    cases tcpThread_eq_some_iff.mp reads with
    | readPort _ at_ other =>
      cases here.symm.trans at_
      cases tcpThread_eq_some_iff.mp stores with
      | malloc _ at_ value =>
        cases at_
        exact ⟨other, value⟩
    | readX _ at_ back =>
      cases tcpThread_eq_some_iff.mp stores with
      | malloc _ at_ value => cases at_
  · rintro ⟨other, rfl⟩
    refine ⟨_, _, _, ⟨0, _⟩, true, tcpThread_eq_some_iff.mpr (.readPort garbage here other),
      tcpThread_eq_some_iff.mpr (.malloc ⟨0, _⟩ rfl rfl), tcpThread_eq_some_iff.mpr (.sent rfl), rfl⟩

/-- The sum that the decoder forms, one position after the other. -/
def positional (bytes : List Byte) : ℤ := bytes.foldl (fun sum b => 10 * sum + digitOf b) 0

theorem positional_concat (bytes : List Byte) (b : Byte) :
    positional (bytes ++ [b]) = 10 * positional bytes + digitOf b := by
  rw [positional, List.foldl_append]
  rfl

theorem numeralValue_concat (numeral : List Byte) (b : Byte) :
    numeralValue (numeral ++ [b]) = 10 * numeralValue numeral + (b.toNat - 0x30) := by
  rw [numeralValue, List.reverse_append, List.reverse_singleton, List.singleton_append, List.map_cons,
    Nat.ofDigits_cons, Nat.add_comm]
  rfl

/-- Over digits it is the value of the numeral. -/
theorem positional_eq (digits : ∀ b ∈ numeral, IsDigit b) : positional numeral = numeralValue numeral := by
  induction numeral using List.reverseRecOn with
  | nil => rfl
  | append_singleton earlier b ih =>
    have before := ih fun b member => digits b (List.mem_append_left _ member)
    have last := digits b (List.mem_append_right _ List.mem_cons_self)
    rw [positional_concat, numeralValue_concat, before, digitOf]
    unfold IsDigit at last
    omega

/-- A message of five bytes or more leaves nothing to the stack. -/
theorem toNat_decodePort_readCell (covers : 5 ≤ message.length) (garbage : ℕ → Byte) :
    ((decodePort (readCell message garbage)).toNat : ℤ) = positional (message.take 5) % 65536 := by
  match message, covers with
  | a :: b :: c :: d :: e :: rest, _ =>
    have sum := toNat_decodePort (readCell (a :: b :: c :: d :: e :: rest) garbage)
    change _ = (digitOf a * 10000 + digitOf b * 1000 + digitOf c * 100 + digitOf d * 10 + digitOf e)
      % 65536 at sum
    rw [sum]
    change _ = (10 * (10 * (10 * (10 * (10 * 0 + digitOf a) + digitOf b) + digitOf c) + digitOf d) +
      digitOf e) % 65536
    omega

theorem decodePort_five (names : Names message numeral port) (five : numeral.length = 5)
    (garbage : ℕ → Byte) : decodePort (readCell message garbage) = port := by
  obtain ⟨ending, _, rfl⟩ := names.written
  have covers : 5 ≤ (numeral ++ ending).length := by
    rw [List.length_append]
    omega
  have sum := toNat_decodePort_readCell covers garbage
  rw [List.take_left' five, positional_eq names.digits, names.value] at sum
  have bound := port.isLt
  apply BitVec.eq_of_toNat_eq
  omega

/-- A shorter numeral whose five bytes come from the message has the value that its sum with the
characters of the line ending makes. -/
theorem positional_short (names : Names message numeral port) (covers : 5 ≤ message.length)
    (decoded : decodePort (readCell message garbage) = port) :
    positional numeral < 10 ^ numeral.length ∧
      positional numeral = positional (message.take 5) % 65536 := by
  have below := numeralValue_lt names.digits
  have sum := toNat_decodePort_readCell covers garbage
  rw [positional_eq names.digits, names.value, ← sum, decoded]
  rw [names.value] at below
  exact ⟨by exact_mod_cast below, rfl⟩

/-- Four digits and the character of a line ending: the misplaced digits wrap around at most once. -/
theorem wraps_once {x e : ℤ} (below : x < 10 ^ 4) (sum : x = (10 * x + e) % 65536)
    (ending : -38 ≤ e ∧ e ≤ -35) : 9 * x + e = 0 ∨ 9 * x + e = 65536 := by
  omega

theorem digits_7286 (digits : ∀ b ∈ numeral, IsDigit b) (four : numeral.length = 4)
    (value : positional numeral = 7286) : numeral = [0x37, 0x32, 0x38, 0x36] := by
  match numeral, four with
  | [a, b, c, d], _ =>
    change 10 * (10 * (10 * (10 * 0 + digitOf a) + digitOf b) + digitOf c) + digitOf d = 7286 at value
    simp only [List.forall_mem_cons, IsDigit] at digits
    simp only [digitOf] at value
    have characters : a.toNat = 0x37 ∧ b.toNat = 0x32 ∧ c.toNat = 0x38 ∧ d.toNat = 0x36 := by omega
    obtain ⟨ha, hb, hc, hd⟩ := characters
    rw [BitVec.eq_of_toNat_eq (y := 0x37) ha, BitVec.eq_of_toNat_eq (y := 0x32) hb,
      BitVec.eq_of_toNat_eq (y := 0x38) hc, BitVec.eq_of_toNat_eq (y := 0x36) hd]

/-- Only one short reply that covers the five positions comes out right. -/
theorem decodePort_short (names : Names message numeral port) (short : numeral.length ≤ 4)
    (covers : 5 ≤ message.length) (decoded : decodePort (readCell message garbage) = port) :
    message = [0x37, 0x32, 0x38, 0x36, lineFeed] := by
  obtain ⟨below, sum⟩ := positional_short names covers decoded
  obtain ⟨ending, member, rfl⟩ := names.written
  have cr : digitOf carriageReturn = -35 := by decide
  have lf : digitOf lineFeed = -38 := by decide
  rw [List.length_append] at covers
  simp only [lineEndings, List.mem_cons, List.not_mem_nil, or_false] at member
  rcases member with rfl | rfl | rfl | rfl
  · change 5 ≤ numeral.length + 0 at covers
    omega
  · change 5 ≤ numeral.length + 1 at covers
    have four : numeral.length = 4 := by omega
    rw [List.take_of_length_le (by simp [four]), positional_concat, cr] at sum
    rw [four] at below
    replace sum := wraps_once below sum (by decide)
    omega
  · change 5 ≤ numeral.length + 1 at covers
    have four : numeral.length = 4 := by omega
    rw [List.take_of_length_le (by simp [four]), positional_concat, lf] at sum
    rw [four] at below
    replace sum := wraps_once below sum (by decide)
    rw [digits_7286 names.digits four (by omega)]
    rfl
  · change 5 ≤ numeral.length + 2 at covers
    rw [List.append_cons] at sum
    obtain three | four : numeral.length = 3 ∨ numeral.length = 4 := by omega
    · rw [List.take_of_length_le (by simp [three]), positional_concat, positional_concat, cr, lf] at sum
      rw [three] at below
      omega
    · rw [List.take_left' (by simp [four]), positional_concat, cr] at sum
      rw [four] at below
      replace sum := wraps_once below sum (by decide)
      omega

/-- Four bytes or less leave the last position to the stack. -/
theorem exists_decodePort_ne (short : message.length ≤ 4) (port : Port) :
    ∃ garbage, decodePort (readCell message garbage) ≠ port := by
  have apart : decodePort (readCell message fun _ => 0) ≠
      decodePort (readCell message fun k => if k < 4 then 0 else 1) := by
    apply decodePort_ne
    · intro k low
      rw [readCell, readCell, if_pos low]
    · rw [readCell, readCell, List.getElem?_eq_none short]
      decide
  by_cases first : decodePort (readCell message fun _ => 0) = port
  · exact ⟨_, fun second => apart (first.trans second.symm)⟩
  · exact ⟨_, first⟩

/-- The messages for which the thread does what the prompt asks for: five digits in front of an optional
line ending, and `7286` in front of a line feed. -/
def Suits (message : List Byte) : Prop :=
  (∃ numeral port, Names message numeral port ∧ numeral.length = 5) ∨
    message = [0x37, 0x32, 0x38, 0x36, lineFeed]

theorem names_7286 : Names [0x37, 0x32, 0x38, 0x36, lineFeed] [0x37, 0x32, 0x38, 0x36] 7286 where
  digits := by decide
  written := ⟨[lineFeed], by decide, rfl⟩
  length := by decide
  value := by decide
  positive := by decide

theorem decodePort_7286 (garbage : ℕ → Byte) :
    decodePort (readCell [0x37, 0x32, 0x38, 0x36, lineFeed] garbage) = 7286 := by
  change BitVec.ofInt 16 (digitOf 0x37 * 10000 + digitOf 0x32 * 1000 + digitOf 0x38 * 100 +
    digitOf 0x36 * 10 + digitOf lineFeed) = 7286
  decide

/-- A reply that does not ask for the main menu sends the port that it names exactly if it has five
digits, or is `7286` and a line feed. -/
theorem sendsNamed_iff (here : t.pc = .readReply buf) (b : Byte) (first : buf.bytes.head? = some b)
    (other : b ≠ charX) : SendsNamed t buf.bytes ↔ Suits buf.bytes := by
  have cell : ∀ garbage, readCell buf.bytes garbage 0 = b := by
    intro garbage
    rw [readCell, ← List.head?_eq_getElem?, first, Option.getD_some]
  constructor
  · intro sendsNamed
    have named : ∀ garbage, ∃ numeral, Names buf.bytes numeral (decodePort (readCell buf.bytes garbage)) := by
      intro garbage
      exact (sendsNamed garbage _).mp ((sends_iff here).mpr ⟨by rwa [cell], rfl⟩)
    obtain ⟨numeral, names⟩ := named fun _ => 0
    rcases Nat.lt_or_ge numeral.length 5 with short | long
    · right
      rcases Nat.lt_or_ge buf.bytes.length 5 with part | covers
      · obtain ⟨garbage, differs⟩ := exists_decodePort_ne (Nat.le_of_lt_succ part) _
        obtain ⟨numeral', again⟩ := named garbage
        exact absurd (names.unique again).2.symm differs
      · exact decodePort_short names (Nat.le_of_lt_succ short) covers rfl
    · left
      exact ⟨numeral, _, names, le_antisymm names.length.2 long⟩
  · intro suits garbage port
    obtain ⟨numeral, named, names, decoded⟩ : ∃ numeral named, Names buf.bytes numeral named ∧
        decodePort (readCell buf.bytes garbage) = named := by
      rcases suits with ⟨numeral, named, names, five⟩ | same
      · exact ⟨numeral, named, names, decodePort_five names five garbage⟩
      · rw [same]
        exact ⟨_, _, names_7286, decodePort_7286 garbage⟩
    rw [sends_iff here, cell, decoded]
    constructor
    · rintro ⟨_, rfl⟩
      exact ⟨numeral, names⟩
    · rintro ⟨_, again⟩
      exact ⟨other, (again.unique names).2⟩

/-- The thread at the port prompt, with the reply in `buf`. -/
def answered (buf : Netbuf) : TcpThread := { pc := .readReply buf, currentMenu := .portSelector }

/-- `50007`, CR and LF, cut behind its second digit. -/
def reply50007 : Netbuf :=
  ⟨{ payload := [0x35, 0x30] }, [{ payload := [0x30, 0x30, 0x37, carriageReturn, lineFeed] }]⟩

theorem sendsNamed_50007 : SendsNamed (answered reply50007) reply50007.bytes :=
  (sendsNamed_iff rfl 0x35 rfl (by decide)).mpr
    (.inl ⟨[0x35, 0x30, 0x30, 0x30, 0x37], 50007,
      ⟨by decide, ⟨[carriageReturn, lineFeed], by decide, rfl⟩, by decide, by decide, by decide⟩, rfl⟩)

def reply80 : Netbuf := ⟨{ payload := [0x38, 0x30] }, []⟩

/-- `80` asks for port 80, and over a stack of zero digits sends 80000 modulo 2^16. -/
theorem port_80_not_sent : ¬ ∀ (t : TcpThread) (buf : Netbuf) (b : Byte), t.pc = .readReply buf →
    buf.bytes.head? = some b → b ≠ charX → SendsNamed t buf.bytes := by
  intro sends
  have sendsNamed := sends (answered reply80) reply80 0x38 rfl rfl (by decide)
  have sent : Sends (answered reply80) (fun _ => 0x30) 14464 :=
    (sends_iff rfl).mpr ⟨by decide, by decide⟩
  obtain ⟨numeral, names⟩ := (sendsNamed _ _).mp sent
  have eighty : Names [0x38, 0x30] [0x38, 0x30] 80 :=
    ⟨by decide, ⟨[], by decide, rfl⟩, by decide, by decide, by decide⟩
  exact absurd (eighty.unique names).2 (by decide)

end WirelessSpeakers.Soundness
