import WirelessSpeakers.Machine.Numerals
import WirelessSpeakers.Soundness.PortReply
import WirelessSpeakers.Soundness.Segmentation

/-! # Reading the status report back

`tcp_printUDPstatus` writes each of its values with five digits, every one computed from the characters
in front of it. A value of 16 bits needs no more, so they are the leading digits of the value, and the
positional sum of the port reply takes them back to it.
-/

namespace WirelessSpeakers.Soundness

open Model TapeMachine

/-- The character of a digit. -/
def digitChar (d : ℕ) : Byte := BitVec.ofNat 8 (d + 0x30)

section Field

variable {d k n w : ℕ} {field : BitVec 16}

theorem toNat_digitChar (digit : d < 10) : (digitChar d).toNat = d + 0x30 := by
  rw [digitChar, BitVec.toNat_ofNat]
  omega

theorem isDigit_digitChar (digit : d < 10) : IsDigit (digitChar d) := by
  rw [IsDigit, toNat_digitChar digit]
  omega

theorem digitByte_natCast (d : ℕ) : digitByte d = digitChar d := BitVec.ofInt_natCast 8 (d + 0x30)

/-- The next digit, and what it leaves. -/
theorem digitByte_tdiv (n w : ℕ) : digitByte ((n : ℤ).tdiv w) = digitChar (n / w) := by
  rw [← Int.ofNat_tdiv, digitByte_natCast]

theorem sub_digitOf (digit : n / w < 10) :
    (n : ℤ) - digitOf (digitChar (n / w)) * w = ((n % w : ℕ) : ℤ) := by
  have value : digitOf (digitChar (n / w)) = ((n / w : ℕ) : ℤ) := by
    rw [digitOf, toNat_digitChar digit]
    omega
  rw [value, Int.natCast_emod, Int.emod_def, Int.natCast_ediv, Int.mul_comm]

/-- The expressions of the report for so many digits of a value. -/
def printDigits : ℕ → ℤ → List Byte
  | 0, _ => []
  | k + 1, value =>
    let digit := digitByte (value.tdiv (10 ^ k : ℕ))
    digit :: printDigits k (value - digitOf digit * (10 ^ k : ℕ))

theorem printDigits_eq (fits : n < 10 ^ k) : printDigits k n = (leadingDigits 10 k n).map digitChar := by
  induction k generalizing n with
  | zero => rfl
  | succ k ih =>
    obtain ⟨first, others⟩ := div_and_mod_lt fits
    rw [printDigits, digitByte_tdiv, sub_digitOf first, ih others]
    rfl

theorem value_lt (field : BitVec 16) : field.toNat < 10 ^ 5 := field.isLt.trans (by decide)

theorem statusDigits_eq (field : BitVec 16) :
    statusDigits field = (leadingDigits 10 5 field.toNat).map digitChar := by
  rw [← printDigits_eq (value_lt field)]
  simp only [statusDigits, printDigits, Nat.reducePow, Nat.cast_ofNat, Nat.cast_one, Int.tdiv_one]

example : statusDigits 40 = [0x30, 0x30, 0x30, 0x34, 0x30] := by decide

theorem isDigit_statusDigits : ∀ b ∈ statusDigits field, IsDigit b := by
  rw [statusDigits_eq, List.forall_mem_map]
  exact fun d member => isDigit_digitChar (lt_of_mem_leadingDigits (value_lt field) d member)

theorem numeralValue_statusDigits : numeralValue (statusDigits field) = field.toNat := by
  have digits : ((leadingDigits 10 5 field.toNat).map digitChar).map (fun b => b.toNat - 0x30) =
      leadingDigits 10 5 field.toNat := by
    rw [List.map_map]
    refine (List.map_congr_left fun d member => ?_).trans (List.map_id _)
    rw [Function.comp_apply, toNat_digitChar (lt_of_mem_leadingDigits (value_lt field) d member)]
    exact Nat.add_sub_cancel d 0x30
  rw [numeralValue, statusDigits_eq, List.map_reverse, digits, ofDigits_leadingDigits (value_lt field)]

/-- A port reply of these five characters would send the value as the port. -/
theorem decodePort_statusDigits (garbage : ℕ → Byte) :
    decodePort (readCell (statusDigits field) garbage) = field := by
  have five : (statusDigits field).length = 5 := rfl
  have sum := toNat_decodePort_readCell five.ge garbage
  rw [List.take_of_length_le five.le, positional_eq isDigit_statusDigits, numeralValue_statusDigits] at sum
  have bound := field.isLt
  apply BitVec.eq_of_toNat_eq
  omega

end Field

/-- The bytes of the seven writes. -/
def statusReport (values : UdpVal) : List Byte := (tcpPrintUdpStatus values).flatMap Chunk.bytes

/-- The fields behind the three texts. -/
def statusFields (report : List Byte) : List (List Byte) := fieldsBehind 5 [43, 28, 19] report

theorem statusFields_statusReport (values : UdpVal) : statusFields (statusReport values) =
    [statusDigits values.received, statusDigits values.losses, statusDigits values.relation] := by
  obtain ⟨received, losses, relation, spacing, written, lengths⟩ : ∃ a b c d : List Byte,
      tcpPrintUdpStatus values = [⟨.commStatus, a⟩, ⟨.commStatus, statusDigits values.received⟩,
        ⟨.commStatus, b⟩, ⟨.commStatus, statusDigits values.losses⟩, ⟨.commStatus, c⟩,
        ⟨.commStatus, statusDigits values.relation⟩, ⟨.commStatus, d⟩] ∧
      [a.length, b.length, c.length] = [43, 28, 19] := ⟨_, _, _, _, rfl, by decide⟩
  have laid : statusReport values = layOut [(received, statusDigits values.received),
      (losses, statusDigits values.losses), (relation, statusDigits values.relation)] ++ spacing := by
    simp only [statusReport, written, layOut, List.flatMap_cons, List.flatMap_nil, List.append_assoc,
      List.append_nil]
  rw [statusFields, laid, ← lengths]
  refine fieldsBehind_layOut [(received, _), (losses, _), (relation, _)] spacing ?_
  simp only [List.forall_mem_cons]
  exact ⟨rfl, rfl, rfl, by simp⟩

/-- The three fields are five digits each, and the decoder of the port reply takes them, in this order, for
the values. -/
structure ReadsBack (report : List Byte) (values : UdpVal) : Prop where
  digits : ∀ field ∈ statusFields report, field.length = 5 ∧ ∀ b ∈ field, IsDigit b
  decoded : ∀ garbage, (statusFields report).map (fun field => decodePort (readCell field garbage)) =
    [values.received, values.losses, values.relation]

theorem readsBack_statusReport (values : UdpVal) : ReadsBack (statusReport values) values := by
  constructor
  · rw [statusFields_statusReport]
    simp only [List.forall_mem_cons]
    exact ⟨⟨rfl, isDigit_statusDigits⟩, ⟨rfl, isDigit_statusDigits⟩,
      ⟨rfl, isDigit_statusDigits⟩, by simp⟩
  · intro garbage
    rw [statusFields_statusReport]
    simp only [List.map_cons, List.map_nil, decodePort_statusDigits]

theorem ReadsBack.unique {report : List Byte} {values others : UdpVal} (reads : ReadsBack report values)
    (again : ReadsBack report others) : values = others := by
  have same := (reads.decoded fun _ => 0).symm.trans (again.decoded fun _ => 0)
  obtain ⟨losses, received, relation⟩ := values
  simp only [List.cons.injEq, and_true] at same
  obtain ⟨rfl, rfl, rfl⟩ := same
  rfl

section Thread

variable {t u v : TcpThread} {values : UdpVal} {bytes : List Byte} {rest : List Pbuf}

/-- What a statement puts on the connection, if its `netconn_write` succeeds. -/
def sentBytes (t : TcpThread) : TcpLabel → List Byte
  | .write _ =>
    match t.pc with
    | .write (chunk :: _) _ => chunk.bytes
    | _ => []
  | _ => []

/-- `tcp_printUDPstatus`, called in `t`, receives `values` and has put these bytes on the connection when it
releases the block. -/
def Prints (t : TcpThread) (values : UdpVal) (bytes : List Byte) : Prop :=
  ∃ tape u, .freeStatus ∉ tape ∧
    (connection t).run (.setBits :: .status values :: (tape ++ [.freeStatus])) = some u ∧
    (connection t).emits sentBytes t (.setBits :: .status values :: tape) = bytes

theorem runFrom_connection {label : TcpLabel} {tape : List TcpLabel} :
    (connection t).runFrom u (label :: tape) = some v ↔
      ∃ w, tcpThread u label = some w ∧ (connection t).runFrom w tape = some v :=
  Option.bind_eq_some_iff

theorem emits_connection {label : TcpLabel} (step : tcpThread u label = some v) (tape : List TcpLabel) :
    (connection t).emits sentBytes u (label :: tape) =
      sentBytes u label ++ (connection t).emits sentBytes v tape :=
  emits_cons step tape

/-- A print function goes on with its next write and with nothing else. -/
theorem next_write {chunk : Chunk} {chunks : List Chunk} {k : Continuation} {label : TcpLabel}
    (here : u.pc = .write (chunk :: chunks) k) (step : tcpThread u label = some v) :
    sentBytes u label = chunk.bytes ∧ v.pc = if chunks = [] then k.resume else .write chunks k := by
  cases tcpThread_eq_some_iff.mp step with
  | write there =>
    cases here.symm.trans there
    rw [sentBytes, here]
    exact ⟨rfl, rfl⟩
  | _ => simp_all

/-- Behind its writes the block is released. -/
theorem nil_of_freeStatus {tape : List TcpLabel} (here : u.pc = .freeStatus rest)
    (first : .freeStatus ∉ tape) (ran : (connection t).runFrom u (tape ++ [.freeStatus]) = some v) :
    tape = [] := by
  cases tape with
  | nil => rfl
  | cons label tape =>
    obtain ⟨w, step, _⟩ := runFrom_connection.mp ran
    cases tcpThread_eq_some_iff.mp step with
    | freeStatus => exact absurd List.mem_cons_self first
    | _ => simp_all

/-- The writes that are still to come, up to the release of the block. -/
theorem emits_write {chunks : List Chunk} {tape : List TcpLabel} (pending : chunks ≠ [])
    (here : u.pc = .write chunks (.freeStatus rest)) (first : .freeStatus ∉ tape)
    (ran : (connection t).runFrom u (tape ++ [.freeStatus]) = some v) :
    (connection t).emits sentBytes u tape = chunks.flatMap Chunk.bytes := by
  induction chunks generalizing u tape with
  | nil => contradiction
  | cons chunk chunks ih =>
    cases tape with
    | nil =>
      obtain ⟨w, step, _⟩ := runFrom_connection.mp ran
      cases tcpThread_eq_some_iff.mp step with
      | freeStatus there => cases here.symm.trans there
    | cons label tape =>
      obtain ⟨w, step, behind⟩ := runFrom_connection.mp ran
      obtain ⟨written, there⟩ := next_write here step
      have later := List.not_mem_of_not_mem_cons first
      rw [emits_connection step, written, List.flatMap_cons]
      congr 1
      by_cases done : chunks = []
      · rw [if_pos done] at there
        subst done
        obtain rfl := nil_of_freeStatus there later behind
        rfl
      · rw [if_neg done] at there
        exact ih done there later behind

/-- They can be made. -/
theorem exists_writes {chunks : List Chunk} (pending : chunks ≠ [])
    (here : u.pc = .write chunks (.freeStatus rest)) : ∃ tape v, .freeStatus ∉ tape ∧
      (connection t).runFrom u (tape ++ [.freeStatus]) = some v := by
  refine ⟨chunks.map fun chunk => .write chunk.menu, { u with pc := .next rest }, by simp, ?_⟩
  induction chunks generalizing u with
  | nil => contradiction
  | cons chunk chunks ih =>
    refine runFrom_connection.mpr ⟨_, tcpThread_eq_some_iff.mpr (.write here), ?_⟩
    by_cases done : chunks = []
    · subst done
      rfl
    · rw [if_neg done]
      exact ih done rfl

/-- Before the writes the thread sets the event bit and receives the values. -/
theorem runFrom_receive {tape : List TcpLabel} :
    (connection t).run (.setBits :: .status values :: tape) = some v ↔
      ∃ rest, t.pc = .setBits rest ∧ (connection t).runFrom
        { t with pc := .write (tcpPrintUdpStatus values) (.freeStatus rest) } tape = some v := by
  constructor
  · intro ran
    obtain ⟨w, set, ran⟩ := runFrom_connection.mp ran
    obtain ⟨x, received, ran⟩ := runFrom_connection.mp ran
    cases tcpThread_eq_some_iff.mp set with
    | setBits here =>
      cases tcpThread_eq_some_iff.mp received with
      | status _ there =>
        cases there
        exact ⟨_, here, ran⟩
  · rintro ⟨rest, here, ran⟩
    refine runFrom_connection.mpr ⟨_, tcpThread_eq_some_iff.mpr (.setBits here), ?_⟩
    exact runFrom_connection.mpr ⟨_, tcpThread_eq_some_iff.mpr (.status values rfl), ran⟩

/-- The function writes the report and nothing else. -/
theorem prints_iff : Prints t values bytes ↔
    (∃ rest, t.pc = .setBits rest) ∧ bytes = statusReport values := by
  have received {rest : List Pbuf} (here : t.pc = .setBits rest) (tape : List TcpLabel) :
      (connection t).emits sentBytes t (.setBits :: .status values :: tape) = (connection t).emits sentBytes
        { t with pc := .write (tcpPrintUdpStatus values) (.freeStatus rest) } tape := by
    rw [emits_connection (tcpThread_eq_some_iff.mpr (.setBits here)),
      emits_connection (tcpThread_eq_some_iff.mpr (.status values rfl))]
    rfl
  constructor
  · rintro ⟨tape, u, first, ran, rfl⟩
    obtain ⟨rest, here, ran⟩ := runFrom_receive.mp ran
    rw [received here]
    exact ⟨⟨rest, here⟩, emits_write (List.cons_ne_nil _ _) rfl first ran⟩
  · rintro ⟨⟨rest, here⟩, rfl⟩
    let writing : TcpThread := { t with pc := .write (tcpPrintUdpStatus values) (.freeStatus rest) }
    obtain ⟨tape, u, first, ran⟩ := exists_writes (t := t) (u := writing) (List.cons_ne_nil _ _) rfl
    refine ⟨tape, u, first, runFrom_receive.mpr ⟨rest, here, ran⟩, ?_⟩
    rw [received here]
    exact emits_write (List.cons_ne_nil _ _) rfl first ran

end Thread

/-- Whatever the values are, the thread writes one report for them, which reads back as these values, and
no other values have the same report. -/
theorem status_read_back {t : TcpThread} {rest : List Pbuf} (here : t.pc = .setBits rest)
    (values : UdpVal) : ∃ report, (∀ bytes, Prints t values bytes ↔ bytes = report) ∧
      ReadsBack report values ∧ ∀ t' values', Prints t' values' report → values' = values := by
  refine ⟨statusReport values, fun bytes => ?_, readsBack_statusReport values, fun t' values' prints => ?_⟩
  · rw [prints_iff]
    exact and_iff_right ⟨rest, here⟩
  · have same := (prints_iff.mp prints).2
    have again := readsBack_statusReport values'
    rw [← same] at again
    exact again.unique (readsBack_statusReport values)

/-- All five digits are needed for 65535 packets, and the report pads the others with zeros. -/
theorem status_read_back_65535 : ∃ report,
    (∀ bytes, Prints { pc := .setBits [] } ⟨40, 65535, 0⟩ bytes ↔ bytes = report) ∧
      ReadsBack report ⟨40, 65535, 0⟩ ∧
        ∀ t' values', Prints t' values' report → values' = ⟨40, 65535, 0⟩ :=
  status_read_back rfl ⟨40, 65535, 0⟩

end WirelessSpeakers.Soundness
