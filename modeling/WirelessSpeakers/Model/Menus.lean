import WirelessSpeakers.Model.Netbuf

/-! # What the control connection shows and reads

The three print functions of the control thread, as the `netconn_write` calls they make. Each call is
tagged with the screen it belongs to. `decodePort` is the positional decoder of a port reply, and the
digits of the status report are the source's expressions, each in terms of the ones before it.
-/

namespace WirelessSpeakers.Model

/-- `menus_t`. -/
inductive Menu where
  | mainMenu
  | portSelector
  | commStatus
deriving DecidableEq, Repr

/-- `UDP_val_t`. -/
structure UdpVal where
  losses : BitVec 16
  received : BitVec 16
  relation : BitVec 16
deriving DecidableEq, Repr

/-- One `netconn_write` call: the screen it contributes to, and the bytes. -/
structure Chunk where
  menu : Menu
  bytes : List Byte
deriving DecidableEq, Repr

/-- The first `length` characters of a string constant. -/
def text (string : String) (length : ℕ) : List Byte :=
  (string.toList.map fun c => BitVec.ofNat 8 c.toNat).take length

/-- The writes of `tcp_printMenu`. -/
def tcpPrintMenu : List Chunk :=
  [⟨.mainMenu,
      text "WIRELESS K64 SPEAKERS\n\n1)Mute/Unmute audio\n2)Select music source device\n3)Deploy comms stats\n" 93⟩,
    ⟨.mainMenu, text "\n\n\n\n\n" 5⟩]

/-- The writes of `tcp_printSelector`. -/
def tcpPrintSelector : List Chunk :=
  [⟨.portSelector, text "Type in the port\nyou want to listen to:" 39⟩,
    ⟨.portSelector, text "\n\n\n\n\n\n\n\n\n" 9⟩]

/-- An `int` digit value as the character stored in a `uint8_t`. -/
def digitByte (value : ℤ) : Byte := BitVec.ofInt 8 (value + 0x30)

/-- `value[k] - '0'`. -/
def digitOf (byte : Byte) : ℤ := byte.toNat - 0x30

/-- The five characters of a status field. -/
def statusDigits (field : BitVec 16) : List Byte :=
  let value : ℤ := field.toNat
  let d0 := digitByte (value.tdiv 10000)
  let d1 := digitByte ((value - digitOf d0 * 10000).tdiv 1000)
  let d2 := digitByte ((value - digitOf d0 * 10000 - digitOf d1 * 1000).tdiv 100)
  let d3 := digitByte ((value - digitOf d0 * 10000 - digitOf d1 * 1000 - digitOf d2 * 100).tdiv 10)
  let d4 := digitByte
    (value - digitOf d0 * 10000 - digitOf d1 * 1000 - digitOf d2 * 100 - digitOf d3 * 10)
  [d0, d1, d2, d3, d4]

/-- The writes of `tcp_printUDPstatus`. -/
def tcpPrintUdpStatus (values : UdpVal) : List Chunk :=
  [⟨.commStatus, text "comms stats\nUDP packs received per second: " 43⟩,
    ⟨.commStatus, statusDigits values.received⟩,
    ⟨.commStatus, text "\nUDP packs lost per second: " 28⟩,
    ⟨.commStatus, statusDigits values.losses⟩,
    ⟨.commStatus, text "\nUDP comm quality: " 19⟩,
    ⟨.commStatus, statusDigits values.relation⟩,
    ⟨.commStatus, text "\n\n\n\n\n\n\n" 7⟩]

/-- Each print function writes one screen. -/
theorem menu_of_mem_tcpPrintMenu : ∀ chunk ∈ tcpPrintMenu, chunk.menu = .mainMenu := by
  simp only [tcpPrintMenu, List.forall_mem_cons, List.not_mem_nil, false_imp_iff, implies_true,
    and_self]

theorem menu_of_mem_tcpPrintSelector : ∀ chunk ∈ tcpPrintSelector, chunk.menu = .portSelector := by
  simp only [tcpPrintSelector, List.forall_mem_cons, List.not_mem_nil, false_imp_iff, implies_true,
    and_self]

theorem menu_of_mem_tcpPrintUdpStatus (values : UdpVal) :
    ∀ chunk ∈ tcpPrintUdpStatus values, chunk.menu = .commStatus := by
  simp only [tcpPrintUdpStatus, List.forall_mem_cons, List.not_mem_nil, false_imp_iff, implies_true,
    and_self]

/-- `new_port`, from the first five bytes of `read_port`: an `int` sum narrowed to `uint16_t`. -/
def decodePort (readPort : ℕ → Byte) : Port :=
  BitVec.ofInt 16 (digitOf (readPort 0) * 10000 + digitOf (readPort 1) * 1000 +
    digitOf (readPort 2) * 100 + digitOf (readPort 3) * 10 + digitOf (readPort 4))

example : decodePort (fun k => ([0x35, 0x30, 0x30, 0x30, 0x37] : List Byte).getD k 0) = 50007 := by
  decide

end WirelessSpeakers.Model
