import WirelessSpeakers.Machine.BoundedQueue
import WirelessSpeakers.Model.TcpThread

/-! # What the threads share

The audio buffers, the registers, the heap blocks of the port selections, the two FreeRTOS queues of
length one, the event bit, and the UDP connection of lwIP. Each shared object answers a label of a
thread: it returns what was read, performs what was written, and refuses a label whose exchanged
value is not the one it holds. Blocking is refusal.

Of lwIP: a datagram for the bound port is appended to the mailbox, `netconn_recv` takes the oldest
one, `netconn_bind` sets the local port or fails, and `netconn_close` leaves a UDP connection alone.
-/

namespace WirelessSpeakers.Model

/-- The live blocks of `pvPortMalloc(sizeof(uint16_t))`; tokens are never reused. -/
structure Heap where
  next : ℕ := 0
  live : List PortBlock := []
deriving DecidableEq, Repr

namespace Heap

def malloc? (heap : Heap) (block : PortBlock) : Option Heap :=
  if block.token = heap.next then some ⟨heap.next + 1, heap.live ++ [block]⟩ else none

/-- `vPortFree`; a null pointer is ignored. -/
def free (heap : Heap) : Option PortBlock → Heap
  | none => heap
  | some block => { heap with live := heap.live.filter (· ≠ block) }

end Heap

/-- The UDP netconn and its pcb. -/
structure UdpConn where
  localPort : Option Port := none
  mailbox : List Datagram := []
deriving DecidableEq

/-- `udp_input`: a datagram for another port than the bound one finds no pcb and is dropped. -/
def UdpConn.udpInput (conn : UdpConn) (d : Datagram) : UdpConn :=
  if conn.localPort = some d.port then { conn with mailbox := conn.mailbox ++ [d] } else conn

structure World where
  speaker : Speaker := .initial
  regs : Peripherals := {}
  heap : Heap := {}
  portSelection : BoundedQueue PortBlock 1 := .empty
  udpStatusValues : BoundedQueue UdpVal 1 := .empty
  onUdpMenu : Bool := false
  conn : UdpConn := {}

namespace World

/-- The shared objects under one statement of `UDP_thread`. -/
def udp (env : Environment) (w : World) : UdpLabel → Option World
  | .free block => some { w with heap := w.heap.free block }
  | .bind port ok =>
    if ok then some { w with conn := { w.conn with localPort := some port } } else some w
  | .reg access => (w.regs.access access).map fun regs => { w with regs }
  | .recv d =>
    match w.conn.mailbox with
    | oldest :: rest =>
      if oldest = d then some { w with conn := { w.conn with mailbox := rest } } else none
    | [] => none
  | .recvErr => if env.recvErrors then some w else none
  | .readFlag flag => if w.speaker.bufferFlag = flag then some w else none
  | .memcpy b left block => some { w with speaker := w.speaker.memcpy b left block }
  | .clearIndex => some { w with speaker := w.speaker.clearIndex }
  | .setFlag flag => some { w with speaker := w.speaker.setFlag flag }
  | .poll none => if w.portSelection.items = [] then some w else none
  | .poll (some block) =>
    match w.portSelection.receive? with
    | some (oldest, rest) => if oldest = block then some { w with portSelection := rest } else none
    | none => none
  | .new _ | .readPort _ | .invalidConn | .copied _ | .send _ | .delete | .close => some w

/-- The shared objects under one statement of `tcp_thread`. -/
def tcp (w : World) : TcpLabel → Option World
  | .clearBits => some { w with onUdpMenu := false }
  | .setBits => some { w with onUdpMenu := true }
  | .reg access => (w.regs.access access).map fun regs => { w with regs }
  | .malloc block => (w.heap.malloc? block).map fun heap => { w with heap }
  | .send block true => (w.portSelection.send? block).map fun queue => { w with portSelection := queue }
  | .send _ false | .tick => if w.portSelection.Full then some w else none
  | .status values =>
    match w.udpStatusValues.receive? with
    | some (oldest, rest) =>
      if oldest = values then some { w with udpStatusValues := rest } else none
    | none => none
  | .listen _ | .accept _ | .write _ | .recv _ | .recvErr | .switch _ | .setMusicState _ | .delete
  | .readReply _ | .freeStatus | .next | .close | .deleteConn => some w

/-- `PIT0_IRQHandler`, which runs to its end undisturbed. -/
def pit0 (w : World) : World :=
  { w with
    speaker := w.speaker.pit0IrqHandler.1
    regs := w.regs.dacSetBufferValue w.speaker.pit0IrqHandler.2.value }

/-- A datagram from the network. -/
def arrive (w : World) (d : Datagram) : World := { w with conn := w.conn.udpInput d }

/-- Some other task posts a status block, where there is one. -/
def post (env : Environment) (w : World) (values : UdpVal) : Option World :=
  if env.statusProducer then
    (w.udpStatusValues.send? values).map fun queue => { w with udpStatusValues := queue }
  else none

section Exchange

variable {env : Environment} {w v : World}

theorem udp_recv {d : Datagram} : w.udp env (.recv d) = some v ↔
    ∃ rest, w.conn.mailbox = d :: rest ∧ v = { w with conn := { w.conn with mailbox := rest } } := by
  simp only [udp]
  cases w.conn.mailbox with
  | nil => simp
  | cons oldest rest => simp [eq_comm, and_assoc]

theorem udp_readFlag {flag : Bool} :
    w.udp env (.readFlag flag) = some v ↔ w.speaker.bufferFlag = flag ∧ v = w := by
  simp [udp, eq_comm]

theorem udp_pollEmpty :
    w.udp env (.poll none) = some v ↔ w.portSelection.items = [] ∧ v = w := by
  simp [udp, eq_comm]

theorem udp_pollTaken {block : PortBlock} : w.udp env (.poll (some block)) = some v ↔
    ∃ rest, w.portSelection.receive? = some (block, rest) ∧ v = { w with portSelection := rest } := by
  simp only [udp]
  cases w.portSelection.receive? with
  | none => simp
  | some taken => simp [Prod.ext_iff, eq_comm, and_assoc]

theorem tcp_malloc {block : PortBlock} : w.tcp (.malloc block) = some v ↔
    block.token = w.heap.next ∧
      v = { w with heap := ⟨w.heap.next + 1, w.heap.live ++ [block]⟩ } := by
  simp only [tcp, Heap.malloc?]
  split_ifs with fresh <;> simp [fresh, eq_comm]

theorem tcp_sent {block : PortBlock} : w.tcp (.send block true) = some v ↔
    ∃ queue, w.portSelection.send? block = some queue ∧ v = { w with portSelection := queue } := by
  simp [tcp, eq_comm]

theorem tcp_refused {block : PortBlock} :
    w.tcp (.send block false) = some v ↔ w.portSelection.Full ∧ v = w := by
  simp [tcp, eq_comm]

theorem tcp_tick : w.tcp .tick = some v ↔ w.portSelection.Full ∧ v = w := by
  simp [tcp, eq_comm]

theorem tcp_status {values : UdpVal} : w.tcp (.status values) = some v ↔
    ∃ rest, w.udpStatusValues.receive? = some (values, rest) ∧
      v = { w with udpStatusValues := rest } := by
  simp only [tcp]
  cases w.udpStatusValues.receive? with
  | none => simp
  | some taken => simp [Prod.ext_iff, eq_comm, and_assoc]

theorem post_eq {values : UdpVal} : w.post env values = some v ↔
    env.statusProducer = true ∧ ∃ queue, w.udpStatusValues.send? values = some queue ∧
      v = { w with udpStatusValues := queue } := by
  rw [post]
  split
  · next producer => simp only [producer, Option.map_eq_some_iff, true_and, eq_comm (b := v)]
  · next none => simp [none]

end Exchange

/-- The speaker behind a statement of `UDP_thread`. -/
def speakerAfter (speaker : Speaker) : UdpLabel → Speaker
  | .memcpy b left block => speaker.memcpy b left block
  | .clearIndex => speaker.clearIndex
  | .setFlag flag => speaker.setFlag flag
  | _ => speaker

/-- What a statement of `UDP_thread` may change. -/
structure UdpFrame (w : World) (label : UdpLabel) (v : World) : Prop where
  speaker : v.speaker = speakerAfter w.speaker label
  regs : (∀ access, label ≠ .reg access) → v.regs = w.regs
  heap : (∀ block, label ≠ .free block) → v.heap = w.heap
  portSelection : (∀ block, label ≠ .poll (some block)) → v.portSelection = w.portSelection
  udpStatusValues : v.udpStatusValues = w.udpStatusValues
  onUdpMenu : v.onUdpMenu = w.onUdpMenu
  conn : (∀ d, label ≠ .recv d) → (∀ port ok, label ≠ .bind port ok) → v.conn = w.conn

/-- What a statement of `tcp_thread` may change. -/
structure TcpFrame (w : World) (label : TcpLabel) (v : World) : Prop where
  speaker : v.speaker = w.speaker
  regs : (∀ access, label ≠ .reg access) → v.regs = w.regs
  heap : (∀ block, label ≠ .malloc block) → v.heap = w.heap
  portSelection : (∀ block, label ≠ .send block true) → v.portSelection = w.portSelection
  udpStatusValues : (∀ values, label ≠ .status values) → v.udpStatusValues = w.udpStatusValues
  onUdpMenu : label ≠ .clearBits → label ≠ .setBits → v.onUdpMenu = w.onUdpMenu
  conn : v.conn = w.conn

section Frame

variable {env : Environment} {w v : World}

theorem udp_frame {label : UdpLabel} (shared : w.udp env label = some v) : UdpFrame w label v := by
  cases label with
  | free block =>
    cases shared
    exact ⟨rfl, fun _ => rfl, fun other => absurd rfl (other block), fun _ => rfl, rfl, rfl,
      fun _ _ => rfl⟩
  | bind port ok =>
    refine ⟨?_, ?_, ?_, ?_, ?_, ?_, fun _ other => absurd rfl (other port ok)⟩ <;>
      (cases ok <;> cases shared) <;> first | rfl | exact fun _ => rfl
  | reg access =>
    obtain ⟨_, _, rfl⟩ := Option.map_eq_some_iff.mp shared
    exact ⟨rfl, fun other => absurd rfl (other access), fun _ => rfl, fun _ => rfl, rfl, rfl,
      fun _ _ => rfl⟩
  | recv d =>
    obtain ⟨_, _, rfl⟩ := udp_recv.mp shared
    exact ⟨rfl, fun _ => rfl, fun _ => rfl, fun _ => rfl, rfl, rfl,
      fun other => absurd rfl (other d)⟩
  | recvErr =>
    simp only [udp] at shared
    split_ifs at shared
    cases shared
    exact ⟨rfl, fun _ => rfl, fun _ => rfl, fun _ => rfl, rfl, rfl, fun _ _ => rfl⟩
  | readFlag flag =>
    obtain ⟨_, rfl⟩ := udp_readFlag.mp shared
    exact ⟨rfl, fun _ => rfl, fun _ => rfl, fun _ => rfl, rfl, rfl, fun _ _ => rfl⟩
  | poll block =>
    cases block with
    | none =>
      obtain ⟨_, rfl⟩ := udp_pollEmpty.mp shared
      exact ⟨rfl, fun _ => rfl, fun _ => rfl, fun _ => rfl, rfl, rfl, fun _ _ => rfl⟩
    | some block =>
      obtain ⟨_, _, rfl⟩ := udp_pollTaken.mp shared
      exact ⟨rfl, fun _ => rfl, fun _ => rfl, fun other => absurd rfl (other block), rfl, rfl,
        fun _ _ => rfl⟩
  | _ =>
    cases shared
    exact ⟨rfl, fun _ => rfl, fun _ => rfl, fun _ => rfl, rfl, rfl, fun _ _ => rfl⟩

theorem tcp_frame {label : TcpLabel} (shared : w.tcp label = some v) : TcpFrame w label v := by
  cases label with
  | clearBits =>
    cases shared
    exact ⟨rfl, fun _ => rfl, fun _ => rfl, fun _ => rfl, fun _ => rfl,
      fun other => absurd rfl other, rfl⟩
  | setBits =>
    cases shared
    exact ⟨rfl, fun _ => rfl, fun _ => rfl, fun _ => rfl, fun _ => rfl,
      fun _ other => absurd rfl other, rfl⟩
  | reg access =>
    obtain ⟨_, _, rfl⟩ := Option.map_eq_some_iff.mp shared
    exact ⟨rfl, fun other => absurd rfl (other access), fun _ => rfl, fun _ => rfl, fun _ => rfl,
      fun _ _ => rfl, rfl⟩
  | malloc block =>
    obtain ⟨_, rfl⟩ := tcp_malloc.mp shared
    exact ⟨rfl, fun _ => rfl, fun other => absurd rfl (other block), fun _ => rfl, fun _ => rfl,
      fun _ _ => rfl, rfl⟩
  | send block ok =>
    cases ok with
    | true =>
      obtain ⟨_, _, rfl⟩ := tcp_sent.mp shared
      exact ⟨rfl, fun _ => rfl, fun _ => rfl, fun other => absurd rfl (other block), fun _ => rfl,
        fun _ _ => rfl, rfl⟩
    | false =>
      obtain ⟨_, rfl⟩ := tcp_refused.mp shared
      exact ⟨rfl, fun _ => rfl, fun _ => rfl, fun _ => rfl, fun _ => rfl, fun _ _ => rfl, rfl⟩
  | tick =>
    obtain ⟨_, rfl⟩ := tcp_tick.mp shared
    exact ⟨rfl, fun _ => rfl, fun _ => rfl, fun _ => rfl, fun _ => rfl, fun _ _ => rfl, rfl⟩
  | status values =>
    obtain ⟨_, _, rfl⟩ := tcp_status.mp shared
    exact ⟨rfl, fun _ => rfl, fun _ => rfl, fun _ => rfl, fun other => absurd rfl (other values),
      fun _ _ => rfl, rfl⟩
  | _ =>
    cases shared
    exact ⟨rfl, fun _ => rfl, fun _ => rfl, fun _ => rfl, fun _ => rfl, fun _ _ => rfl, rfl⟩

end Frame

end World

end WirelessSpeakers.Model
