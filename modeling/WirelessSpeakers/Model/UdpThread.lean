import WirelessSpeakers.Model.Peripherals
import WirelessSpeakers.Model.Speaker

/-! # The datagram thread

`UDP_thread` as an automaton over its own variables. A label is one statement of the source together
with the value it exchanges with the rest of the system: what a read returns, what a call reports.
The automaton says which statement comes next; whether the exchanged value is the right one is for
the shared objects to say.
-/

namespace WirelessSpeakers.Model

/-- What the program does not decide: the bus clock, the `uint16_t` at address zero, whether
`netconn_recv` can fail on the UDP connection, and whether some other task posts status blocks. -/
structure Environment where
  busClock : ℕ
  nullPort : Port
  recvErrors : Bool
  statusProducer : Bool

/-- A heap block of one `uint16_t`, which is written once, before its pointer is shared. -/
structure PortBlock where
  token : ℕ
  port : Port
deriving DecidableEq, Repr

/-- A datagram, whose `tot_len` fits its `u16_t`, and the port it was addressed to. -/
structure Datagram where
  buf : Netbuf
  port : Port
  fits : buf.totLen < 2 ^ 16
deriving DecidableEq

/-- Where `UDP_thread` is. The two branches on `buffer_flag` differ in the buffer only. -/
inductive UdpPc where
  | absent
  | start
  | checkPort
  | usePort
  | freePort
  | bind
  | audioConfig (script : Script)
  | recv
  | testFlag (d : Datagram)
  | copy (b : Buffer) (d : Datagram) (loop : CopyLoop)
  | failed (b : Buffer)
  | send (b : Buffer)
  | setFlag (b : Buffer)
  | reset
  | delete
  | poll
  | close
  | returned
deriving DecidableEq

/-- The variables of `UDP_thread`; `received` is history. -/
structure UdpThread where
  pc : UdpPc := .absent
  conn : Bool := false
  receivedPort : Option PortBlock := none
  port : Port := 50007
  received : ℕ := 0
deriving DecidableEq

/-- The statements of `UDP_thread`. -/
inductive UdpLabel where
  /-- `conn = netconn_new(NETCONN_UDP)` -/
  | new (ok : Bool)
  /-- `if ((*received_port) != 0)`, and `port = *received_port` -/
  | readPort (value : Port)
  /-- `vPortFree(received_port)` -/
  | free (block : Option PortBlock)
  /-- `netconn_bind(conn, IP_ADDR_ANY, port)`, whose result is not looked at -/
  | bind (port : Port) (ok : Bool)
  /-- `LWIP_ERROR("udpecho: invalid conn", (conn != NULL), return;)` -/
  | invalidConn
  /-- an access of `AudioConfig(45)` -/
  | reg (access : Access)
  /-- `err = netconn_recv(conn, &buf)`, with `ERR_OK` -/
  | recv (d : Datagram)
  /-- the same with an error -/
  | recvErr
  /-- `if (pdFALSE == buffer_flag)` -/
  | readFlag (flag : Bool)
  /-- one `MEMCPY` of `netbuf_copy(buf, bufferN, sizeof(bufferN))` -/
  | memcpy (b : Buffer) (left : ℕ) (block : List Cell)
  /-- its result, compared with `buf->p->tot_len` -/
  | copied (total : ℕ)
  /-- `i = 0` -/
  | clearIndex
  /-- `err = netconn_send(conn, buf)`, an error of which is only printed -/
  | send (ok : Bool)
  /-- `buffer_flag = pdTRUE` or `buffer_flag = pdFALSE` -/
  | setFlag (flag : Bool)
  /-- `netbuf_delete(buf)` -/
  | delete
  /-- `while (pdPASS != xQueueReceive(port_selection, &received_port, 0))` -/
  | poll (block : Option PortBlock)
  /-- `netconn_close(conn)` -/
  | close
deriving DecidableEq

namespace UdpThread

/-- `*received_port`; before the first selection the pointer is null. -/
def portValue (env : Environment) (u : UdpThread) : Port :=
  match u.receivedPort with
  | none => env.nullPort
  | some block => block.port

/-- The buffer that `netbuf_copy` is writing, if the thread is inside it. -/
def writing (u : UdpThread) : Option Buffer :=
  match u.pc with
  | .copy b _ _ => some b
  | _ => none

/-- A block of the datagram being handled, with its ordinal. -/
def tag (u : UdpThread) (block : List Byte) : List Cell := block.map fun byte => ⟨byte, some u.received⟩

end UdpThread

/-- One statement of `UDP_thread`. -/
def udpThread (env : Environment) (u : UdpThread) : UdpLabel → Option UdpThread
  | .new ok =>
    match u.pc with
    | .start => some { u with pc := .checkPort, conn := ok }
    | _ => none
  | .readPort value =>
    match u.pc with
    | .checkPort =>
      if value = u.portValue env then
        some { u with pc := if value ≠ 0 then .usePort else .bind }
      else none
    | .usePort =>
      if value = u.portValue env then some { u with pc := .freePort, port := value } else none
    | _ => none
  | .free block =>
    match u.pc with
    | .freePort => if block = u.receivedPort then some { u with pc := .bind } else none
    | _ => none
  | .bind port _ =>
    match u.pc with
    | .bind =>
      if u.conn ∧ port = u.port then
        some { u with pc := .audioConfig ⟨audioConfig env.busClock 45, none⟩ }
      else none
    | _ => none
  | .invalidConn =>
    match u.pc with
    | .bind => if u.conn then none else some { u with pc := .returned }
    | _ => none
  | .reg access =>
    match u.pc with
    | .audioConfig script =>
      (script.step access).map fun rest =>
        { u with pc := if rest.ops = [] then .recv else .audioConfig rest }
    | _ => none
  | .recv d =>
    match u.pc with
    | .recv => some { u with pc := .testFlag d, received := u.received + 1 }
    | _ => none
  | .recvErr =>
    match u.pc with
    | .recv => some { u with pc := .poll }
    | _ => none
  | .readFlag flag =>
    match u.pc with
    | .testFlag d =>
      let b : Buffer := if flag = false then .buffer1 else .buffer2
      some { u with pc := .copy b d (d.buf.copyLoop sizeofBuffer) }
    | _ => none
  | .memcpy b left block =>
    match u.pc with
    | .copy b' d loop =>
      match loop.next? with
      | some (next, bytes) =>
        if b = b' ∧ left = loop.left ∧ block = u.tag bytes then
          some { u with pc := .copy b' d next }
        else none
      | none => none
    | _ => none
  | .copied total =>
    match u.pc with
    | .copy b d loop =>
      if loop.next? = none ∧ total = loop.copiedTotal then
        some { u with pc := if total ≠ d.buf.totLen then .failed b else .send b }
      else none
    | _ => none
  | .clearIndex =>
    match u.pc with
    | .failed b => some { u with pc := .setFlag b }
    | .reset => some { u with pc := .delete }
    | _ => none
  | .send _ =>
    match u.pc with
    | .send b => some { u with pc := .setFlag b }
    | _ => none
  | .setFlag flag =>
    match u.pc with
    | .setFlag b => if flag = (b == .buffer1) then some { u with pc := .reset } else none
    | _ => none
  | .delete =>
    match u.pc with
    | .delete => some { u with pc := .poll }
    | _ => none
  | .poll block =>
    match u.pc with
    | .poll =>
      match block with
      | none => some { u with pc := .recv }
      | some taken => some { u with pc := .close, receivedPort := some taken }
    | _ => none
  | .close =>
    match u.pc with
    | .close => some { u with pc := .checkPort }
    | _ => none

/-- The statements of `UDP_thread` as a relation, for case analysis. -/
inductive UdpStep (env : Environment) (u : UdpThread) : UdpLabel → UdpThread → Prop
  | new (ok : Bool) (here : u.pc = .start) :
      UdpStep env u (.new ok) { u with pc := .checkPort, conn := ok }
  | checkPort (here : u.pc = .checkPort) :
      UdpStep env u (.readPort (u.portValue env))
        { u with pc := if u.portValue env ≠ 0 then .usePort else .bind }
  | usePort (here : u.pc = .usePort) :
      UdpStep env u (.readPort (u.portValue env))
        { u with pc := .freePort, port := u.portValue env }
  | free (here : u.pc = .freePort) : UdpStep env u (.free u.receivedPort) { u with pc := .bind }
  | bind (ok : Bool) (here : u.pc = .bind) (valid : u.conn = true) :
      UdpStep env u (.bind u.port ok)
        { u with pc := .audioConfig ⟨audioConfig env.busClock 45, none⟩ }
  | invalidConn (here : u.pc = .bind) (invalid : u.conn = false) :
      UdpStep env u .invalidConn { u with pc := .returned }
  | reg {script rest : Script} {access : Access} (here : u.pc = .audioConfig script)
      (step : script.step access = some rest) :
      UdpStep env u (.reg access)
        { u with pc := if rest.ops = [] then .recv else .audioConfig rest }
  | recv (d : Datagram) (here : u.pc = .recv) :
      UdpStep env u (.recv d)
        { u with pc := .testFlag d, received := u.received + 1 }
  | recvErr (here : u.pc = .recv) : UdpStep env u .recvErr { u with pc := .poll }
  | readFlag (flag : Bool) {d : Datagram} (here : u.pc = .testFlag d) :
      UdpStep env u (.readFlag flag)
        { u with pc := .copy (if flag = false then .buffer1 else .buffer2) d
                   (d.buf.copyLoop sizeofBuffer) }
  | memcpy {b : Buffer} {d : Datagram} {loop next : CopyLoop} {bytes : List Byte}
      (here : u.pc = .copy b d loop) (iteration : loop.next? = some (next, bytes)) :
      UdpStep env u (.memcpy b loop.left (u.tag bytes)) { u with pc := .copy b d next }
  | copied {b : Buffer} {d : Datagram} {loop : CopyLoop} (here : u.pc = .copy b d loop)
      (ended : loop.next? = none) :
      UdpStep env u (.copied loop.copiedTotal)
        { u with pc := if loop.copiedTotal ≠ d.buf.totLen then .failed b else .send b }
  | failed {b : Buffer} (here : u.pc = .failed b) :
      UdpStep env u .clearIndex { u with pc := .setFlag b }
  | send (ok : Bool) {b : Buffer} (here : u.pc = .send b) :
      UdpStep env u (.send ok) { u with pc := .setFlag b }
  | setFlag {b : Buffer} (here : u.pc = .setFlag b) :
      UdpStep env u (.setFlag (b == .buffer1)) { u with pc := .reset }
  | reset (here : u.pc = .reset) : UdpStep env u .clearIndex { u with pc := .delete }
  | delete (here : u.pc = .delete) : UdpStep env u .delete { u with pc := .poll }
  | pollEmpty (here : u.pc = .poll) : UdpStep env u (.poll none) { u with pc := .recv }
  | pollTaken (block : PortBlock) (here : u.pc = .poll) :
      UdpStep env u (.poll (some block)) { u with pc := .close, receivedPort := some block }
  | close (here : u.pc = .close) : UdpStep env u .close { u with pc := .checkPort }

theorem udpThread_eq_some_iff {env : Environment} {u v : UdpThread} {label : UdpLabel} :
    udpThread env u label = some v ↔ UdpStep env u label v := by
  constructor
  · intro success
    cases label with
    | new ok =>
      simp only [udpThread] at success
      split at success
      · next here => cases success; exact .new ok here
      · contradiction
    | readPort value =>
      simp only [udpThread] at success
      split at success
      · next here =>
        by_cases same : value = u.portValue env
        · subst same
          rw [if_pos rfl] at success
          cases success; exact .checkPort here
        · rw [if_neg same] at success; contradiction
      · next here =>
        split_ifs at success with same
        subst same; cases success; exact .usePort here
      · contradiction
    | free block =>
      simp only [udpThread] at success
      split at success
      · next here =>
        split_ifs at success with same
        subst same; cases success; exact .free here
      · contradiction
    | bind port ok =>
      simp only [udpThread] at success
      split at success
      · next here =>
        split_ifs at success with valid
        obtain ⟨valid, rfl⟩ := valid
        cases success; exact .bind ok here valid
      · contradiction
    | invalidConn =>
      simp only [udpThread] at success
      split at success
      · next here =>
        split_ifs at success with valid
        cases success; exact .invalidConn here (Bool.eq_false_iff.mpr valid)
      · contradiction
    | reg access =>
      simp only [udpThread] at success
      split at success
      · next script here =>
        obtain ⟨rest, step, rfl⟩ := Option.map_eq_some_iff.mp success
        exact .reg here step
      · contradiction
    | recv d =>
      simp only [udpThread] at success
      split at success
      · next here => cases success; exact .recv d here
      · contradiction
    | recvErr =>
      simp only [udpThread] at success
      split at success
      · next here => cases success; exact .recvErr here
      · contradiction
    | readFlag flag =>
      simp only [udpThread] at success
      split at success
      · next d here => cases success; exact .readFlag flag here
      · contradiction
    | memcpy b left block =>
      simp only [udpThread] at success
      split at success
      · next b' d loop here =>
        split at success
        · next next bytes iteration =>
          split_ifs at success with same
          obtain ⟨rfl, rfl, rfl⟩ := same
          cases success; exact .memcpy here iteration
        · contradiction
      · contradiction
    | copied total =>
      simp only [udpThread] at success
      split at success
      · next b d loop here =>
        by_cases same : loop.next? = none ∧ total = loop.copiedTotal
        · rw [if_pos same] at success
          obtain ⟨ended, rfl⟩ := same
          cases success; exact .copied here ended
        · rw [if_neg same] at success; contradiction
      · contradiction
    | clearIndex =>
      simp only [udpThread] at success
      split at success
      · next b here => cases success; exact .failed here
      · next here => cases success; exact .reset here
      · contradiction
    | send ok =>
      simp only [udpThread] at success
      split at success
      · next b here => cases success; exact .send ok here
      · contradiction
    | setFlag flag =>
      simp only [udpThread] at success
      split at success
      · next b here =>
        split_ifs at success with same
        subst same; cases success; exact .setFlag here
      · contradiction
    | delete =>
      simp only [udpThread] at success
      split at success
      · next here => cases success; exact .delete here
      · contradiction
    | poll block =>
      simp only [udpThread] at success
      split at success
      · next here =>
        cases block with
        | none => cases success; exact .pollEmpty here
        | some taken => cases success; exact .pollTaken taken here
      · contradiction
    | close =>
      simp only [udpThread] at success
      split at success
      · next here => cases success; exact .close here
      · contradiction
  · intro step
    cases step <;> simp_all [udpThread]

end WirelessSpeakers.Model
