import WirelessSpeakers.Model.Menus
import WirelessSpeakers.Model.UdpThread

/-! # The control thread

`tcp_thread` as an automaton over its own variables, in the manner of the datagram thread: a label is
one statement with the value it exchanges. The reads of the network are labels too, so a tape of
labels fixes what the client sent, how it was cut into messages and pbufs, and which calls failed.
A failed receive of the port reply leaves a null netbuf that the next statement dereferences; the
automaton stops there.
-/

namespace WirelessSpeakers.Model

/-- The characters that `tcp_thread` compares with. -/
def charX : Byte := 0x78
def char1 : Byte := 0x31
def char2 : Byte := 0x32
def char3 : Byte := 0x33

/-- What follows a print function: the first receive of a connection, the fragment loop, the receive
of the port reply, or the release of the status block. -/
inductive Continuation where
  | recv
  | next (rest : List Pbuf)
  | reply
  | freeStatus (rest : List Pbuf)
deriving DecidableEq, Repr

/-- Where `tcp_thread` is; `rest` are the pbufs behind the one `buf->ptr` points to. -/
inductive TcpPc where
  | absent
  | start
  | accept
  | clearBits (k : Continuation)
  | write (chunks : List Chunk) (k : Continuation)
  | recv
  | dispatch (p : Pbuf) (rest : List Pbuf)
  | audioOutput (script : Script) (music : Byte) (rest : List Pbuf)
  | setMusicState (music : Byte) (rest : List Pbuf)
  | deleteForReply
  | recvReply
  | readReply (buf : Netbuf)
  | malloc (newPort : Port) (rest : List Pbuf)
  | send (block : PortBlock) (ticks : ℕ) (rest : List Pbuf)
  | setBits (rest : List Pbuf)
  | receiveStatus (rest : List Pbuf)
  | freeStatus (rest : List Pbuf)
  | next (rest : List Pbuf)
  | delete
  | close
  | deleteConn
  | fault
  | returned
deriving DecidableEq

def Continuation.resume : Continuation → TcpPc
  | recv => .recv
  | next rest => .next rest
  | reply => .deleteForReply
  | freeStatus rest => .freeStatus rest

/-- The variables of `tcp_thread`; all but the program counter are static. -/
structure TcpThread where
  pc : TcpPc := .absent
  firstMenuPrint : Byte := 0
  currentMenu : Menu := .mainMenu
  musicState : Byte := 1
deriving DecidableEq

/-- The statements of `tcp_thread`. -/
inductive TcpLabel where
  /-- `netconn_new`, `netconn_bind`, `LWIP_ERROR(..., return;)` and `netconn_listen` -/
  | listen (ok : Bool)
  /-- `err = netconn_accept(conn, &newconn)`, and `if(0 == first_menu_print)` -/
  | accept (ok : Bool)
  /-- `xEventGroupClearBits(WirelessSpeakers_events, ON_UDP_MENU)`, the head of `tcp_printMenu` -/
  | clearBits
  /-- `xEventGroupSetBits(WirelessSpeakers_events, ON_UDP_MENU)`, the head of `tcp_printUDPstatus` -/
  | setBits
  /-- one `netconn_write`, whose result is not looked at -/
  | write (menu : Menu)
  /-- `netconn_recv(newconn, &buf)` with `ERR_OK`, in the outer loop or for the port reply -/
  | recv (buf : Netbuf)
  /-- the same with an error -/
  | recvErr
  /-- `netbuf_data(buf, &data, &len)` and `switch(*data_casted)` -/
  | switch (command : Byte)
  /-- an access of `AudioOutput` -/
  | reg (access : Access)
  /-- `MusicState = 0` or `MusicState = 1` -/
  | setMusicState (music : Byte)
  /-- `netbuf_delete(buf)` -/
  | delete
  /-- `netbuf_copy(buf, read_port, 10)` into an uninitialised array, and the test for `'x'` -/
  | readReply (garbage : ℕ → Byte)
  /-- `port_transporter = pvPortMalloc(sizeof(uint16_t))` and `*port_transporter = new_port` -/
  | malloc (block : PortBlock)
  /-- the return of `xQueueSend(port_selection, &port_transporter, 100)`, which is not looked at -/
  | send (block : PortBlock) (ok : Bool)
  /-- one of its 100 ticks -/
  | tick
  /-- `xQueueReceive(UDP_status_values, &receiver_values, portMAX_DELAY)` -/
  | status (values : UdpVal)
  /-- `vPortFree(receiver_values)` -/
  | freeStatus
  /-- `while (netbuf_next(buf) >= 0)` -/
  | next
  /-- `netconn_close(newconn)` -/
  | close
  /-- `netconn_delete(newconn)` -/
  | deleteConn

/-- `switch(*data_casted)`, up to the first call of the case taken. -/
def tcpSwitch (t : TcpThread) (command : Byte) (rest : List Pbuf) : TcpThread :=
  if command = charX then { t with pc := .clearBits (.next rest), currentMenu := .mainMenu }
  else if command = char1 then
    if t.musicState = 1 then { t with pc := .audioOutput ⟨audioOutput 1, none⟩ 0 rest }
    else if t.musicState = 0 then { t with pc := .audioOutput ⟨audioOutput 0, none⟩ 1 rest }
    else { t with pc := .next rest }
  else if command = char2 then
    if t.currentMenu = .mainMenu ∨ t.currentMenu = .portSelector then
      { t with pc := .write tcpPrintSelector .reply, currentMenu := .portSelector }
    else { t with pc := .next rest }
  else if command = char3 then
    if t.currentMenu = .mainMenu then { t with pc := .setBits rest, currentMenu := .commStatus }
    else { t with pc := .next rest }
  else { t with pc := .next rest }

/-- Back to the main menu, behind the `if` of the port reply. -/
def tcpMainMenu (t : TcpThread) (rest : List Pbuf) : TcpThread :=
  { t with pc := .clearBits (.next rest), currentMenu := .mainMenu }

/-- One statement of `tcp_thread`. -/
def tcpThread (t : TcpThread) : TcpLabel → Option TcpThread
  | .listen ok =>
    match t.pc with
    | .start => some { t with pc := if ok then .accept else .returned }
    | _ => none
  | .accept ok =>
    match t.pc with
    | .accept =>
      if ok then
        some { t with pc := if t.firstMenuPrint = 0 then .clearBits .recv else .recv }
      else some t
    | _ => none
  | .clearBits =>
    match t.pc with
    | .clearBits k => some { t with pc := .write tcpPrintMenu k }
    | _ => none
  | .setBits =>
    match t.pc with
    | .setBits rest => some { t with pc := .receiveStatus rest }
    | _ => none
  | .write menu =>
    match t.pc with
    | .write (chunk :: chunks) k =>
      if menu = chunk.menu then
        some { t with pc := if chunks = [] then k.resume else .write chunks k }
      else none
    | _ => none
  | .recv buf =>
    match t.pc with
    | .recv => some { t with pc := .dispatch buf.p buf.next }
    | .recvReply => some { t with pc := .readReply buf }
    | _ => none
  | .recvErr =>
    match t.pc with
    | .recv => some { t with pc := .close }
    | .recvReply => some { t with pc := .fault }
    | _ => none
  | .switch command =>
    match t.pc with
    | .dispatch p rest => if command = p.first then some (tcpSwitch t command rest) else none
    | _ => none
  | .reg access =>
    match t.pc with
    | .audioOutput script music rest =>
      (script.step access).map fun later =>
        { t with pc := if later.ops = [] then .setMusicState music rest
                       else .audioOutput later music rest }
    | _ => none
  | .setMusicState music =>
    match t.pc with
    | .setMusicState music' rest =>
      if music = music' then some { t with pc := .next rest, musicState := music } else none
    | _ => none
  | .delete =>
    match t.pc with
    | .deleteForReply => some { t with pc := .recvReply }
    | .delete => some { t with pc := .recv }
    | _ => none
  | .readReply garbage =>
    match t.pc with
    | .readReply buf =>
      let readPort := (netbufCopy buf garbage 10).1
      if readPort 0 ≠ charX then some { t with pc := .malloc (decodePort readPort) buf.next }
      else some (tcpMainMenu t buf.next)
    | _ => none
  | .malloc block =>
    match t.pc with
    | .malloc newPort rest =>
      if block.port = newPort then some { t with pc := .send block 100 rest } else none
    | _ => none
  | .send block ok =>
    match t.pc with
    | .send block' ticks rest =>
      if block = block' ∧ (ok ∨ ticks = 0) then some (tcpMainMenu t rest) else none
    | _ => none
  | .tick =>
    match t.pc with
    | .send block (ticks + 1) rest => some { t with pc := .send block ticks rest }
    | _ => none
  | .status values =>
    match t.pc with
    | .receiveStatus rest =>
      some { t with pc := .write (tcpPrintUdpStatus values) (.freeStatus rest) }
    | _ => none
  | .freeStatus =>
    match t.pc with
    | .freeStatus rest => some { t with pc := .next rest }
    | _ => none
  | .next =>
    match t.pc with
    | .next [] => some { t with pc := .delete }
    | .next (p :: rest) => some { t with pc := .dispatch p rest }
    | _ => none
  | .close =>
    match t.pc with
    | .close => some { t with pc := .deleteConn }
    | _ => none
  | .deleteConn =>
    match t.pc with
    | .deleteConn => some { t with pc := .accept }
    | _ => none

/-- The statements of `tcp_thread` as a relation, for case analysis. -/
inductive TcpStep (t : TcpThread) : TcpLabel → TcpThread → Prop
  | listen (ok : Bool) (here : t.pc = .start) :
      TcpStep t (.listen ok) { t with pc := if ok then .accept else .returned }
  | accept (here : t.pc = .accept) :
      TcpStep t (.accept true) { t with pc := if t.firstMenuPrint = 0 then .clearBits .recv else .recv }
  | refused (here : t.pc = .accept) : TcpStep t (.accept false) t
  | clearBits {k : Continuation} (here : t.pc = .clearBits k) :
      TcpStep t .clearBits { t with pc := .write tcpPrintMenu k }
  | setBits {rest : List Pbuf} (here : t.pc = .setBits rest) :
      TcpStep t .setBits { t with pc := .receiveStatus rest }
  | write {chunk : Chunk} {chunks : List Chunk} {k : Continuation}
      (here : t.pc = .write (chunk :: chunks) k) :
      TcpStep t (.write chunk.menu) { t with pc := if chunks = [] then k.resume else .write chunks k }
  | recv (buf : Netbuf) (here : t.pc = .recv) :
      TcpStep t (.recv buf) { t with pc := .dispatch buf.p buf.next }
  | recvReply (buf : Netbuf) (here : t.pc = .recvReply) :
      TcpStep t (.recv buf) { t with pc := .readReply buf }
  | recvErr (here : t.pc = .recv) : TcpStep t .recvErr { t with pc := .close }
  | replyErr (here : t.pc = .recvReply) : TcpStep t .recvErr { t with pc := .fault }
  | switch {p : Pbuf} {rest : List Pbuf} (here : t.pc = .dispatch p rest) :
      TcpStep t (.switch p.first) (tcpSwitch t p.first rest)
  | reg {script later : Script} {access : Access} {music : Byte} {rest : List Pbuf}
      (here : t.pc = .audioOutput script music rest) (step : script.step access = some later) :
      TcpStep t (.reg access)
        { t with pc := if later.ops = [] then .setMusicState music rest
                       else .audioOutput later music rest }
  | setMusicState {music : Byte} {rest : List Pbuf} (here : t.pc = .setMusicState music rest) :
      TcpStep t (.setMusicState music) { t with pc := .next rest, musicState := music }
  | deleteForReply (here : t.pc = .deleteForReply) : TcpStep t .delete { t with pc := .recvReply }
  | delete (here : t.pc = .delete) : TcpStep t .delete { t with pc := .recv }
  | readPort (garbage : ℕ → Byte) {buf : Netbuf} (here : t.pc = .readReply buf)
      (port : (netbufCopy buf garbage 10).1 0 ≠ charX) :
      TcpStep t (.readReply garbage)
        { t with pc := .malloc (decodePort (netbufCopy buf garbage 10).1) buf.next }
  | readX (garbage : ℕ → Byte) {buf : Netbuf} (here : t.pc = .readReply buf)
      (back : (netbufCopy buf garbage 10).1 0 = charX) :
      TcpStep t (.readReply garbage) (tcpMainMenu t buf.next)
  | malloc {newPort : Port} {rest : List Pbuf} (block : PortBlock)
      (here : t.pc = .malloc newPort rest) (stored : block.port = newPort) :
      TcpStep t (.malloc block) { t with pc := .send block 100 rest }
  | sent {block : PortBlock} {ticks : ℕ} {rest : List Pbuf} (here : t.pc = .send block ticks rest) :
      TcpStep t (.send block true) (tcpMainMenu t rest)
  | timeout {block : PortBlock} {rest : List Pbuf} (here : t.pc = .send block 0 rest) :
      TcpStep t (.send block false) (tcpMainMenu t rest)
  | tick {block : PortBlock} {ticks : ℕ} {rest : List Pbuf}
      (here : t.pc = .send block (ticks + 1) rest) :
      TcpStep t .tick { t with pc := .send block ticks rest }
  | status {rest : List Pbuf} (values : UdpVal) (here : t.pc = .receiveStatus rest) :
      TcpStep t (.status values)
        { t with pc := .write (tcpPrintUdpStatus values) (.freeStatus rest) }
  | freeStatus {rest : List Pbuf} (here : t.pc = .freeStatus rest) :
      TcpStep t .freeStatus { t with pc := .next rest }
  | last (here : t.pc = .next []) : TcpStep t .next { t with pc := .delete }
  | next {p : Pbuf} {rest : List Pbuf} (here : t.pc = .next (p :: rest)) :
      TcpStep t .next { t with pc := .dispatch p rest }
  | close (here : t.pc = .close) : TcpStep t .close { t with pc := .deleteConn }
  | deleteConn (here : t.pc = .deleteConn) : TcpStep t .deleteConn { t with pc := .accept }

theorem tcpThread_eq_some_iff {t v : TcpThread} {label : TcpLabel} :
    tcpThread t label = some v ↔ TcpStep t label v := by
  constructor
  · intro success
    cases label with
    | listen ok =>
      simp only [tcpThread] at success
      split at success
      · next here => cases success; exact .listen ok here
      · contradiction
    | accept ok =>
      simp only [tcpThread] at success
      split at success
      · next here =>
        cases ok with
        | true => cases success; exact .accept here
        | false => cases success; exact .refused here
      · contradiction
    | clearBits =>
      simp only [tcpThread] at success
      split at success
      · next k here => cases success; exact .clearBits here
      · contradiction
    | setBits =>
      simp only [tcpThread] at success
      split at success
      · next rest here => cases success; exact .setBits here
      · contradiction
    | write menu =>
      simp only [tcpThread] at success
      split at success
      · next chunk chunks k here =>
        by_cases same : menu = chunk.menu
        · rw [if_pos same] at success
          subst same; cases success; exact .write here
        · rw [if_neg same] at success; contradiction
      · contradiction
    | recv buf =>
      simp only [tcpThread] at success
      split at success
      · next here => cases success; exact .recv buf here
      · next here => cases success; exact .recvReply buf here
      · contradiction
    | recvErr =>
      simp only [tcpThread] at success
      split at success
      · next here => cases success; exact .recvErr here
      · next here => cases success; exact .replyErr here
      · contradiction
    | switch command =>
      simp only [tcpThread] at success
      split at success
      · next p rest here =>
        by_cases same : command = p.first
        · rw [if_pos same] at success
          subst same; cases success; exact .switch here
        · rw [if_neg same] at success; contradiction
      · contradiction
    | reg access =>
      simp only [tcpThread] at success
      split at success
      · next script music rest here =>
        obtain ⟨later, step, rfl⟩ := Option.map_eq_some_iff.mp success
        exact .reg here step
      · contradiction
    | setMusicState music =>
      simp only [tcpThread] at success
      split at success
      · next music' rest here =>
        split_ifs at success with same
        subst same; cases success; exact .setMusicState here
      · contradiction
    | delete =>
      simp only [tcpThread] at success
      split at success
      · next here => cases success; exact .deleteForReply here
      · next here => cases success; exact .delete here
      · contradiction
    | readReply garbage =>
      simp only [tcpThread] at success
      split at success
      · next buf here =>
        split_ifs at success with back
        · cases success; exact .readPort garbage here back
        · cases success; exact .readX garbage here (not_not.mp back)
      · contradiction
    | malloc block =>
      simp only [tcpThread] at success
      split at success
      · next newPort rest here =>
        split_ifs at success with stored
        cases success; exact .malloc block here stored
      · contradiction
    | send block ok =>
      simp only [tcpThread] at success
      split at success
      · next block' ticks rest here =>
        split_ifs at success with same
        obtain ⟨rfl, expired⟩ := same
        cases success
        cases ok with
        | true => exact .sent here
        | false =>
          obtain rfl : ticks = 0 := by simpa using expired
          exact .timeout here
      · contradiction
    | tick =>
      simp only [tcpThread] at success
      split at success
      · next block ticks rest here => cases success; exact .tick here
      · contradiction
    | status values =>
      simp only [tcpThread] at success
      split at success
      · next rest here => cases success; exact .status values here
      · contradiction
    | freeStatus =>
      simp only [tcpThread] at success
      split at success
      · next rest here => cases success; exact .freeStatus here
      · contradiction
    | next =>
      simp only [tcpThread] at success
      split at success
      · next here => cases success; exact .last here
      · next p rest here => cases success; exact .next here
      · contradiction
    | close =>
      simp only [tcpThread] at success
      split at success
      · next here => cases success; exact .close here
      · contradiction
    | deleteConn =>
      simp only [tcpThread] at success
      split at success
      · next here => cases success; exact .deleteConn here
      · contradiction
  · intro step
    cases step <;> simp_all [tcpThread]

end WirelessSpeakers.Model
