import WirelessSpeakers.Machine.Tape
import WirelessSpeakers.Model.World

/-! # The whole program

`main` creates the queues and starts `stack_init`, which starts the two application threads and
deletes itself. From then on the threads, the playback interrupt and the network interleave freely:
one event is one statement of a thread, one run of `PIT0_IRQHandler`, the arrival of a datagram, or,
where such a task exists, a status block posted by it.
-/

namespace WirelessSpeakers.Model

/-- Where `stack_init` is. -/
inductive StackInit where
  | udpInit
  | tcpInit
  | deleted
deriving DecidableEq, Repr

structure System where
  stackInit : StackInit := .udpInit
  udp : UdpThread := {}
  tcp : TcpThread := {}
  world : World := {}

inductive Event where
  | stackInit
  | udp (label : UdpLabel)
  | tcp (label : TcpLabel)
  | pit0
  | arrive (d : Datagram)
  | post (values : UdpVal)

namespace System

/-- `UDP_init`, then `TCP_init`, then `vTaskDelete(NULL)`. -/
def stackInitStep (s : System) : Option System :=
  match s.stackInit with
  | .udpInit => some { s with stackInit := .tcpInit, udp := { s.udp with pc := .start } }
  | .tcpInit => some { s with stackInit := .deleted, tcp := { s.tcp with pc := .start } }
  | .deleted => none

def step (env : Environment) (s : System) : Event → Option System
  | .stackInit => s.stackInitStep
  | .udp label => do
    let udp ← udpThread env s.udp label
    let world ← s.world.udp env label
    return { s with udp, world }
  | .tcp label => do
    let tcp ← tcpThread s.tcp label
    let world ← s.world.tcp label
    return { s with tcp, world }
  | .pit0 => some { s with world := s.world.pit0 }
  | .arrive d => some { s with world := s.world.arrive d }
  | .post values => (s.world.post env values).map fun world => { s with world }

end System

/-- The program in its environment, from the start of the scheduler. -/
def program (env : Environment) : TapeMachine System Event where
  init := {}
  step := System.step env

namespace System

/-- The steps of the program as a relation, for case analysis. -/
inductive Step (env : Environment) (s : System) : Event → System → Prop
  | udpInit (here : s.stackInit = .udpInit) :
      Step env s .stackInit { s with stackInit := .tcpInit, udp := { s.udp with pc := .start } }
  | tcpInit (here : s.stackInit = .tcpInit) :
      Step env s .stackInit { s with stackInit := .deleted, tcp := { s.tcp with pc := .start } }
  | udp {label : UdpLabel} {udp : UdpThread} {world : World} (thread : UdpStep env s.udp label udp)
      (shared : s.world.udp env label = some world) :
      Step env s (.udp label) { s with udp, world }
  | tcp {label : TcpLabel} {tcp : TcpThread} {world : World} (thread : TcpStep s.tcp label tcp)
      (shared : s.world.tcp label = some world) :
      Step env s (.tcp label) { s with tcp, world }
  | pit0 : Step env s .pit0 { s with world := s.world.pit0 }
  | arrive (d : Datagram) : Step env s (.arrive d) { s with world := s.world.arrive d }
  | post {values : UdpVal} {world : World} (shared : s.world.post env values = some world) :
      Step env s (.post values) { s with world }

variable {env : Environment} {s t : System}

theorem step_eq_some_iff {e : Event} : (program env).step s e = some t ↔ Step env s e t := by
  constructor
  · intro success
    cases e with
    | stackInit =>
      simp only [program, step, stackInitStep] at success
      split at success
      · next here => cases success; exact .udpInit here
      · next here => cases success; exact .tcpInit here
      · contradiction
    | udp label =>
      simp only [program, step, Option.bind_eq_bind, Option.bind_eq_some_iff, Option.pure_def,
        Option.some.injEq] at success
      obtain ⟨udp, thread, world, shared, rfl⟩ := success
      exact .udp (udpThread_eq_some_iff.mp thread) shared
    | tcp label =>
      simp only [program, step, Option.bind_eq_bind, Option.bind_eq_some_iff, Option.pure_def,
        Option.some.injEq] at success
      obtain ⟨tcp, thread, world, shared, rfl⟩ := success
      exact .tcp (tcpThread_eq_some_iff.mp thread) shared
    | pit0 =>
      cases success
      exact .pit0
    | arrive d =>
      cases success
      exact .arrive d
    | post values =>
      obtain ⟨world, shared, rfl⟩ := Option.map_eq_some_iff.mp success
      exact .post shared
  · intro step
    cases step with
    | udpInit here => simp only [program, System.step, stackInitStep, here]
    | tcpInit here => simp only [program, System.step, stackInitStep, here]
    | udp thread shared =>
      simp only [program, System.step, udpThread_eq_some_iff.mpr thread, shared]
      rfl
    | tcp thread shared =>
      simp only [program, System.step, tcpThread_eq_some_iff.mpr thread, shared]
      rfl
    | pit0 => rfl
    | arrive d => rfl
    | post shared => simp only [program, System.step, shared, Option.map_some]

/-- A step of `UDP_thread` whose exchanged value the shared objects confirm. -/
theorem step_udp {label : UdpLabel} {udp : UdpThread} {world : World}
    (thread : UdpStep env s.udp label udp) (shared : s.world.udp env label = some world) :
    (program env).step s (.udp label) = some { s with udp, world } :=
  step_eq_some_iff.mpr (.udp thread shared)

/-- A thread that `stack_init` has not started yet has not moved. -/
structure Unstarted (s : System) : Prop where
  udp : s.stackInit = .udpInit → s.udp = {}
  tcp : s.stackInit ≠ .deleted → s.tcp = {}

theorem unstarted_of_reachable (reachable : (program env).Reachable s) : Unstarted s := by
  refine TapeMachine.invariant (m := program env) ⟨fun _ => rfl, fun _ => rfl⟩ ?_ reachable
  intro s e t _ held step
  cases step_eq_some_iff.mp step with
  | udpInit here => exact ⟨fun now => by contradiction, fun _ => held.tcp (by rw [here]; decide)⟩
  | tcpInit here => exact ⟨fun now => by contradiction, fun now => absurd rfl now⟩
  | udp thread shared =>
    refine ⟨fun now => ?_, held.tcp⟩
    have absent : s.udp.pc = .absent := by rw [held.udp now]
    cases thread <;> simp_all
  | tcp thread shared =>
    refine ⟨held.udp, fun now => ?_⟩
    have absent : s.tcp.pc = .absent := by rw [held.tcp now]
    cases thread <;> simp_all
  | pit0 | arrive | post => exact ⟨held.udp, held.tcp⟩

end System

/-- The accesses of an undisturbed `AudioConfig` that finds `tctrl` in both control registers. -/
def audioConfigTape (busClock : ℕ) (tctrl : BitVec 32) : List Event :=
  let enabled := tctrl ||| tieMask
  let started := enabled ||| tenMask
  ([.whole .dacConfig, .whole .pitInit,
    .whole (.setTimerPeriod .chnl0 (usecToCount 45 busClock)),
    .load .chnl0 tctrl, .store .chnl0 .enableInterrupts enabled,
    .load .chnl0 enabled, .store .chnl0 .startTimer started,
    .whole .pitInit, .whole (.setTimerPeriod .chnl1 (msecToCount 1000 busClock)),
    .load .chnl1 tctrl, .store .chnl1 .enableInterrupts enabled,
    .load .chnl1 enabled, .store .chnl1 .startTimer started] : List Access).map
      fun access => .udp (.reg access)

/-- From the start of the scheduler to the first `netconn_recv` of `UDP_thread`. The read through the null
pointer returns zero here, so the default port is bound. -/
def bootTape (busClock : ℕ) : List Event :=
  [.stackInit, .udp (.new true), .udp (.readPort 0), .udp (.bind 50007 true)] ++
    audioConfigTape busClock 0

/-- The control thread starts, and a client connects and is shown the main menu. -/
def connectTape : List Event :=
  [.stackInit, .tcp (.listen true), .tcp (.accept true), .tcp .clearBits, .tcp (.write .mainMenu),
    .tcp (.write .mainMenu)]

/-- One pbuf with one character of the client. -/
def keystroke (command : Byte) : Netbuf := ⟨⟨[command], 0⟩, []⟩

/-- What a client types into the port selector. -/
def portReply (digits : List Byte) : Netbuf := ⟨⟨digits, 0⟩, []⟩

/-- The client selects a port: the command, the prompt, the reply, the attempt to send the block, and
the main menu again. -/
def selectTape (reply : Netbuf) (block : PortBlock) (attempt : List Event) : List Event :=
  [.tcp (.recv (keystroke char2)), .tcp (.switch char2), .tcp (.write .portSelector),
    .tcp (.write .portSelector), .tcp .delete, .tcp (.recv reply), .tcp (.readReply fun _ => 0),
    .tcp (.malloc block)] ++ attempt ++
    [.tcp .clearBits, .tcp (.write .mainMenu), .tcp (.write .mainMenu), .tcp .next, .tcp .delete]

/-- A datagram of one sample for the default port. -/
def oneSample : Datagram := ⟨⟨⟨[0x10, 0x00], 0⟩, []⟩, 50007, by decide⟩

/-- It arrives, is received as the `n`-th one and handled up to the poll of the queue. -/
def datagramTape (n : ℕ) (flag : Bool) : List Event :=
  [.arrive oneSample, .udp (.recv oneSample), .udp (.readFlag flag),
    .udp (.memcpy (if flag = false then .buffer1 else .buffer2) 0 [⟨0x10, some n⟩, ⟨0x00, some n⟩]),
    .udp (.copied 2), .udp (.send true), .udp (.setFlag !flag), .udp .clearIndex, .udp .delete]

/-- The board at its 60 MHz bus clock, where address zero reads as zero and nothing but the program
runs. -/
def board : Environment := ⟨60000000, 0, false, false⟩

/-- The run of `bootTape` ends at `netconn_recv`, on the default port. -/
example : ((program board).run (bootTape 60000000)).map (fun s => (s.udp.pc, s.world.conn.localPort)) =
    some (.recv, some 50007) := by rfl

end WirelessSpeakers.Model
