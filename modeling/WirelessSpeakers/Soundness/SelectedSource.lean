import WirelessSpeakers.Soundness.PortQueue

/-! # Whose datagrams are played

The connection is one object for all ports. `netconn_close` leaves its mailbox and its local port as
they are, and the result of `netconn_bind` is not looked at, so what is copied comes from the selected
port only as long as each bind finds the mailbox free of other datagrams and moves the local port, or
finds it there.
-/

namespace WirelessSpeakers.Soundness

open Model TapeMachine

variable {env : Environment} {s t : System}

/-- The bind finds nothing in the mailbox but datagrams for its port, and the connection is bound to no
other port behind it. -/
structure CleanBind (conn : UdpConn) (port : Port) (ok : Bool) : Prop where
  mailbox : ∀ d ∈ conn.mailbox, d.port = port
  localPort : ok = true ∨ conn.localPort = none ∨ conn.localPort = some port

instance (conn : UdpConn) (port : Port) (ok : Bool) : Decidable (CleanBind conn port ok) :=
  decidable_of_iff ((∀ d ∈ conn.mailbox, d.port = port) ∧
      (ok = true ∨ conn.localPort = none ∨ conn.localPort = some port))
    ⟨fun both => ⟨both.1, both.2⟩, fun clean => ⟨clean.mailbox, clean.localPort⟩⟩

/-- The positions between a bind and the close before the next one. -/
def bound : UdpPc → Bool
  | .audioConfig _ | .recv | .testFlag _ | .copy _ _ _ | .failed _ | .send _ | .setFlag _ | .reset
  | .delete | .poll => true
  | _ => false

/-- The datagram being handled, until it is copied. -/
def inHand : UdpPc → Option Datagram
  | .testFlag d | .copy _ d _ => some d
  | _ => none

/-- Everything that the connection holds or lets in is for the port of the thread. -/
structure Selected (s : System) : Prop where
  mailbox : bound s.udp.pc = true → ∀ d ∈ s.world.conn.mailbox, d.port = s.udp.port
  localPort : bound s.udp.pc = true →
    s.world.conn.localPort = none ∨ s.world.conn.localPort = some s.udp.port
  handled : ∀ d, inHand s.udp.pc = some d → d.port = s.udp.port

/-- A step that changes neither the connection nor the port, and begins no handling. -/
private theorem Selected.moves (held : Selected s) (port : t.udp.port = s.udp.port)
    (conn : t.world.conn = s.world.conn) (position : bound t.udp.pc = true → bound s.udp.pc = true)
    (handling : ∀ d, inHand t.udp.pc = some d → inHand s.udp.pc = some d) : Selected t := by
  constructor
  · intro here
    rw [conn, port]
    exact held.mailbox (position here)
  · intro here
    rw [conn, port]
    exact held.localPort (position here)
  · intro d here
    rw [port]
    exact held.handled d (handling d here)

private theorem selected_udp {label : UdpLabel} {udp : UdpThread} {world : World}
    (held : Selected s) (thread : UdpStep env s.udp label udp)
    (shared : s.world.udp env label = some world)
    (clean : ∀ port ok, label = .bind port ok → CleanBind s.world.conn port ok) :
    Selected { s with udp, world } := by
  have frame := (World.udp_frame shared).conn
  cases thread with
  | bind ok here valid =>
    obtain ⟨mail, bound⟩ := clean _ _ rfl
    cases ok with
    | true =>
      cases shared
      exact ⟨fun _ => mail, fun _ => .inr rfl, by simp [inHand]⟩
    | false =>
      cases shared
      exact ⟨fun _ => mail, fun _ => bound.resolve_left (by decide), by simp [inHand]⟩
  | recv d here =>
    obtain ⟨rest, waiting, rfl⟩ := World.udp_recv.mp shared
    have all := held.mailbox (by rw [here]; rfl)
    rw [waiting] at all
    refine ⟨fun _ other member => all other (List.mem_cons_of_mem d member), ?_, ?_⟩
    · exact fun _ => held.localPort (by rw [here]; rfl)
    · rintro other same
      cases same
      exact all d List.mem_cons_self
  | usePort here => exact ⟨by simp [bound], by simp [bound], by simp [inHand]⟩
  | checkPort here =>
    refine held.moves rfl (frame (by simp) (by simp)) ?_ ?_ <;> dsimp only <;> split_ifs <;>
      simp [bound, inHand]
  | reg here step =>
    refine held.moves rfl (frame (by simp) (by simp)) (fun _ => by rw [here]; rfl) ?_
    dsimp only
    split_ifs <;> simp [inHand]
  | copied here ended =>
    refine held.moves rfl (frame (by simp) (by simp)) (fun _ => by rw [here]; rfl) ?_
    dsimp only
    split_ifs <;> simp [inHand]
  | new ok here | free here | invalidConn here invalid | recvErr here | readFlag flag here
  | memcpy here iteration | failed here | send ok here | setFlag here | reset here | delete here
  | pollEmpty here | pollTaken block here | close here =>
    exact held.moves rfl (frame (by simp) (by simp)) (by simp [bound, here]) (by simp [inHand, here])

/-- What arrives behind a clean bind is for the bound port. -/
private theorem selected_arrive (held : Selected s) (d : Datagram) :
    Selected { s with world := s.world.arrive d } := by
  refine ⟨fun here => ?_, fun here => ?_, held.handled⟩
  · simp only [World.arrive, UdpConn.udpInput]
    split_ifs with addressed
    · intro other member
      rcases List.mem_append.mp member with old | new
      · exact held.mailbox here other old
      · obtain rfl := List.mem_singleton.mp new
        have known := held.localPort here
        rw [addressed] at known
        exact Option.some.inj (known.resolve_left (by simp))
    · exact held.mailbox here
  · simp only [World.arrive, UdpConn.udpInput]
    split_ifs <;> exact held.localPort here

private theorem selected_step {e : Event} (held : Selected s)
    (step : System.Step env s e t)
    (clean : ∀ port ok, e = .udp (.bind port ok) → CleanBind s.world.conn port ok) : Selected t := by
  cases step with
  | udp thread shared =>
    exact selected_udp held thread shared fun port ok same => clean port ok (congrArg _ same)
  | tcp thread shared =>
    exact held.moves rfl (World.tcp_frame shared).conn id fun _ => id
  | arrive d => exact selected_arrive held d
  | udpInit here => exact ⟨by simp [bound], by simp [bound], by simp [inHand]⟩
  | post shared =>
    obtain ⟨_, _, _, rfl⟩ := World.post_eq.mp shared
    exact held.moves rfl rfl id fun _ => id
  | tcpInit here | pit0 => exact held.moves rfl rfl id fun _ => id

/-- Every bind that the run takes is clean. -/
def BindsCleanly (env : Environment) (tape : List Event) : Prop :=
  ∀ s port ok, (program env).Takes tape s (.udp (.bind port ok)) → CleanBind s.world.conn port ok

/-- Every datagram that the run copies was addressed to the port held in `port` at that time. -/
def PlaysSelected (env : Environment) (tape : List Event) : Prop :=
  ∀ s b d loop, (program env).Visits tape s → s.udp.pc = .copy b d loop → d.port = s.udp.port

/-- In a run whose binds are clean, only the selected source is played. -/
theorem playsSelected_of_bindsCleanly {tape : List Event} (clean : BindsCleanly env tape) :
    PlaysSelected env tape := by
  intro s b d loop visit here
  have selected : Selected s := by
    refine along (m := program env) ⟨by simp [program, bound], by simp [program, bound],
      by simp [program, inHand]⟩ ?_ visit
    intro s e t held taken step
    apply selected_step held (System.step_eq_some_iff.mp step)
    rintro port ok rfl
    exact clean s port ok taken
  exact selected.handled d (by rw [here]; rfl)

/-- `BindsCleanly`, as a test of one step. -/
def testBind (s : System) : Event → Bool
  | .udp (.bind port ok) => CleanBind s.world.conn port ok
  | _ => true

/-- A datagram of the default port is played, then one of port 50001 behind the switch to it. -/
def switched : List Event :=
  apply50001 ++ [.udp (.bind 50001 true)] ++ audioConfigTape 60000000 3 ++
    [.arrive { oneSample with port := 50001 }, .udp (.recv { oneSample with port := 50001 }), .udp (.readFlag true)]

theorem playsSelected_switched : PlaysSelected board switched ∧
    ∃ s d loop, (program board).run switched = some s ∧ s.udp.pc = .copy .buffer2 d loop ∧
      s.udp.port = 50001 := by
  refine ⟨playsSelected_of_bindsCleanly fun s port ok taken => ?_, _, _, _, rfl, rfl, rfl⟩
  have tested : testBind s (.udp (.bind port ok)) = true := taken.test rfl
  exact of_decide_eq_true tested

/-- A second datagram of the default port waits in the mailbox while the thread switches to port 50001
and binds it. -/
def leftover : List Event :=
  select50001 ++ [.arrive oneSample] ++ apply50001.drop select50001.length ++ [.udp (.bind 50001 true)] ++
    audioConfigTape 60000000 3 ++ [.udp (.recv oneSample), .udp (.readFlag true)]

theorem not_playsSelected : ¬ ∀ env tape, PlaysSelected env tape := by
  intro plays
  have ran : ∃ s b loop, (program board).run leftover = some s ∧
      s.udp.pc = .copy b oneSample loop ∧ s.udp.port = 50001 := ⟨_, _, _, rfl, rfl, rfl⟩
  obtain ⟨s, b, loop, ran, here, port⟩ := ran
  have same := plays board leftover s b oneSample loop (visits_of_run ran) here
  rw [port] at same
  exact absurd same (by decide)

end WirelessSpeakers.Soundness
