import WirelessSpeakers.Soundness.PortBlocks

/-! # When a pending selection can be applied

`UDP_thread` looks into `port_selection` once behind each datagram. From inside the handling of a
datagram, or with one in the mailbox, it reaches the bind of a pending selection on its own. Where the
mailbox is empty and the next poll lies behind `netconn_recv`, no step but an arrival brings it any
further.
-/

namespace WirelessSpeakers.Soundness

open Model TapeMachine BoundedQueue

variable {env : Environment} {s t : System} {b : PortBlock}

/-- Any step but the arrival of a datagram. -/
def NoArrival (e : Event) : Prop := ∀ d, e ≠ .arrive d

/-- `UDP_thread` has taken the selection and is about to bind its port. -/
def Binds (b : PortBlock) (t : System) : Prop :=
  t.udp.pc = .bind ∧ t.udp.receivedPort = some b ∧ t.udp.port = b.port

/-- Without a further datagram, the thread can take the selection and bind its port. -/
def Appliable (env : Environment) (b : PortBlock) (s : System) : Prop :=
  ∃ t, (program env).Within NoArrival s t ∧ Binds b t

/-- `UDP_thread` has to pass `netconn_recv` before it polls the queue. -/
def awaitsDatagram (u : UdpThread) : Bool :=
  match u.pc with
  | .testFlag _ | .copy _ _ _ | .failed _ | .send _ | .setFlag _ | .reset | .delete | .poll => false
  | _ => true

/-- One step of `UDP_thread` towards the bind. -/
private theorem Appliable.after {label : UdpLabel} {udp : UdpThread} {world : World}
    (thread : UdpStep env s.udp label udp) (shared : s.world.udp env label = some world)
    (rest : Appliable env b { s with udp, world }) : Appliable env b s := by
  obtain ⟨t, path, binds⟩ := rest
  exact ⟨t, path.head (fun d => by simp) (System.step_udp thread shared), binds⟩

/-- The poll finds the selection, and the thread goes through to the bind. -/
private theorem appliable_poll (nonzero : b.port ≠ 0) (here : s.udp.pc = .poll)
    (held : s.world.portSelection.items = [b]) : Appliable env b s := by
  have received : s.world.portSelection.receive? = some (b, .empty) :=
    receive?_eq_some_iff.mpr held
  refine .after (.pollTaken b here) (World.udp_pollTaken.mpr ⟨_, received, rfl⟩) ?_
  refine .after (.close rfl) rfl ?_
  refine .after (.checkPort rfl) rfl ?_
  refine .after (.usePort (if_pos nonzero)) rfl ?_
  refine .after (.free rfl) rfl ?_
  exact ⟨_, .refl _, rfl, rfl, rfl⟩

private theorem appliable_delete (nonzero : b.port ≠ 0) (here : s.udp.pc = .delete)
    (held : s.world.portSelection.items = [b]) : Appliable env b s :=
  .after (.delete here) rfl (appliable_poll nonzero rfl held)

private theorem appliable_reset (nonzero : b.port ≠ 0) (here : s.udp.pc = .reset)
    (held : s.world.portSelection.items = [b]) : Appliable env b s :=
  .after (.reset here) rfl (appliable_delete nonzero rfl held)

private theorem appliable_setFlag {filled : Buffer} (nonzero : b.port ≠ 0)
    (here : s.udp.pc = .setFlag filled) (held : s.world.portSelection.items = [b]) :
    Appliable env b s :=
  .after (.setFlag here) rfl (appliable_reset nonzero rfl held)

private theorem appliable_send {filled : Buffer} (nonzero : b.port ≠ 0)
    (here : s.udp.pc = .send filled) (held : s.world.portSelection.items = [b]) :
    Appliable env b s :=
  .after (.send true here) rfl (appliable_setFlag nonzero rfl held)

private theorem appliable_failed {filled : Buffer} (nonzero : b.port ≠ 0)
    (here : s.udp.pc = .failed filled) (held : s.world.portSelection.items = [b]) :
    Appliable env b s :=
  .after (.failed here) rfl (appliable_setFlag nonzero rfl held)

/-- The copy loop takes one pbuf off the chain at each iteration, and ends. -/
private theorem appliable_copy {filled : Buffer} {d : Datagram} {loop : CopyLoop}
    (nonzero : b.port ≠ 0) (here : s.udp.pc = .copy filled d loop)
    (held : s.world.portSelection.items = [b]) : Appliable env b s := by
  induction left : loop.p.length using Nat.strong_induction_on generalizing s loop with
  | _ count ih =>
    cases iteration : loop.next? with
    | none =>
      refine .after (.copied here iteration) rfl ?_
      by_cases whole : loop.copiedTotal = d.buf.totLen
      · exact appliable_send nonzero (if_neg (not_not.mpr whole)) held
      · exact appliable_failed nonzero (if_pos whole) held
    | some pair =>
      obtain ⟨next, bytes⟩ := pair
      have shorter := CopyLoop.next?_length iteration
      exact .after (.memcpy here iteration) rfl (ih next.p.length (by omega) rfl held rfl)

private theorem appliable_testFlag {d : Datagram} (nonzero : b.port ≠ 0)
    (here : s.udp.pc = .testFlag d) (held : s.world.portSelection.items = [b]) :
    Appliable env b s :=
  .after (.readFlag _ here) (World.udp_readFlag.mpr ⟨rfl, rfl⟩) (appliable_copy nonzero rfl held)

/-- Inside the handling of a datagram, the poll is ahead. -/
private theorem appliable_of_handling (nonzero : b.port ≠ 0) (handling : awaitsDatagram s.udp = false)
    (held : s.world.portSelection.items = [b]) : Appliable env b s := by
  cases here : s.udp.pc with
  | testFlag d => exact appliable_testFlag nonzero here held
  | copy filled d loop => exact appliable_copy nonzero here held
  | failed filled => exact appliable_failed nonzero here held
  | send filled => exact appliable_send nonzero here held
  | setFlag filled => exact appliable_setFlag nonzero here held
  | reset => exact appliable_reset nonzero here held
  | delete => exact appliable_delete nonzero here held
  | poll => exact appliable_poll nonzero here held
  | _ => simp [awaitsDatagram, here] at handling

private theorem appliable_recv (nonzero : b.port ≠ 0) (here : s.udp.pc = .recv)
    (waiting : s.world.conn.mailbox ≠ []) (held : s.world.portSelection.items = [b]) :
    Appliable env b s := by
  obtain ⟨d, rest, mailbox⟩ := List.exists_cons_of_ne_nil waiting
  exact .after (.recv d here) (World.udp_recv.mpr ⟨rest, mailbox, rfl⟩)
    (appliable_testFlag nonzero rfl held)

private theorem appliable_audioConfig {script : Script} (nonzero : b.port ≠ 0)
    (here : s.udp.pc = .audioConfig script) (unfinished : script.ops ≠ [])
    (waiting : s.world.conn.mailbox ≠ []) (held : s.world.portSelection.items = [b]) :
    Appliable env b s := by
  induction left : script.weight using Nat.strong_induction_on generalizing s script with
  | _ weight ih =>
    obtain ⟨access, rest, regs, step, success, lighter⟩ :=
      Script.enabled unfinished s.world.regs
    refine .after (.reg here step) (congrArg (Option.map _) success) ?_
    by_cases done : rest.ops = []
    · exact appliable_recv nonzero (if_pos done) waiting held
    · exact ih _ (left ▸ lighter) (if_neg done) done waiting held rfl

private theorem appliable_bind (nonzero : b.port ≠ 0) (here : s.udp.pc = .bind)
    (valid : s.udp.conn = true) (waiting : s.world.conn.mailbox ≠ [])
    (held : s.world.portSelection.items = [b]) : Appliable env b s :=
  .after (.bind false here valid) rfl
    (appliable_audioConfig nonzero rfl (List.cons_ne_nil _ _) waiting held)

private theorem appliable_freePort (nonzero : b.port ≠ 0) (here : s.udp.pc = .freePort)
    (valid : s.udp.conn = true) (waiting : s.world.conn.mailbox ≠ [])
    (held : s.world.portSelection.items = [b]) : Appliable env b s :=
  .after (.free here) rfl (appliable_bind nonzero rfl valid waiting held)

private theorem appliable_usePort (nonzero : b.port ≠ 0) (here : s.udp.pc = .usePort)
    (valid : s.udp.conn = true) (waiting : s.world.conn.mailbox ≠ [])
    (held : s.world.portSelection.items = [b]) : Appliable env b s :=
  .after (.usePort here) rfl (appliable_freePort nonzero rfl valid waiting held)

private theorem appliable_checkPort (nonzero : b.port ≠ 0) (here : s.udp.pc = .checkPort)
    (valid : s.udp.conn = true) (waiting : s.world.conn.mailbox ≠ [])
    (held : s.world.portSelection.items = [b]) : Appliable env b s := by
  refine .after (.checkPort here) rfl ?_
  by_cases selected : s.udp.portValue env ≠ 0
  · exact appliable_usePort nonzero (if_pos selected) valid waiting held
  · exact appliable_bind nonzero (if_neg selected) valid waiting held

private theorem appliable_close (nonzero : b.port ≠ 0) (here : s.udp.pc = .close)
    (valid : s.udp.conn = true) (waiting : s.world.conn.mailbox ≠ [])
    (held : s.world.portSelection.items = [b]) : Appliable env b s :=
  .after (.close here) rfl (appliable_checkPort nonzero rfl valid waiting held)

/-- The positions of the thread before its connection has been bound. -/
def beforeBind : UdpPc → Bool
  | .absent | .start | .checkPort | .usePort | .freePort | .bind | .returned => true
  | _ => false

/-- Without a connection the thread does not get past the bind, and nothing arrives. -/
structure Connected (s : System) : Prop where
  script : ∀ script, s.udp.pc = .audioConfig script → script.ops ≠ []
  conn : s.udp.conn = false → beforeBind s.udp.pc = true ∧ s.world.conn = {}
  unborn : s.udp.pc = .absent ∨ s.udp.pc = .start ∨ s.udp.pc = .returned → s.udp.conn = false

private theorem connected_udp {label : UdpLabel} {udp : UdpThread} {world : World}
    (held : Connected s) (thread : UdpStep env s.udp label udp)
    (shared : s.world.udp env label = some world) : Connected { s with udp, world } := by
  have frame := (World.udp_frame shared).conn
  cases thread with
  | new ok here =>
    have unconnected := held.conn (held.unborn (.inr (.inl here)))
    exact ⟨by simp, fun _ => ⟨rfl, (frame (by simp) (by simp)).trans unconnected.2⟩, by simp⟩
  | checkPort here =>
    refine ⟨?_, fun invalid => ⟨?_, (frame (by simp) (by simp)).trans (held.conn invalid).2⟩, ?_⟩
    · split_ifs <;> simp
    · dsimp only
      split_ifs <;> rfl
    · split_ifs <;> simp
  | usePort here | free here =>
    exact ⟨by simp, fun invalid => ⟨rfl, (frame (by simp) (by simp)).trans (held.conn invalid).2⟩,
      by simp⟩
  | bind ok here valid =>
    refine ⟨?_, fun invalid => absurd (valid.symm.trans invalid) (by decide), by simp⟩
    rintro script now
    cases now
    exact List.cons_ne_nil _ _
  | invalidConn here invalid =>
    exact ⟨by simp, fun _ => ⟨rfl, (frame (by simp) (by simp)).trans (held.conn invalid).2⟩,
      fun _ => invalid⟩
  | reg here step =>
    refine ⟨?_, fun invalid => absurd (held.conn invalid).1 (by simp [beforeBind, here]), ?_⟩
    · intro script now
      dsimp only at now
      split_ifs at now with done
      cases now
      exact done
    · dsimp only
      split_ifs <;> simp
  | copied here ended =>
    refine ⟨?_, fun invalid => absurd (held.conn invalid).1 (by simp [beforeBind, here]), ?_⟩ <;>
      dsimp only <;> split_ifs <;> simp
  | recv d here | recvErr here | readFlag flag here | memcpy here iteration | failed here
  | send ok here | setFlag here | reset here | delete here | pollEmpty here | pollTaken block here
  | close here =>
    exact ⟨by simp, fun invalid => absurd (held.conn invalid).1 (by simp [beforeBind, here]), by simp⟩

theorem connected_of_reachable (reachable : (program env).Reachable s) : Connected s := by
  refine invariant (m := program env) ⟨by simp [program], fun _ => ⟨rfl, rfl⟩, fun _ => rfl⟩ ?_
    reachable
  intro s e t before held step
  cases System.step_eq_some_iff.mp step with
  | udp thread shared => exact connected_udp held thread shared
  | @tcp label tcp world thread shared =>
    refine ⟨held.script, fun invalid => ⟨(held.conn invalid).1, ?_⟩, held.unborn⟩
    exact (World.tcp_frame shared).conn.trans (held.conn invalid).2
  | udpInit here =>
    have same := (System.unstarted_of_reachable before).udp here
    refine ⟨by simp, fun invalid => ⟨rfl, (held.conn invalid).2⟩, fun _ => ?_⟩
    exact held.unborn (.inl (by rw [same]))
  | arrive d =>
    refine ⟨held.script, fun invalid => ⟨(held.conn invalid).1, ?_⟩, held.unborn⟩
    simp [World.arrive, UdpConn.udpInput, (held.conn invalid).2]
  | post shared =>
    obtain ⟨_, _, _, rfl⟩ := World.post_eq.mp shared
    exact ⟨held.script, held.conn, held.unborn⟩
  | tcpInit here | pit0 => exact ⟨held.script, held.conn, held.unborn⟩

/-- With a datagram in the mailbox, the thread gets to the poll as well. -/
theorem appliable_of_mailbox (reachable : (program env).Reachable s) (nonzero : b.port ≠ 0)
    (waiting : s.world.conn.mailbox ≠ []) (held : s.world.portSelection.items = [b]) :
    Appliable env b s := by
  have connected := connected_of_reachable reachable
  have valid : s.udp.conn = true := by
    by_contra invalid
    exact waiting (by rw [(connected.conn (Bool.eq_false_iff.mpr invalid)).2])
  have born : ¬ (s.udp.pc = .absent ∨ s.udp.pc = .start ∨ s.udp.pc = .returned) := by
    intro unborn
    rw [connected.unborn unborn] at valid
    contradiction
  cases here : s.udp.pc with
  | absent => exact absurd (.inl here) born
  | start => exact absurd (.inr (.inl here)) born
  | returned => exact absurd (.inr (.inr here)) born
  | checkPort => exact appliable_checkPort nonzero here valid waiting held
  | usePort => exact appliable_usePort nonzero here valid waiting held
  | freePort => exact appliable_freePort nonzero here valid waiting held
  | bind => exact appliable_bind nonzero here valid waiting held
  | audioConfig script =>
    exact appliable_audioConfig nonzero here (connected.script script here) waiting held
  | recv => exact appliable_recv nonzero here waiting held
  | close => exact appliable_close nonzero here valid waiting held
  | _ => exact appliable_of_handling nonzero (by simp [awaitsDatagram, here]) held

/-- Nothing in the mailbox, and the next poll behind `netconn_recv`. -/
structure Starved (received : Option PortBlock) (s : System) : Prop where
  mailbox : s.world.conn.mailbox = []
  awaits : awaitsDatagram s.udp = true
  received : s.udp.receivedPort = received

/-- No step but an arrival ends that. -/
private theorem starved_step {e : Event} {received : Option PortBlock} (blocking : env.recvErrors = false)
    (held : Starved received s) (none : NoArrival e) (step : System.Step env s e t) :
    Starved received t := by
  obtain ⟨mailbox, awaits, same⟩ := held
  cases step with
  | @udp label udp world thread shared =>
    have frame := (World.udp_frame shared).conn
    cases thread with
    | recv d here =>
      obtain ⟨rest, waiting, _⟩ := World.udp_recv.mp shared
      rw [mailbox] at waiting
      contradiction
    | recvErr here =>
      simp [World.udp, blocking] at shared
    | bind ok here valid =>
      refine ⟨?_, rfl, same⟩
      cases ok <;> (cases shared; exact mailbox)
    | checkPort here =>
      refine ⟨(congrArg _ (frame (by simp) (by simp))).trans mailbox, ?_, same⟩
      simp only [awaitsDatagram]
      split_ifs <;> rfl
    | reg here step =>
      refine ⟨(congrArg _ (frame (by simp) (by simp))).trans mailbox, ?_, same⟩
      simp only [awaitsDatagram]
      split_ifs <;> rfl
    | new ok here | usePort here | free here | invalidConn here invalid | close here =>
      exact ⟨(congrArg _ (frame (by simp) (by simp))).trans mailbox, rfl, same⟩
    | _ => simp_all [awaitsDatagram]
  | tcp thread shared =>
    exact ⟨(congrArg _ (World.tcp_frame shared).conn).trans mailbox, awaits, same⟩
  | arrive d => exact absurd rfl (none d)
  | udpInit here => exact ⟨mailbox, rfl, same⟩
  | post shared =>
    obtain ⟨_, _, _, rfl⟩ := World.post_eq.mp shared
    exact ⟨mailbox, awaits, same⟩
  | tcpInit here | pit0 => exact ⟨mailbox, awaits, same⟩

/-- A pending selection can be applied without a further datagram, except where the mailbox is empty
and the thread has to pass `netconn_recv` before it polls the queue. -/
theorem appliable_iff (blocking : env.recvErrors = false) (reachable : (program env).Reachable s)
    (held : s.world.portSelection.items = [b]) (nonzero : b.port ≠ 0) :
    Appliable env b s ↔ ¬ (s.world.conn.mailbox = [] ∧ awaitsDatagram s.udp = true) := by
  constructor
  · rintro ⟨t, path, _, received, _⟩ ⟨mailbox, awaits⟩
    have starved := path.confined (P := Starved s.udp.receivedPort)
      (fun s e t held none step => starved_step blocking held none (System.step_eq_some_iff.mp step))
      ⟨mailbox, awaits, rfl⟩
    obtain ⟨tape, ran⟩ := reachable
    refine (owned_of_run ran).received_ne ?_ (starved.received.symm.trans received)
    rw [held]
    exact List.mem_singleton_self b
  · intro possible
    by_cases waiting : s.world.conn.mailbox = []
    · refine appliable_of_handling nonzero ?_ held
      exact Bool.eq_false_iff.mpr fun awaits => possible ⟨waiting, awaits⟩
    · exact appliable_of_mailbox reachable nonzero waiting held

/-- One datagram on the default port suffices behind the selection of port 50001. -/
theorem appliable_select50001 :
    ∃ s, (program board).run (select50001 ++ [.arrive oneSample]) = some s ∧
      Appliable board ⟨0, 50001⟩ s := by
  have ran : ∃ s, (program board).run (select50001 ++ [.arrive oneSample]) = some s ∧
      s.world.portSelection.items = [⟨0, 50001⟩] ∧ s.world.conn.mailbox = [oneSample] :=
    ⟨_, rfl, rfl, rfl⟩
  obtain ⟨s, ran, held, mailbox⟩ := ran
  refine ⟨s, ran, (appliable_iff rfl (reachable_of_run ran) held (by decide)).mpr fun starved => ?_⟩
  rw [mailbox] at starved
  exact absurd starved.1 (List.cons_ne_nil _ _)

/-- A thread that waits at `netconn_recv` for an empty mailbox stays there. -/
private theorem parked_step {e : Event} (blocking : env.recvErrors = false)
    (unstarted : s.Unstarted) (held : s.udp.pc = .recv ∧ s.world.conn.mailbox = []) (none : NoArrival e)
    (step : System.Step env s e t) : t.udp.pc = .recv ∧ t.world.conn.mailbox = [] := by
  obtain ⟨here, mailbox⟩ := held
  cases step with
  | udp thread shared =>
    cases thread with
    | recv d _ =>
      obtain ⟨rest, waiting, _⟩ := World.udp_recv.mp shared
      rw [mailbox] at waiting
      contradiction
    | recvErr _ => simp [World.udp, blocking] at shared
    | _ => simp_all
  | tcp thread shared => exact ⟨here, (congrArg _ (World.tcp_frame shared).conn).trans mailbox⟩
  | arrive d => exact absurd rfl (none d)
  | udpInit now => simp [unstarted.udp now] at here
  | post shared =>
    obtain ⟨_, _, _, rfl⟩ := World.post_eq.mp shared
    exact ⟨here, mailbox⟩
  | tcpInit _ | pit0 => exact ⟨here, mailbox⟩

/-- Without one, the selection of port 50001 never gets to the bind. -/
theorem not_appliable_select50001 : ¬ ∀ env s b, env.recvErrors = false →
    (program env).Reachable s → s.world.portSelection.items = [b] → b.port ≠ 0 →
    ∃ t, (program env).Within NoArrival s t ∧ t.udp.pc = .bind ∧ t.udp.port = b.port := by
  intro applied
  have ran : ∃ s, (program board).run select50001 = some s ∧
      s.world.portSelection.items = [⟨0, 50001⟩] ∧ s.udp.pc = .recv ∧ s.world.conn.mailbox = [] :=
    ⟨_, rfl, rfl, rfl, rfl⟩
  obtain ⟨s, ran, held, here, mailbox⟩ := ran
  obtain ⟨t, path, binds, _⟩ := applied board s _ rfl (reachable_of_run ran) held (by decide)
  have parked := path.confined
    (P := fun s => (program board).Reachable s ∧ s.udp.pc = .recv ∧ s.world.conn.mailbox = [])
    (fun s e t held none step => ⟨held.1.step step, parked_step rfl
      (System.unstarted_of_reachable held.1) held.2 none (System.step_eq_some_iff.mp step)⟩)
    ⟨reachable_of_run ran, here, mailbox⟩
  rw [parked.2.1] at binds
  contradiction

end WirelessSpeakers.Soundness
