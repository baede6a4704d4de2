import WirelessSpeakers.Model.System

/-! # The port selections on their way to the datagram thread

What `UDP_thread` has taken from `port_selection`, followed by what is still in it, is what
`xQueueSend` has accepted, in order; and `port` is the last accepted port that is not zero, as soon as
the thread has applied what it took. A selection that the full queue refuses for 100 ticks was never in
the queue.
-/

namespace WirelessSpeakers.Soundness

open Model TapeMachine BoundedQueue

variable {env : Environment} {s t : System}

/-- A port that `UDP_thread` takes from the queue. -/
def takenPort : Event → Option Port
  | .udp (.poll (some block)) => some block.port
  | _ => none

/-- A port that `tcp_thread` has decoded and finished sending, whatever `xQueueSend` returned. -/
def sentPort : Event → Option Port
  | .tcp (.send block _) => some block.port
  | _ => none

/-- A port that `xQueueSend` has accepted. -/
def acceptedPort : Event → Option Port
  | .tcp (.send block true) => some block.port
  | _ => none

def takenPorts (tape : List Event) : List Port := tape.filterMap takenPort
def sentPorts (tape : List Event) : List Port := tape.filterMap sentPort
def acceptedPorts (tape : List Event) : List Port := tape.filterMap acceptedPort

/-- The port in force after a sequence of selections: zero is skipped. -/
def portAfter (ports : List Port) : Port :=
  ports.foldl (fun port selected => if selected ≠ 0 then selected else port) 50007

@[simp] theorem takenPorts_snoc (past : List Event) (e : Event) :
    takenPorts (past ++ [e]) = takenPorts past ++ (takenPort e).toList :=
  filterMap_snoc takenPort past e

@[simp] theorem acceptedPorts_snoc (past : List Event) (e : Event) :
    acceptedPorts (past ++ [e]) = acceptedPorts past ++ (acceptedPort e).toList :=
  filterMap_snoc acceptedPort past e

theorem portAfter_snoc (ports : List Port) (selected : Port) :
    portAfter (ports ++ [selected]) = if selected ≠ 0 then selected else portAfter ports := by
  simp only [portAfter, List.foldl_append, List.foldl_cons, List.foldl_nil]

theorem accounts_of_run {tape : List Event} (ran : (program env).run tape = some s) :
    Accounts PortBlock.port s.world.portSelection (takenPorts tape) (acceptedPorts tape) := by
  refine history (m := program env) (P := fun past s =>
    Accounts PortBlock.port s.world.portSelection (takenPorts past) (acceptedPorts past))
    (accounts_empty _) ?_ ran
  intro past s e t _ held step
  rw [takenPorts_snoc, acceptedPorts_snoc]
  cases System.step_eq_some_iff.mp step with
  | @udp label udp world thread shared =>
    by_cases taken : ∃ block, label = .poll (some block)
    · obtain ⟨block, rfl⟩ := taken
      obtain ⟨rest, received, rfl⟩ := World.udp_pollTaken.mp shared
      simpa [takenPort, acceptedPort] using held.receive _ received
    · have silent : takenPort (.udp label) = none := by
        unfold takenPort
        split
        · next block same => exact absurd ⟨block, Event.udp.inj same⟩ taken
        · rfl
      change Accounts _ world.portSelection _ _
      rw [(World.udp_frame shared).portSelection (fun block same => taken ⟨block, same⟩), silent]
      simpa [acceptedPort] using held
  | @tcp label tcp world thread shared =>
    by_cases accepted : ∃ block, label = .send block true
    · obtain ⟨block, rfl⟩ := accepted
      obtain ⟨queue, sent, rfl⟩ := World.tcp_sent.mp shared
      simpa [takenPort, acceptedPort] using held.send _ sent
    · have silent : acceptedPort (.tcp label) = none := by
        unfold acceptedPort
        split
        · next block same => exact absurd ⟨block, Event.tcp.inj same⟩ accepted
        · rfl
      change Accounts _ world.portSelection _ _
      rw [(World.tcp_frame shared).portSelection (fun block same => accepted ⟨block, same⟩), silent]
      simpa [takenPort] using held
  | post shared =>
    obtain ⟨_, _, _, rfl⟩ := World.post_eq.mp shared
    simpa [takenPort, acceptedPort] using held
  | udpInit here | tcpInit here | pit0 | arrive d =>
    simpa [takenPort, acceptedPort, World.pit0, World.arrive] using held

/-- `UDP_thread` has taken a selection and not yet stored it in `port`. -/
def applying (u : UdpThread) : Bool :=
  match u.pc with
  | .close | .checkPort | .usePort => true
  | _ => false

/-- `port` is what the selections taken so far say, except that the last one may be on its way. -/
def Applies (u : UdpThread) (taken : List Port) : Prop :=
  match u.pc with
  | .absent | .start => u.receivedPort = none ∧ taken = [] ∧ u.port = portAfter taken
  | .close | .checkPort | .usePort =>
    match u.receivedPort with
    | none => u.pc = .checkPort ∧ taken = [] ∧ u.port = portAfter taken
    | some block => ∃ before, taken = before ++ [block.port] ∧ u.port = portAfter before ∧
        (u.pc = .usePort → block.port ≠ 0)
  | _ => u.port = portAfter taken

private theorem applies_udp (zero : env.nullPort = 0) {u v : UdpThread} {label : UdpLabel}
    {taken : List Port} (held : Applies u taken) (thread : UdpStep env u label v) :
    Applies v (taken ++ (takenPort (.udp label)).toList) := by
  cases thread with
  | pollTaken block here =>
    simp only [Applies, here] at held
    exact ⟨taken, rfl, held, by simp⟩
  | new ok here =>
    simp only [Applies, here] at held
    obtain ⟨null, rfl, port⟩ := held
    simp only [Applies, null]
    exact ⟨trivial, rfl, port⟩
  | close here =>
    simp only [Applies, here] at held
    cases received : u.receivedPort with
    | none => simp [received] at held
    | some block =>
      simp only [received] at held
      obtain ⟨before, same, port, _⟩ := held
      exact ⟨before, by simpa [takenPort] using same, port, by simp⟩
  | checkPort here =>
    simp only [Applies, here] at held
    cases received : u.receivedPort with
    | none =>
      simp only [received] at held
      obtain ⟨_, rfl, port⟩ := held
      have null : u.portValue env = 0 := by rw [UdpThread.portValue, received]; exact zero
      simpa [Applies, null, takenPort] using port
    | some block =>
      simp only [received] at held
      obtain ⟨before, rfl, port, _⟩ := held
      have value : u.portValue env = block.port := by rw [UdpThread.portValue, received]
      by_cases skipped : block.port = 0
      · simpa [Applies, value, skipped, takenPort, portAfter_snoc] using port
      · rw [value, if_pos skipped]
        exact ⟨before, by simp [takenPort], port, fun _ => skipped⟩
  | usePort here =>
    simp only [Applies, here] at held
    cases received : u.receivedPort with
    | none => simp [received] at held
    | some block =>
      simp only [received] at held
      obtain ⟨before, rfl, port, nonzero⟩ := held
      have value : u.portValue env = block.port := by rw [UdpThread.portValue, received]
      change u.portValue env = portAfter ((before ++ [block.port]) ++ [])
      rw [List.append_nil, value, portAfter_snoc, if_pos (nonzero trivial)]
  | reg here step =>
    simp only [Applies, here] at held
    simp only [Applies]
    split_ifs <;> simpa [takenPort] using held
  | copied here ended =>
    simp only [Applies, here] at held
    simp only [Applies]
    split_ifs <;> simpa [takenPort] using held
  | free here | bind ok here valid | invalidConn here invalid | recv d here | recvErr here
  | readFlag flag here | memcpy here iteration | failed here | send ok here | setFlag here
  | reset here | delete here | pollEmpty here =>
    simp only [Applies, here] at held
    simpa [Applies, takenPort] using held

theorem applies_of_run (zero : env.nullPort = 0) {tape : List Event}
    (ran : (program env).run tape = some s) : Applies s.udp (takenPorts tape) := by
  refine history (m := program env) (P := fun past s => Applies s.udp (takenPorts past))
    ⟨rfl, rfl, rfl⟩ ?_ ran
  intro past s e t before held step
  rw [takenPorts_snoc]
  cases System.step_eq_some_iff.mp step with
  | udp thread shared => exact applies_udp zero held thread
  | udpInit here =>
    rw [(System.unstarted_of_reachable ⟨past, before⟩).udp here] at held ⊢
    simpa [takenPort, Applies] using held
  | _ => simpa [takenPort] using held

/-- Every accepted selection is taken once, in order, or still in the queue; and once the queue is empty
and the last selection applied, `UDP_thread` is on the last accepted port that is not zero. -/
theorem selections_accounted {tape : List Event} (zero : env.nullPort = 0)
    (ran : (program env).run tape = some s) :
    takenPorts tape ++ s.world.portSelection.items.map PortBlock.port = acceptedPorts tape ∧
      (s.world.portSelection.items = [] → applying s.udp = false →
        s.udp.port = portAfter (acceptedPorts tape)) := by
  have accounts := accounts_of_run ran
  refine ⟨accounts, fun drained applied => ?_⟩
  rw [Accounts, drained, List.map_nil, List.append_nil] at accounts
  rw [← accounts]
  have applies := applies_of_run zero ran
  cases now : s.udp.pc <;> simp_all [Applies, applying]

/-- The client selects port 50001. -/
def select50001 : List Event :=
  bootTape 60000000 ++ connectTape ++ selectTape (portReply [0x35, 0x30, 0x30, 0x30, 0x31]) ⟨0, 50001⟩
    [.tcp (.send ⟨0, 50001⟩ true)]

/-- The next datagram makes `UDP_thread` look into the queue and apply the selection. -/
def apply50001 : List Event :=
  select50001 ++ datagramTape 1 false ++ [.udp (.poll (some ⟨0, 50001⟩)), .udp .close,
    .udp (.readPort 50001), .udp (.readPort 50001), .udp (.free (some ⟨0, 50001⟩))]

theorem selections_accounted_apply50001 :
    ∃ s, (program board).run apply50001 = some s ∧ s.udp.port = portAfter [50001] :=
  ⟨_, rfl, (@selections_accounted board _ apply50001 rfl rfl).2 rfl rfl⟩

/-- Without a datagram, the second selection finds the queue full for its 100 ticks. -/
def refused50002 : List Event :=
  select50001 ++ selectTape (portReply [0x35, 0x30, 0x30, 0x30, 0x32]) ⟨1, 50002⟩
    (List.replicate 100 (.tcp .tick) ++ [.tcp (.send ⟨1, 50002⟩ false)])

/-- The client selects port 0, and `UDP_thread` takes it and keeps the default port. -/
def apply0 : List Event :=
  bootTape 60000000 ++ connectTape ++ selectTape (portReply [0x30, 0x30, 0x30, 0x30, 0x30]) ⟨0, 0⟩
      [.tcp (.send ⟨0, 0⟩ true)] ++
    datagramTape 1 false ++ [.udp (.poll (some ⟨0, 0⟩)), .udp .close, .udp (.readPort 0)]

set_option maxRecDepth 4096 in
theorem not_all_selections_applied :
    (¬ ∀ env tape s, env.nullPort = 0 → (program env).run tape = some s →
      takenPorts tape ++ s.world.portSelection.items.map PortBlock.port = sentPorts tape) ∧
    ¬ ∀ env tape s port, env.nullPort = 0 → (program env).run tape = some s →
      s.world.portSelection.items = [] → applying s.udp = false →
      (acceptedPorts tape).getLast? = some port → s.udp.port = port := by
  constructor
  · intro accounted
    have ran : ∃ s, (program board).run refused50002 = some s ∧
        s.world.portSelection.items = [⟨0, 50001⟩] := ⟨_, rfl, rfl⟩
    obtain ⟨s, ran, queue⟩ := ran
    have same := accounted board refused50002 s rfl ran
    rw [queue] at same
    exact absurd same (by decide)
  · intro applied
    have kept := applied board apply0 _ 0 rfl rfl rfl rfl rfl
    exact absurd kept (by decide)

end WirelessSpeakers.Soundness
