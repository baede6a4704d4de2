import WirelessSpeakers.Model.System

/-! # Waiting for a status block

`tcp_printUDPstatus` waits without a timeout for an element of `UDP_status_values`. No task of the
program ever sends one, so the queue stays empty in every run, and the control thread that has begun to
wait waits for good.
-/

namespace WirelessSpeakers.Soundness

open Model TapeMachine BoundedQueue

variable {env : Environment} {s t : System}

/-- `tcp_thread` waits for a status block, and in no continuation, whatever the network sends and
however the threads are scheduled, does one arrive or does the thread move again. -/
def Deadlocked (env : Environment) (s : System) : Prop :=
  (∃ rest, s.tcp.pc = .receiveStatus rest) ∧
    ∀ t, (program env).Within (fun _ => True) s t →
      t.world.udpStatusValues.items = [] ∧ t.tcp = s.tcp

/-- Without a task that sends, the queue of status blocks stays empty. -/
theorem udpStatusValues_empty (silent : env.statusProducer = false)
    (reachable : (program env).Reachable s) : s.world.udpStatusValues.items = [] := by
  refine invariant (m := program env) (P := fun s => s.world.udpStatusValues.items = []) rfl ?_
    reachable
  intro s e t _ held step
  cases System.step_eq_some_iff.mp step with
  | @udp label udp world thread shared =>
    change world.udpStatusValues.items = []
    rw [(World.udp_frame shared).udpStatusValues]
    exact held
  | @tcp label tcp world thread shared =>
    by_cases taken : ∃ values, label = .status values
    · obtain ⟨values, rfl⟩ := taken
      obtain ⟨rest, received, _⟩ := World.tcp_status.mp shared
      rw [receive?_eq_none_iff.mpr held] at received
      contradiction
    · change world.udpStatusValues.items = []
      rw [(World.tcp_frame shared).udpStatusValues (fun values same => taken ⟨values, same⟩)]
      exact held
  | post shared =>
    obtain ⟨producer, _⟩ := World.post_eq.mp shared
    rw [silent] at producer
    contradiction
  | _ => exact held

/-- A thread that waits for a status block is not moved by any step. -/
private theorem waiting_step {e : Event} {rest : List Pbuf} (silent : env.statusProducer = false)
    (reachable : (program env).Reachable s) (waiting : s.tcp.pc = .receiveStatus rest)
    (step : System.Step env s e t) : t.tcp = s.tcp := by
  have empty := udpStatusValues_empty silent reachable
  cases step with
  | tcpInit here =>
    rw [(System.unstarted_of_reachable reachable).tcp (by rw [here]; decide)] at waiting
    contradiction
  | tcp thread shared =>
    cases thread with
    | status values here =>
      obtain ⟨_, received, _⟩ := World.tcp_status.mp shared
      rw [receive?_eq_none_iff.mpr empty] at received
      contradiction
    | _ => simp_all
  | _ => rfl

theorem deadlocked_iff (silent : env.statusProducer = false)
    (reachable : (program env).Reachable s) :
    Deadlocked env s ↔ ∃ rest, s.tcp.pc = .receiveStatus rest := by
  constructor
  · exact fun deadlocked => deadlocked.1
  · rintro ⟨rest, waiting⟩
    refine ⟨⟨rest, waiting⟩, fun t path => ?_⟩
    have confined := path.confined (P := fun t => (program env).Reachable t ∧ t.tcp = s.tcp) ?_
      ⟨reachable, rfl⟩
    · exact ⟨udpStatusValues_empty silent confined.1, confined.2⟩
    · rintro t e u ⟨before, same⟩ _ step
      refine ⟨before.step step, ?_⟩
      rw [← same] at waiting
      exact (waiting_step silent before waiting (System.step_eq_some_iff.mp step)).trans same

/-- `tcp_thread` gets to wait for a status block only through the head of `tcp_printUDPstatus`. -/
private theorem unwaiting_step {e : Event} (free : ∀ rest, s.tcp.pc ≠ .receiveStatus rest)
    (step : System.Step env s e t) (unset : e ≠ .tcp .setBits) :
    ∀ rest, t.tcp.pc ≠ .receiveStatus rest := by
  intro rest
  cases step with
  | tcp thread shared =>
    cases thread with
    | setBits here => exact absurd rfl unset
    | switch here => unfold tcpSwitch; split_ifs <;> simp
    | @write chunk chunks k here =>
      dsimp only
      split_ifs
      · cases k <;> simp [Continuation.resume]
      · simp
    | listen ok here | accept here | reg here step =>
      dsimp only
      split_ifs <;> simp
    | refused here => exact free rest
    | _ => simp [tcpMainMenu]
  | tcpInit here => simp
  | _ => exact free rest

/-- The status menu never deadlocks the control thread exactly in the runs that never enter
`tcp_printUDPstatus`. -/
theorem never_deadlocked_iff {tape : List Event} {u : System} (silent : env.statusProducer = false)
    (ran : (program env).run tape = some u) :
    (∀ s, (program env).Visits tape s → ¬ Deadlocked env s) ↔
      ∀ s, ¬ (program env).Takes tape s (.tcp .setBits) := by
  constructor
  · intro never s taken
    obtain ⟨t, step, visit⟩ := taken.result ran
    refine never t visit ((deadlocked_iff silent visit.reachable).mpr ?_)
    cases System.step_eq_some_iff.mp step with
    | tcp thread shared =>
      cases thread with
      | setBits here => exact ⟨_, rfl⟩
  · intro unset s visit deadlocked
    obtain ⟨rest, waiting⟩ := deadlocked.1
    refine along (m := program env) (P := fun s => ∀ rest, s.tcp.pc ≠ .receiveStatus rest)
      (by simp [program]) ?_ visit rest waiting
    intro s e t free taken step
    apply unwaiting_step free (System.step_eq_some_iff.mp step)
    rintro rfl
    exact unset s taken

/-- That function is entered by the command `'3'` in the main menu and by nothing else. -/
theorem entersStatus_tcp {t v : TcpThread} {label : TcpLabel} {rest : List Pbuf}
    (thread : TcpStep t label v) (enters : v.pc = .setBits rest) (outside : t.pc ≠ .setBits rest) :
    label = .switch char3 ∧ t.currentMenu = .mainMenu := by
  cases thread with
  | @switch p behind here =>
    unfold tcpSwitch at enters
    split_ifs at enters with isX is1 on off is2 selects is3 main
    exact ⟨congrArg _ is3, main⟩
  | @write chunk chunks k here =>
    dsimp only at enters
    split_ifs at enters
    cases k <;> contradiction
  | listen ok here | accept here | reg here step => dsimp only at enters; split_ifs at enters
  | refused here => exact absurd enters outside
  | _ => contradiction

/-- A client asks for the status report. -/
def askStatus : List Event :=
  .stackInit :: connectTape ++ [.tcp (.recv (keystroke char3)), .tcp (.switch char3), .tcp .setBits]

theorem deadlocks_askStatus : ¬ ∀ s, (program board).Visits askStatus s → ¬ Deadlocked board s := by
  intro never
  have taken : ∃ s, (program board).Takes askStatus s (.tcp .setBits) :=
    ⟨_, askStatus.dropLast, List.prefix_rfl, rfl⟩
  obtain ⟨s, taken⟩ := taken
  exact (never_deadlocked_iff (u := _) rfl rfl).mp never s taken

theorem not_never_deadlocked : ¬ ∀ env s, env.statusProducer = false →
    (program env).Reachable s → ¬ Deadlocked env s := by
  intro never
  have ran : ∃ s, (program board).run askStatus = some s ∧ s.tcp.pc = .receiveStatus [] :=
    ⟨_, rfl, rfl⟩
  obtain ⟨s, ran, waiting⟩ := ran
  have reachable := reachable_of_run ran
  exact never board s rfl reachable ((deadlocked_iff rfl reachable).mpr ⟨[], waiting⟩)

end WirelessSpeakers.Soundness
