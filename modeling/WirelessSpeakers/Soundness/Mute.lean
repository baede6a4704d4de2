import Mathlib.Algebra.Group.Nat.Even
import WirelessSpeakers.Model.System

/-! # The mute state and the timer

`MusicState` and the enable bit of PIT channel 0 are compared along a run. The command `'1'` starts the
timer when it stores `MusicState = 0` and stops it when it stores `MusicState = 1`, so after an odd
number of commands the two disagree; after an even number they agree only where `AudioConfig` has
started the timer behind the last `AudioOutput`. A `|=` that loses the other thread's update is
harmless, since `AudioConfig` always goes on to set the enable bit itself.
-/

namespace WirelessSpeakers.Soundness

open Model TapeMachine

variable {env : Environment} {s t : System}

/-- The end of a command `'1'`. -/
def endsCommand : Event → Bool
  | .tcp (.setMusicState _) => true
  | _ => false

/-- A store of `AudioOutput` to the control register of the timer. -/
def switchesTimer : Event → Bool
  | .tcp (.reg (.store _ _ _)) => true
  | _ => false

/-- The store by which `AudioConfig` starts channel 0. -/
def startsTimer : Event → Bool
  | .udp (.reg (.store .chnl0 .startTimer _)) => true
  | _ => false

/-- The statement before `AudioConfig`. -/
def entersConfig : Event → Bool
  | .udp (.bind _ _) => true
  | _ => false

/-- The commands `'1'` that a run has handled. -/
def commands (tape : List Event) : ℕ := tape.countP endsCommand

/-- The times that `AudioOutput` has switched the timer. -/
def switches (tape : List Event) : ℕ := tape.countP switchesTimer

/-- `AudioOutput` has switched the timer since `AudioConfig` last started it. -/
def switchedSince (tape : List Event) : Bool :=
  tape.foldl (fun since e => if switchesTimer e then true else if startsTimer e then false else since)
    false

/-- `AudioConfig` has been entered. -/
def configured (tape : List Event) : Bool := tape.any entersConfig

section Snoc

variable (past : List Event) (e : Event)

@[simp] theorem commands_snoc : commands (past ++ [e]) = commands past + (endsCommand e).toNat := by
  simp only [commands, List.countP_append, List.countP_singleton]
  cases endsCommand e <;> rfl

@[simp] theorem switches_snoc :
    switches (past ++ [e]) = switches past + (switchesTimer e).toNat := by
  simp only [switches, List.countP_append, List.countP_singleton]
  cases switchesTimer e <;> rfl

@[simp] theorem switchedSince_snoc : switchedSince (past ++ [e]) =
    if switchesTimer e then true else if startsTimer e then false else switchedSince past := by
  simp only [switchedSince, List.foldl_append, List.foldl_cons, List.foldl_nil]

@[simp] theorem configured_snoc : configured (past ++ [e]) = (configured past || entersConfig e) := by
  simp only [configured, List.any_append, List.any_cons, List.any_nil, Bool.or_false]

end Snoc

/-- `AudioConfig` has yet to start channel 0. -/
def pending (u : UdpThread) : Prop :=
  match u.pc with
  | .audioConfig script => .tctrl .chnl0 .startTimer ∈ script.ops
  | _ => False

/-- Every other operation of the script on the control register is followed by a start. -/
def Restarts : List RegOp → Prop
  | [] => True
  | op :: rest =>
    (∀ tctrlOp, op = .tctrl .chnl0 tctrlOp → tctrlOp = .startTimer ∨ .tctrl .chnl0 .startTimer ∈ rest) ∧
      Restarts rest

theorem restarts_audioConfig (busClock tx : ℕ) : Restarts (audioConfig busClock tx) := by
  simp [audioConfig, pitConfigAndStart, Restarts]

theorem Restarts.step {script rest : Script} {access : Access} (restarts : Restarts script.ops)
    (step : script.step access = some rest) : Restarts rest.ops := by
  cases access with
  | load chnl value => rwa [Script.step_load step]
  | store chnl op value =>
    rw [(Script.step_store step).1] at restarts
    exact restarts.2
  | whole op =>
    rw [(Script.step_whole step).1] at restarts
    exact restarts.2

/-- The script that `UDP_thread` runs, where it runs one. -/
def Restarting (u : UdpThread) : Prop := ∀ script, u.pc = .audioConfig script → Restarts script.ops

/-- The value of `MusicState` after a number of commands. -/
def musicAfter (count : ℕ) : Byte := if Even count then 1 else 0

theorem musicAfter_succ (count : ℕ) : musicAfter (count + 1) = 1 - musicAfter count := by
  simp only [musicAfter, Nat.even_add_one]
  by_cases even : Even count <;> simp [even]

/-- Where `tcp_thread` is in the handling of a command, against the counts of the run. -/
def Commanding (t : TcpThread) (commands switches : ℕ) : Prop :=
  t.musicState = musicAfter commands ∧
  match t.pc with
  | .audioOutput script music _ =>
    music = musicAfter (commands + 1) ∧
      (script.ops = audioOutput (musicAfter commands) ∧ switches = commands ∨
        script.ops = [.dacSetBufferValue 0] ∧ switches = commands + 1)
  | .setMusicState music _ => music = musicAfter (commands + 1) ∧ switches = commands + 1
  | _ => switches = commands

/-- `tcp_thread` is between the test of `MusicState` and its store. -/
def inCommand : TcpPc → Bool
  | .audioOutput _ _ _ | .setMusicState _ _ => true
  | _ => false

private theorem commanding_idle {t : TcpThread} {commands switches : ℕ} (idle : inCommand t.pc = false) :
    Commanding t commands switches ↔ t.musicState = musicAfter commands ∧ switches = commands := by
  unfold Commanding
  cases now : t.pc <;> simp_all [inCommand]

private theorem inCommand_resume (k : Continuation) : inCommand k.resume = false := by
  cases k <;> rfl

private theorem commanding_switch {t : TcpThread} {commands switches : ℕ} {command : Byte}
    {rest : List Pbuf} (music : t.musicState = musicAfter commands) (even : switches = commands) :
    Commanding (tcpSwitch t command rest) commands switches := by
  unfold tcpSwitch
  split_ifs with isX is1 on off
  · exact (commanding_idle rfl).mpr ⟨music, even⟩
  · refine ⟨music, ?_, .inl ⟨?_, even⟩⟩
    · rw [musicAfter_succ, ← music, on]
      rfl
    · rw [← music, on]
  · refine ⟨music, ?_, .inl ⟨?_, even⟩⟩
    · rw [musicAfter_succ, ← music, off]
      rfl
    · rw [← music, off]
  all_goals exact (commanding_idle rfl).mpr ⟨music, even⟩

/-- Each store of `AudioOutput` is counted once, and belongs to the command being handled. -/
private theorem commanding_reg {t : TcpThread} {commands switches : ℕ} {script later : Script}
    {access : Access} {music : Byte} {rest : List Pbuf} (held : Commanding t commands switches)
    (here : t.pc = .audioOutput script music rest) (step : script.step access = some later) :
    Commanding { t with pc := if later.ops = [] then .setMusicState music rest
                              else .audioOutput later music rest }
      commands (switches + (switchesTimer (.tcp (.reg access))).toNat) := by
  simp only [Commanding, here] at held
  obtain ⟨state, argument, ⟨ops, count⟩ | ⟨ops, count⟩⟩ := held
  · have started : audioOutput (musicAfter commands) ≠ [] := by
      unfold audioOutput
      split_ifs <;> exact List.cons_ne_nil _ _
    cases access with
    | load chnl value =>
      rw [Script.step_load step, ops, if_neg started]
      exact ⟨state, argument, .inl ⟨(Script.step_load step).trans ops, count⟩⟩
    | store chnl op value =>
      have head := ops.symm.trans (Script.step_store step).1
      unfold audioOutput at head
      split_ifs at head
      · have done : later.ops = [] := (List.cons.inj head).2.symm
        rw [done, if_pos rfl]
        exact ⟨state, argument, congrArg (· + 1) count⟩
      · have silence : later.ops = [.dacSetBufferValue 0] := (List.cons.inj head).2.symm
        rw [silence, if_neg (List.cons_ne_nil _ _)]
        exact ⟨state, argument, .inr ⟨silence, congrArg (· + 1) count⟩⟩
    | whole op =>
      obtain ⟨head, single⟩ := Script.step_whole step
      rw [ops, audioOutput] at head
      split_ifs at head
      · exact absurd (List.cons.inj head).1.symm (single _ _)
      · exact absurd (List.cons.inj head).1.symm (single _ _)
  · cases access with
    | load chnl value =>
      rw [Script.step_load step, ops, if_neg (List.cons_ne_nil _ _)]
      exact ⟨state, argument, .inr ⟨(Script.step_load step).trans ops, count⟩⟩
    | store chnl op value =>
      have head := ops.symm.trans (Script.step_store step).1
      exact absurd (List.cons.inj head).1 (by simp)
    | whole op =>
      have head := ops.symm.trans (Script.step_whole step).1
      have done : later.ops = [] := (List.cons.inj head).2.symm
      rw [done, if_pos rfl]
      exact ⟨state, argument, count⟩

theorem commanding_tcp {t v : TcpThread} {label : TcpLabel} {commands switches : ℕ}
    (held : Commanding t commands switches) (thread : TcpStep t label v) :
    Commanding v (commands + (endsCommand (.tcp label)).toNat)
      (switches + (switchesTimer (.tcp label)).toNat) := by
  cases thread with
  | switch here =>
    obtain ⟨music, even⟩ := (commanding_idle (by rw [here]; rfl)).mp held
    exact commanding_switch music even
  | reg here step => exact commanding_reg held here step
  | setMusicState here =>
    simp only [Commanding, here] at held
    exact held.2
  | write here =>
    have idle := (commanding_idle (by rw [here]; rfl)).mp held
    refine (commanding_idle ?_).mpr idle
    change inCommand (if _ then _ else _) = false
    split_ifs
    · exact inCommand_resume _
    · rfl
  | listen ok here =>
    have idle := (commanding_idle (by rw [here]; rfl)).mp held
    cases ok <;> exact (commanding_idle rfl).mpr idle
  | accept here =>
    have idle := (commanding_idle (by rw [here]; rfl)).mp held
    refine (commanding_idle ?_).mpr idle
    change inCommand (if _ then _ else _) = false
    split_ifs <;> rfl
  | refused here => exact held
  | clearBits here | setBits here | recv buf here | recvReply buf here | recvErr here | replyErr here
  | deleteForReply here | delete here | readPort garbage here port | readX garbage here back
  | malloc block here stored | sent here | timeout here | tick here | status values here
  | freeStatus here | last here | next here | close here | deleteConn here =>
    have idle := (commanding_idle (by rw [here]; rfl)).mp held
    exact (commanding_idle rfl).mpr idle

/-- The timer against the history of the run: as the last command left it, or started by
`AudioConfig` behind that. -/
def Timed (tape : List Event) (u : UdpThread) (regs : Peripherals) : Prop :=
  configured tape = true → ¬ pending u →
    (regs.running = true ↔ (switchedSince tape = true → ¬ Even (switches tape)))

structure Muting (tape : List Event) (s : System) : Prop where
  restarting : Restarting s.udp
  commanding : Commanding s.tcp (commands tape) (switches tape)
  timed : Timed tape s.udp s.world.regs

private theorem restarting_udp {u v : UdpThread} {label : UdpLabel} (held : Restarting u)
    (thread : UdpStep env u label v) : Restarting v := by
  intro later now
  cases thread with
  | bind ok here valid =>
    cases now
    exact restarts_audioConfig _ _
  | @reg script rest access here step =>
    dsimp only at now
    split_ifs at now
    cases now
    exact (held script here).step step
  | checkPort here => dsimp only at now; split_ifs at now
  | copied here ended => dsimp only at now; split_ifs at now
  | _ => contradiction

/-- A store of `AudioConfig` leaves channel 0 alone, or starts it, or is followed by a start. -/
private theorem running_reg {script rest : Script} {access : Access} {regs later : Peripherals}
    {since : Prop} (restarts : Restarts script.ops)
    (held : .tctrl .chnl0 .startTimer ∉ script.ops → (regs.running = true ↔ since))
    (step : script.step access = some rest) (success : regs.access access = some later)
    (done : .tctrl .chnl0 .startTimer ∉ rest.ops) :
    later.running = true ↔ startsTimer (.udp (.reg access)) = true ∨ since := by
  have running := Peripherals.running_access success
  cases access with
  | load chnl value =>
    rw [Script.step_load step] at done
    simpa only [running, startsTimer, Bool.false_eq_true, false_or] using held done
  | store chnl op value =>
    obtain ⟨ops, loaded, rfl⟩ := Script.step_store step
    rw [ops] at restarts held
    cases chnl with
    | chnl0 =>
      obtain rfl : op = .startTimer := (restarts.1 op rfl).resolve_right done
      simp only [running, TctrlOp.getLsbD_modify, startsTimer, true_or]
    | chnl1 =>
      have same := held (by simpa using done)
      simpa only [running, startsTimer, Bool.false_eq_true, false_or] using same
  | whole op =>
    obtain ⟨ops, single⟩ := Script.step_whole step
    have same := held (by rw [ops, List.mem_cons]; exact not_or.mpr ⟨(single _ _).symm, done⟩)
    simpa only [running, startsTimer, Bool.false_eq_true, false_or] using same

/-- The store of a command starts the timer when its number is odd, and stops it when it is even. -/
private theorem running_command {t v : TcpThread} {commands switches : ℕ} {chnl : Chnl} {op : TctrlOp}
    {value : BitVec 32} {regs later : Peripherals} (held : Commanding t commands switches)
    (thread : TcpStep t (.reg (.store chnl op value)) v)
    (success : regs.access (.store chnl op value) = some later) :
    later.running = true ↔ ¬ Even (switches + 1) := by
  have running := Peripherals.running_access success
  cases thread with
  | reg here step =>
    obtain ⟨ops, loaded, rfl⟩ := Script.step_store step
    simp only [Commanding, here] at held
    obtain ⟨_, _, ⟨script, rfl⟩ | ⟨script, _⟩⟩ := held
    · rw [Nat.even_add_one, not_not]
      rw [ops] at script
      simp only [audioOutput, musicAfter] at script
      by_cases even : Even switches
      · simp only [even, if_true] at script
        obtain ⟨head, _⟩ := List.cons.inj script
        cases head
        simp only [running, TctrlOp.getLsbD_modify, even]
      · simp only [even, if_false] at script
        obtain ⟨head, _⟩ := List.cons.inj script
        cases head
        simp only [running, TctrlOp.getLsbD_modify, even, Bool.false_eq_true]
    · rw [ops] at script
      exact absurd (List.cons.inj script).1 (by simp)

private theorem timed_udp {past : List Event} {u v : UdpThread} {label : UdpLabel} {w later : World}
    (held : Timed past u w.regs) (restarting : Restarting u) (thread : UdpStep env u label v)
    (shared : w.udp env label = some later) : Timed (past ++ [.udp label]) v later.regs := by
  have frame := (World.udp_frame shared).regs
  intro config settled
  cases thread with
  | bind ok here valid => exact absurd (by simp [pending, audioConfig, pitConfigAndStart]) settled
  | @reg script rest access here step =>
    obtain ⟨regs, success, rfl⟩ := Option.map_eq_some_iff.mp shared
    have done : .tctrl .chnl0 .startTimer ∉ rest.ops := by
      intro member
      apply settled
      simp only [pending]
      rwa [if_neg (List.ne_nil_of_mem member)]
    have before : .tctrl .chnl0 .startTimer ∉ script.ops →
        (w.regs.running = true ↔ (switchedSince past = true → ¬ Even (switches past))) := by
      intro absent
      apply held (by simpa [entersConfig] using config)
      simpa only [pending, here] using absent
    rw [running_reg (restarting script here) before step success done]
    simp only [switchedSince_snoc, switches_snoc, switchesTimer, Bool.toNat_false, add_zero,
      Bool.false_eq_true, if_false]
    cases startsTimer (.udp (.reg access)) <;> simp
  | _ =>
    rw [frame (by simp)]
    simpa [switchesTimer, startsTimer] using
      held (by simpa [entersConfig] using config) (by simp_all [pending])

private theorem timed_tcp {past : List Event} {u : UdpThread} {t v : TcpThread} {label : TcpLabel}
    {w later : World} (held : Timed past u w.regs)
    (commanding : Commanding t (commands past) (switches past)) (thread : TcpStep t label v)
    (shared : w.tcp label = some later) : Timed (past ++ [.tcp label]) u later.regs := by
  have frame := (World.tcp_frame shared).regs
  intro config settled
  have before := held (by simpa [entersConfig] using config) settled
  cases label with
  | reg access =>
    obtain ⟨regs, success, rfl⟩ := Option.map_eq_some_iff.mp shared
    have running := Peripherals.running_access success
    cases access with
    | store chnl op value =>
      simpa [switchesTimer] using running_command commanding thread success
    | load chnl value => simpa [switchesTimer, startsTimer, running] using before
    | whole op => simpa [switchesTimer, startsTimer, running] using before
  | _ =>
    rw [frame (by simp)]
    simpa [switchesTimer, startsTimer] using before

/-- An event of neither thread, under which the timer keeps its state. -/
private theorem Muting.silent {past : List Event} {e : Event} (held : Muting past s)
    (uncounted : endsCommand e = false ∧ switchesTimer e = false ∧ startsTimer e = false ∧
      entersConfig e = false)
    (udp : t.udp = s.udp) (tcp : t.tcp = s.tcp)
    (regs : t.world.regs.running = s.world.regs.running) : Muting (past ++ [e]) t := by
  obtain ⟨ends, switches, starts, enters⟩ := uncounted
  refine ⟨udp ▸ held.restarting, ?_, ?_⟩
  · rw [tcp, commands_snoc, switches_snoc, ends, switches]
    exact held.commanding
  · rw [Timed, configured_snoc, switchedSince_snoc, switches_snoc, switches, starts, enters, udp, regs]
    simpa [Timed] using held.timed

theorem muting_step {past : List Event} {e : Event} (unstarted : s.Unstarted) (held : Muting past s)
    (step : System.Step env s e t) : Muting (past ++ [e]) t := by
  cases step with
  | udpInit here =>
    refine ⟨fun script now => by contradiction, ?_, ?_⟩
    · simpa [endsCommand, switchesTimer] using held.commanding
    · have timed := held.timed
      rw [unstarted.udp here] at timed
      simpa [Timed, pending, switchesTimer, startsTimer, entersConfig] using timed
  | tcpInit here =>
    have commanding := held.commanding
    rw [unstarted.tcp (by rw [here]; decide)] at commanding
    refine ⟨held.restarting, ?_, ?_⟩
    · simpa [Commanding, unstarted.tcp, here, endsCommand, switchesTimer] using commanding
    · simpa [Timed, switchesTimer, startsTimer, entersConfig] using held.timed
  | udp thread shared =>
    refine ⟨restarting_udp held.restarting thread, ?_,
      timed_udp held.timed held.restarting thread shared⟩
    simpa [endsCommand, switchesTimer] using held.commanding
  | tcp thread shared =>
    refine ⟨held.restarting, ?_, timed_tcp held.timed held.commanding thread shared⟩
    simpa using commanding_tcp held.commanding thread
  | pit0 => exact held.silent ⟨rfl, rfl, rfl, rfl⟩ rfl rfl rfl
  | arrive d => exact held.silent ⟨rfl, rfl, rfl, rfl⟩ rfl rfl rfl
  | post shared =>
    obtain ⟨_, _, _, rfl⟩ := World.post_eq.mp shared
    exact held.silent ⟨rfl, rfl, rfl, rfl⟩ rfl rfl rfl

theorem muting_of_run {tape : List Event} (ran : (program env).run tape = some s) : Muting tape s := by
  refine history (m := program env) ?_ ?_ ran
  · refine ⟨fun script now => by contradiction, ?_, fun config => by contradiction⟩
    exact ⟨rfl, rfl⟩
  · intro past s e t before held step
    exact muting_step (System.unstarted_of_reachable ⟨past, before⟩) held
      (System.step_eq_some_iff.mp step)

/-- Neither thread is in the middle of `AudioOutput` or `AudioConfig`, and the latter has run. -/
structure Settled (tape : List Event) (s : System) : Prop where
  configured : configured tape = true
  udp : ∀ script, s.udp.pc ≠ .audioConfig script
  tcp : ∀ script music rest, s.tcp.pc ≠ .audioOutput script music rest

/-- `MusicState` and the timer agree wherever both threads are settled, and so every command switches
between audible and silent and nothing else does. -/
structure MuteAgrees (env : Environment) (tape : List Event) : Prop where
  agrees : ∀ past s, past <+: tape → (program env).run past = some s → Settled past s →
    (s.tcp.musicState = 1 ↔ s.world.regs.running = true)
  switches : ∀ past between s t, past ++ between <+: tape → (program env).run past = some s →
    (program env).run (past ++ between) = some t → Settled past s → Settled (past ++ between) t →
    (s.world.regs.running = t.world.regs.running ↔ Even (commands between))

/-- The histories after which the two do agree: an even number of commands, and `AudioConfig` behind
the last `AudioOutput`. Between `AudioOutput` and the store of the new `MusicState`, the old one still
fits, except where `AudioConfig` undoes a stop. -/
def Favourable (tape : List Event) (s : System) : Prop :=
  match s.tcp.pc with
  | .setMusicState _ _ => Even (commands tape) ∨ switchedSince tape = true
  | _ => Even (commands tape) ∧ switchedSince tape = false

private theorem musicAfter_eq_one {count : ℕ} : musicAfter count = 1 ↔ Even count := by
  unfold musicAfter
  split_ifs with even <;> simp [even]

theorem agrees_iff_favourable {tape : List Event} (ran : (program env).run tape = some s)
    (settled : Settled tape s) :
    (s.tcp.musicState = 1 ↔ s.world.regs.running = true) ↔ Favourable tape s := by
  obtain ⟨restarting, ⟨music, position⟩, timed⟩ := muting_of_run ran
  have idle : ¬ pending s.udp := by
    unfold pending
    split
    · next script here => exact absurd here (settled.udp script)
    · exact not_false
  rw [timed settled.configured idle, music, musicAfter_eq_one, Favourable]
  cases now : s.tcp.pc with
  | audioOutput script music rest => exact absurd now (settled.tcp script music rest)
  | setMusicState music rest =>
    simp only [now] at position
    rw [position.2, Nat.even_add_one]
    cases switchedSince tape <;> by_cases even : Even (commands tape) <;> simp [even]
  | _ =>
    simp only [now] at position
    rw [position]
    cases switchedSince tape <;> by_cases even : Even (commands tape) <;> simp [even]

theorem commands_append (first second : List Event) :
    commands (first ++ second) = commands first + commands second := List.countP_append

/-- The mute state agrees with the timer exactly in the runs whose settled points all have a
favourable history. -/
theorem muteAgrees_iff (env : Environment) (tape : List Event) :
    MuteAgrees env tape ↔ ∀ past s, past <+: tape → (program env).run past = some s →
      Settled past s → Favourable past s := by
  constructor
  · intro agrees past s initial ran settled
    exact (agrees_iff_favourable ran settled).mp (agrees.agrees past s initial ran settled)
  · intro favourable
    have agrees : ∀ past s, past <+: tape → (program env).run past = some s → Settled past s →
        (s.tcp.musicState = 1 ↔ s.world.regs.running = true) := by
      intro past s initial ran settled
      exact (agrees_iff_favourable ran settled).mpr (favourable past s initial ran settled)
    refine ⟨agrees, ?_⟩
    intro past between s t initial ran later settled settledLater
    have first := agrees past s ((List.prefix_append _ _).trans initial) ran settled
    have second := agrees _ t initial later settledLater
    rw [(muting_of_run ran).commanding.1, musicAfter_eq_one] at first
    rw [(muting_of_run later).commanding.1, musicAfter_eq_one, commands_append, Nat.even_add] at second
    rw [Bool.eq_iff_iff, ← first, ← second]
    by_cases even : Even (commands past) <;> simp [even]

/-- The client sends the command `'1'` once. -/
def muteOnce : List Event :=
  bootTape 60000000 ++ connectTape ++
    [.tcp (.recv (keystroke char1)), .tcp (.switch char1), .tcp (.reg (.load .chnl0 3)),
      .tcp (.reg (.store .chnl0 .startTimer 3)), .tcp (.setMusicState 0)]

theorem not_muteAgrees : ¬ ∀ env tape, MuteAgrees env tape := by
  intro holds
  have ran : ∃ s, (program board).run muteOnce = some s ∧ Settled muteOnce s ∧
      s.tcp.musicState = 0 ∧ s.world.regs.running = true :=
    ⟨_, rfl, ⟨rfl, fun _ => nofun, fun _ _ _ => nofun⟩, rfl, rfl⟩
  obtain ⟨s, ran, settled, music, running⟩ := ran
  have agrees := (holds board muteOnce).agrees muteOnce s List.prefix_rfl ran settled
  rw [music, running] at agrees
  simp at agrees

end WirelessSpeakers.Soundness
