import WirelessSpeakers.Model.System

/-! # Which buffer the interrupt plays while the thread writes

The thread fills `buffer1` when `buffer_flag` is false, and that is when the handler plays `buffer1`:
the two tests have the same polarity. From the test of the flag to the flip behind the copy, the
buffer being filled is therefore the one being played. The flip comes too late to separate them, and
only makes the handler move on to the buffer that was not filled.
-/

namespace WirelessSpeakers.Soundness

open Model TapeMachine

variable {env : Environment} {s t : System}

/-- The buffer that the thread has chosen and not yet released by the flip of the flag. -/
def filling (u : UdpThread) : Option Buffer :=
  match u.pc with
  | .copy b _ _ | .failed b | .send b | .setFlag b => some b
  | _ => none

theorem filling_of_writing {u : UdpThread} {b : Buffer} (here : u.writing = some b) :
    filling u = some b := by
  rcases u with ⟨pc, _, _, _, _⟩
  cases pc <;> simp_all [UdpThread.writing, filling]

/-- The chosen buffer is the one that the handler plays. -/
def PlaysFilled (s : System) : Prop :=
  ∀ b, filling s.udp = some b → s.world.speaker.playing = b

/-- No statement of `UDP_thread` separates the buffer being filled from the one being played. -/
private theorem playsFilled_udp {label : UdpLabel} {udp : UdpThread} {world : World}
    (held : PlaysFilled s) (thread : UdpStep env s.udp label udp)
    (shared : s.world.udp env label = some world) : PlaysFilled { s with udp, world } := by
  intro b here
  change world.speaker.playing = b
  rw [(World.udp_frame shared).speaker]
  cases thread with
  | readFlag flag now =>
    obtain ⟨same, _⟩ := World.udp_readFlag.mp shared
    cases here
    simp only [World.speakerAfter, Speaker.playing, same]
  | memcpy now iteration =>
    rw [World.speakerAfter, Speaker.playing_memcpy]
    exact held b (by simpa only [filling, now] using here)
  | copied now ended =>
    apply held b
    simp only [filling, now]
    split_ifs at here <;> exact here
  | failed now =>
    rw [World.speakerAfter, Speaker.playing_clearIndex]
    exact held b (by simpa only [filling, now] using here)
  | send ok now => exact held b (by simpa only [filling, now] using here)
  | checkPort now => split_ifs at here <;> contradiction
  | reg now step => simp only [filling] at here; split_ifs at here
  | _ => contradiction

theorem playsFilled_step {e : Event} (held : PlaysFilled s) (step : System.Step env s e t) :
    PlaysFilled t := by
  cases step with
  | udpInit here => intro b here; contradiction
  | tcpInit here => exact held
  | udp thread shared => exact playsFilled_udp held thread shared
  | tcp thread shared =>
    intro b here
    rw [(World.tcp_frame shared).speaker]
    exact held b here
  | pit0 => exact held
  | arrive d => exact held
  | post shared =>
    obtain ⟨_, _, _, rfl⟩ := World.post_eq.mp shared
    exact held

theorem playsFilled_of_reachable (reachable : (program env).Reachable s) : PlaysFilled s :=
  invariant (m := program env) (fun _ here => by contradiction)
    (fun _ _ _ _ held step => playsFilled_step held (System.step_eq_some_iff.mp step)) reachable

/-- While the thread is inside `netbuf_copy`, the handler would play the buffer not being written. -/
def Excludes (s : System) : Prop :=
  ∀ b, s.udp.writing = some b → s.world.speaker.playing = b.other

/-- Inside `netbuf_copy`, exclusion fails. -/
theorem excludes_iff (reachable : (program env).Reachable s) :
    Excludes s ↔ s.udp.writing = none := by
  constructor
  · intro excludes
    cases here : s.udp.writing with
    | none => rfl
    | some b =>
      have plays := playsFilled_of_reachable reachable b (filling_of_writing here)
      exact absurd ((excludes b here).symm.trans plays) b.other_ne
  · intro outside b here
    rw [outside] at here
    contradiction

/-- The thread enters `netbuf_copy` only through the test of the flag. -/
private theorem writing_step {e : Event} (outside : s.udp.writing = none)
    (step : System.Step env s e t) (untested : ∀ flag, e ≠ .udp (.readFlag flag)) :
    t.udp.writing = none := by
  cases step with
  | udp thread shared =>
    cases thread with
    | readFlag flag now => exact absurd rfl (untested flag)
    | memcpy now iteration => simp [UdpThread.writing, now] at outside
    | copied now ended => simp [UdpThread.writing, now] at outside
    | checkPort now => simp only [UdpThread.writing]; split_ifs <;> rfl
    | reg now step => simp only [UdpThread.writing]; split_ifs <;> rfl
    | _ => rfl
  | udpInit here => rfl
  | _ => exact outside

/-- The double buffer excludes thread and handler exactly in the runs in which no datagram is copied:
every test of the flag leads to a write into the buffer being played. -/
theorem excludes_throughout_iff {tape : List Event} {u : System}
    (ran : (program env).run tape = some u) :
    (∀ s, (program env).Visits tape s → Excludes s) ↔
      ∀ s flag, ¬ (program env).Takes tape s (.udp (.readFlag flag)) := by
  constructor
  · intro excludes s flag taken
    obtain ⟨t, step, visit⟩ := taken.result ran
    have outside := (excludes_iff visit.reachable).mp (excludes t visit)
    cases System.step_eq_some_iff.mp step with
    | udp thread shared =>
      cases thread with
      | readFlag flag now => contradiction
  · intro untested s visit
    refine (excludes_iff visit.reachable).mpr (along (m := program env)
      (P := fun s => s.udp.writing = none) rfl ?_ visit)
    intro s e t outside taken step
    apply writing_step outside (System.step_eq_some_iff.mp step)
    rintro flag rfl
    exact untested s flag taken

/-- A run that ends inside the first copy. -/
def firstCopy : List Event := bootTape 60000000 ++ (datagramTape 1 false).take 3

theorem not_excludes_throughout_firstCopy :
    ¬ ∀ s, (program board).Visits firstCopy s → Excludes s := by
  intro excludes
  have taken : ∃ s, (program board).Takes firstCopy s (.udp (.readFlag false)) :=
    ⟨_, bootTape 60000000 ++ (datagramTape 1 false).take 2, List.prefix_rfl, rfl⟩
  obtain ⟨s, taken⟩ := taken
  exact (excludes_throughout_iff (u := _) rfl).mp excludes s false taken

theorem not_excludes : ¬ ∀ env s, (program env).Reachable s → Excludes s := by
  intro excludes
  have plays := excludes board _ ⟨firstCopy, rfl⟩ .buffer1 rfl
  contradiction

end WirelessSpeakers.Soundness
