import WirelessSpeakers.Soundness.AudioContents

/-! # A datagram that does not fit

`netbuf_copy` reports its failure by its result, when it has already filled the buffer, and the branch
of the failure joins the other one in front of the flip of the flag. So a datagram that is too long is
played from its beginning like any other: the buffer that was playing is overwritten, and the handler
moves on to the other one.
-/

namespace WirelessSpeakers.Soundness

open Model TapeMachine

variable {env : Environment} {s t : System} {d : Datagram} {tape : List Event}

/-- From `s` to `t` the thread handles the datagram, from the test of the flag to the `netbuf_delete`,
whatever else happens meanwhile; the result of its `netbuf_copy` is not the length of the datagram. -/
structure Rejects (env : Environment) (d : Datagram) (s : System) (tape : List Event) (t : System) :
    Prop where
  rejected : (netbufCopy d.buf (audioBytes s.world.speaker s.world.speaker.playing) sizeofBuffer).2 ≠
    d.buf.totLen
  started : s.stackInit ≠ .udpInit
  received : s.udp.pc = .testFlag d
  ran : (program env).runFrom s tape = some t
  only : ∀ e ∈ tape, e ≠ .udp .delete
  ends : t.udp.pc = .delete

/-- The handler plays from the same buffer, and what it holds is the same, under the same flag. -/
structure Undisturbed (before after : Speaker) : Prop where
  playing : after.playing = before.playing
  contents : ∀ q < sizeofBuffer, audioBytes after before.playing q = audioBytes before before.playing q
  flag : after.bufferFlag = before.bufferFlag

/-- The datagram is being handled, or has been handled up to its `netbuf_delete`, starting from this
speaker. -/
def Handles (start : Speaker) (d : Datagram) (u : UdpThread) (speaker : Speaker) : Prop :=
  match u.pc with
  | .testFlag d' => d' = d ∧ speaker.bufferFlag = start.bufferFlag ∧
      ∀ c, audioBytes speaker c = audioBytes start c
  | .copy b d' loop => d' = d ∧ b = start.playing ∧ Filling (audioBytes start) d b loop speaker
  | .failed b | .send b | .setFlag b => b = start.playing ∧
      ∀ c, audioBytes speaker c = overlay (audioBytes start) b d c
  | .reset | .delete => speaker.bufferFlag = !start.bufferFlag ∧
      ∀ c, audioBytes speaker c = overlay (audioBytes start) start.playing d c
  | _ => False

namespace Handles

variable {start speaker later : Speaker} {u : UdpThread}

/-- Neither the index nor the other parties matter. -/
theorem mono (held : Handles start d u speaker) (flag : later.bufferFlag = speaker.bufferFlag)
    (same : later.contents = speaker.contents) : Handles start d u later := by
  unfold Handles at held ⊢
  rw [flag, audioBytes_congr same]
  split at held
  · exact held
  · obtain ⟨rfl, rfl, filling⟩ := held
    exact ⟨rfl, rfl, filling.progress, by rw [audioBytes_congr same]; exact filling.contents⟩
  · exact held
  · exact held
  · exact held
  · exact held
  · exact held
  · exact held

end Handles

private theorem handles_udp {start : Speaker} {label : UdpLabel} {udp : UdpThread} {world : World}
    (held : Handles start d s.udp s.world.speaker) (thread : UdpStep env s.udp label udp)
    (shared : s.world.udp env label = some world) (stays : label ≠ .delete) :
    Handles start d udp world.speaker := by
  rw [(World.udp_frame shared).speaker]
  cases thread with
  | readFlag flag here =>
    simp only [Handles, here] at held
    obtain ⟨rfl, same, contents⟩ := held
    obtain ⟨now, _⟩ := World.udp_readFlag.mp shared
    refine ⟨rfl, ?_, filling_copyLoop contents⟩
    rw [Speaker.playing, ← same, now]
  | memcpy here iteration =>
    simp only [Handles, here] at held
    obtain ⟨rfl, rfl, filling⟩ := held
    exact ⟨rfl, rfl, filling.memcpy iteration _⟩
  | copied here ended =>
    simp only [Handles, here] at held
    obtain ⟨rfl, rfl, filling⟩ := held
    simp only [Handles]
    split_ifs <;> exact ⟨rfl, filling.ended ended⟩
  | failed here =>
    simp only [Handles, here] at held
    obtain ⟨rfl, contents⟩ := held
    refine ⟨rfl, ?_⟩
    intro c
    exact (congrFun (audioBytes_congr (Speaker.contents_clearIndex _)) c).trans (contents c)
  | send ok here =>
    simp only [Handles, here] at held
    exact held
  | setFlag here =>
    simp only [Handles, here] at held
    obtain ⟨rfl, contents⟩ := held
    constructor
    · change (start.playing == .buffer1) = _
      unfold Speaker.playing
      cases start.bufferFlag <;> rfl
    · intro c
      exact (congrFun (audioBytes_congr (Speaker.contents_setFlag _ _)) c).trans (contents c)
  | reset here =>
    simp only [Handles, here] at held
    obtain ⟨flag, contents⟩ := held
    refine ⟨flag, ?_⟩
    intro c
    exact (congrFun (audioBytes_congr (Speaker.contents_clearIndex _)) c).trans (contents c)
  | delete here => exact absurd rfl stays
  | _ => simp_all [Handles]

theorem handles_step {start : Speaker} {e : Event} (started : s.stackInit ≠ .udpInit)
    (held : Handles start d s.udp s.world.speaker) (step : System.Step env s e t)
    (stays : e ≠ .udp .delete) : t.stackInit ≠ .udpInit ∧ Handles start d t.udp t.world.speaker := by
  cases step with
  | udpInit here => exact absurd here started
  | tcpInit => exact ⟨nofun, held⟩
  | udp thread shared =>
    exact ⟨started, handles_udp held thread shared fun same => stays (congrArg Event.udp same)⟩
  | tcp thread shared =>
    refine ⟨started, ?_⟩
    change Handles start d s.udp (World.speaker _)
    rw [(World.tcp_frame shared).speaker]
    exact held
  | pit0 => exact ⟨started, held.mono rfl (Speaker.contents_pit0IrqHandler _)⟩
  | arrive => exact ⟨started, held⟩
  | post shared =>
    obtain ⟨_, _, _, rfl⟩ := World.post_eq.mp shared
    exact ⟨started, held⟩

theorem handles_run {start : Speaker} (started : s.stackInit ≠ .udpInit)
    (held : Handles start d s.udp s.world.speaker) (ran : (program env).runFrom s tape = some t)
    (only : ∀ e ∈ tape, e ≠ .udp .delete) : Handles start d t.udp t.world.speaker := by
  induction tape generalizing s with
  | nil =>
    cases ran
    exact held
  | cons e rest ih =>
    obtain ⟨middle, step, tail⟩ := Option.bind_eq_some_iff.mp ran
    obtain ⟨on, kept⟩ := handles_step started held (System.step_eq_some_iff.mp step)
      (only e List.mem_cons_self)
    exact ih on kept tail fun e member => only e (List.mem_cons_of_mem _ member)

/-- A datagram that does not fit goes over the buffer that was playing, and the flag is flipped. -/
theorem Rejects.effect (rejects : Rejects env d s tape t) :
    t.world.speaker.bufferFlag = !s.world.speaker.bufferFlag ∧
    ∀ c, audioBytes t.world.speaker c =
      overlay (audioBytes s.world.speaker) s.world.speaker.playing d c := by
  have start : Handles s.world.speaker d s.udp s.world.speaker := by
    rw [Handles, rejects.received]
    exact ⟨rfl, rfl, fun _ => rfl⟩
  have handled := handles_run rejects.started start rejects.ran rejects.only
  rw [Handles, rejects.ends] at handled
  exact handled

/-- Rejected are the datagrams longer than the buffer. -/
theorem snd_netbufCopy_ne_iff (memory : ℕ → Byte) :
    (netbufCopy d.buf memory sizeofBuffer).2 ≠ d.buf.totLen ↔ sizeofBuffer < d.buf.totLen := by
  rw [snd_netbufCopy]
  omega

/-- No rejected datagram leaves the playback undisturbed. -/
theorem rejected_disturbs (rejects : Rejects env d s tape t) :
    ¬ Undisturbed s.world.speaker t.world.speaker := by
  intro undisturbed
  have flipped := rejects.effect.1
  rw [undisturbed.flag] at flipped
  simp at flipped

/-- A datagram of 1502 bytes, in a chain of two pbufs. -/
def tooLong : Datagram := ⟨⟨⟨List.replicate 1400 0x41, 0⟩, [⟨List.replicate 102 0x42, 0⟩]⟩, 50007,
  by decide +kernel⟩

/-- What the thread does with it as its first datagram. -/
def tooLongTape : List Event :=
  [.udp (.readFlag false), .udp (.memcpy .buffer1 0 (List.replicate 1400 ⟨0x41, some 1⟩)),
    .udp (.memcpy .buffer1 1400 (List.replicate 100 ⟨0x42, some 1⟩)), .udp (.copied 1500),
    .udp .clearIndex, .udp (.setFlag true), .udp .clearIndex]

theorem rejects_tooLong : ∃ s t, (program board).Reachable s ∧ Rejects board tooLong s tooLongTape t := by
  have before : ((program board).run (bootTape 60000000 ++ [.arrive tooLong, .udp (.recv tooLong)])).map
      (fun s => (s.stackInit, s.udp.pc)) = some (.tcpInit, .testFlag tooLong) := by decide +kernel
  have behind : ((program board).run (bootTape 60000000 ++ [.arrive tooLong, .udp (.recv tooLong)] ++
      tooLongTape)).map (fun t => t.udp.pc) = some .delete := by decide +kernel
  obtain ⟨s, ran, position⟩ := Option.map_eq_some_iff.mp before
  obtain ⟨t, longer, ends⟩ := Option.map_eq_some_iff.mp behind
  simp only [Prod.mk.injEq] at position
  obtain ⟨started, received⟩ := position
  rw [run, runFrom_append] at longer
  change (((program board).run _).bind _) = _ at longer
  rw [ran] at longer
  refine ⟨s, t, ⟨_, ran⟩, ?_, ?_, received, longer, ?_, ends⟩
  · exact (snd_netbufCopy_ne_iff _).mpr (by decide +kernel)
  · rw [started]
    nofun
  · intro e member
    simp only [tooLongTape, List.mem_cons, List.not_mem_nil, or_false] at member
    rcases member with rfl | rfl | rfl | rfl | rfl | rfl | rfl <;> nofun

/-- The thread receives it, and flips the flag. -/
theorem rejected_disturbs_tooLong : ∃ s t, (program board).Reachable s ∧
    Rejects board tooLong s tooLongTape t ∧ ¬ Undisturbed s.world.speaker t.world.speaker := by
  obtain ⟨s, t, reachable, rejects⟩ := rejects_tooLong
  exact ⟨s, t, reachable, rejects, rejected_disturbs rejects⟩

theorem not_undisturbed : ¬ ∀ env d s tape t, Rejects env d s tape t →
    Undisturbed s.world.speaker t.world.speaker := by
  intro undisturbed
  obtain ⟨s, t, _, rejects⟩ := rejects_tooLong
  have flipped := rejects.effect.1
  rw [(undisturbed _ _ _ _ _ rejects).flag] at flipped
  simp at flipped

end WirelessSpeakers.Soundness
