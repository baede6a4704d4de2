import WirelessSpeakers.Soundness.DoubleBuffer

/-! # Which datagram the interrupt plays between two copies

The flip of the flag behind a copy makes the handler leave the buffer just filled. Between two copies
it therefore plays what the datagrams before the last one left in the other buffer, or the initial
content: every cell it can reach is older than the datagram just handled. The ages are read off the
recorded origins of the cells.
-/

namespace WirelessSpeakers.Soundness

open Model TapeMachine

variable {env : Environment} {s t : System}

/-- The origins in the buffer being played are below this bound. -/
def playingBound (u : UdpThread) : ℕ :=
  match u.pc with
  | .copy _ _ _ | .failed _ | .send _ | .setFlag _ => u.received + 1
  | .testFlag _ => u.received - 1
  | _ => u.received

/-- The origins in the other buffer are below this one. -/
def otherBound (u : UdpThread) : ℕ :=
  match u.pc with
  | .copy _ _ _ | .failed _ | .send _ | .setFlag _ | .testFlag _ => u.received
  | _ => u.received + 1

/-- No cell is younger than the position of the thread allows. -/
structure Dated (speaker : Speaker) (u : UdpThread) : Prop where
  playing : ∀ k m, (speaker.contents speaker.playing k).origin = some m → m < playingBound u
  other : ∀ k m, (speaker.contents speaker.playing.other k).origin = some m → m < otherBound u

namespace Dated

variable {speaker later : Speaker} {u v : UdpThread}

theorem initial (u : UdpThread) : Dated .initial u := by
  have blank : ∀ b k, (Speaker.initial.contents b k).origin = none := by
    intro b k
    cases b <;> exact match k with | 0 => rfl | 1 => rfl | _ + 2 => rfl
  constructor <;> intro k m here <;> simp [blank] at here

/-- Cells that stay where they are only age. -/
theorem mono (held : Dated speaker u) (same : later.contents = speaker.contents)
    (flag : later.playing = speaker.playing) (playing : playingBound u ≤ playingBound v)
    (other : otherBound u ≤ otherBound v) : Dated later v := by
  constructor
  · intro k m here
    rw [same, flag] at here
    exact (held.playing k m here).trans_le playing
  · intro k m here
    rw [same, flag] at here
    exact (held.other k m here).trans_le other

/-- A copy into the buffer being played brings the present datagram there. -/
theorem memcpy (held : Dated speaker u) (left : ℕ) (bytes : List Byte)
    (present : u.received < playingBound v) (playing : playingBound u ≤ playingBound v)
    (other : otherBound u ≤ otherBound v) :
    Dated (speaker.memcpy speaker.playing left (u.tag bytes)) v := by
  constructor
  · intro k m here
    rw [Speaker.playing_memcpy, Speaker.contents_memcpy, if_pos rfl] at here
    rcases splice_eq_or_mem (speaker.contents speaker.playing) left (u.tag bytes) k with old | new
    · rw [old] at here
      exact (held.playing k m here).trans_le playing
    · obtain ⟨byte, _, cell⟩ := List.mem_map.mp new
      rw [← cell] at here
      cases here
      exact present
  · intro k m here
    rw [Speaker.playing_memcpy, Speaker.contents_memcpy, if_neg (Buffer.other_ne _)] at here
    exact (held.other k m here).trans_le other

/-- The flip exchanges the two buffers. -/
theorem flip (held : Dated speaker u) (playing : otherBound u ≤ playingBound v)
    (other : playingBound u ≤ otherBound v) :
    Dated (speaker.setFlag (speaker.playing == .buffer1)) v := by
  constructor
  · intro k m here
    rw [Speaker.playing_setFlag_filled, Speaker.contents_setFlag] at here
    exact (held.other k m here).trans_le playing
  · intro k m here
    rw [Speaker.playing_setFlag_filled, Speaker.contents_setFlag, Buffer.other_other] at here
    exact (held.playing k m here).trans_le other

end Dated

/-- The invariant of the two buffers. -/
structure Aged (s : System) : Prop where
  filled : PlaysFilled s
  dated : Dated s.world.speaker s.udp

private theorem dated_udp {label : UdpLabel} {udp : UdpThread} {world : World} (held : Aged s)
    (thread : UdpStep env s.udp label udp) (shared : s.world.udp env label = some world) :
    Dated world.speaker udp := by
  have dated := held.dated
  rw [(World.udp_frame shared).speaker]
  cases thread with
  | @memcpy b d loop next bytes here iteration =>
    obtain rfl := held.filled b (by simp only [filling, here])
    apply dated.memcpy _ _ <;> simp [playingBound, otherBound, here]
  | @setFlag b here =>
    obtain rfl := held.filled b (by simp only [filling, here])
    apply dated.flip <;> simp [playingBound, otherBound, here]
  | failed here =>
    apply dated.mono (Speaker.contents_clearIndex _) rfl <;>
      simp [playingBound, otherBound, here]
  | reset here =>
    apply dated.mono (Speaker.contents_clearIndex _) rfl <;>
      simp [playingBound, otherBound, here]
  | checkPort here =>
    apply dated.mono rfl rfl <;> simp only [playingBound, otherBound, here] <;> split_ifs <;> rfl
  | reg here step =>
    apply dated.mono rfl rfl <;> simp only [playingBound, otherBound, here] <;> split_ifs <;> rfl
  | copied here ended =>
    apply dated.mono rfl rfl <;> simp only [playingBound, otherBound, here] <;> split_ifs <;> rfl
  | readFlag flag here =>
    apply dated.mono rfl rfl <;> simp only [playingBound, otherBound, here] <;> omega
  | new ok here | usePort here | free here | bind ok here valid | invalidConn here invalid
  | recv d here | recvErr here | send ok here | delete here | pollEmpty here | pollTaken block here
  | close here =>
    apply dated.mono rfl rfl <;> simp [playingBound, otherBound, here]

theorem aged_step {e : Event} (unstarted : s.Unstarted) (held : Aged s)
    (step : System.Step env s e t) : Aged t := by
  refine ⟨playsFilled_step held.filled step, ?_⟩
  have dated := held.dated
  cases step with
  | udpInit here =>
    apply dated.mono rfl rfl <;> simp [playingBound, otherBound, unstarted.udp here]
  | tcpInit here => exact dated
  | udp thread shared => exact dated_udp held thread shared
  | tcp thread shared =>
    change Dated (World.speaker _) s.udp
    rw [(World.tcp_frame shared).speaker]
    exact dated
  | pit0 => exact dated.mono (Speaker.contents_pit0IrqHandler _) rfl le_rfl le_rfl
  | arrive d => exact dated
  | post shared =>
    obtain ⟨_, _, _, rfl⟩ := World.post_eq.mp shared
    exact dated

theorem aged_of_reachable (reachable : (program env).Reachable s) : Aged s :=
  invariant (m := program env) ⟨fun _ here => by contradiction, Dated.initial {}⟩
    (fun _ _ _ before held step => aged_step (System.unstarted_of_reachable before) held
      (System.step_eq_some_iff.mp step)) reachable

/-- The thread has handled its `n`-th datagram to the end and not begun to copy the next one. -/
def Between (u : UdpThread) (n : ℕ) : Prop :=
  0 < n ∧ match u.pc with
    | .copy _ _ _ | .failed _ | .send _ | .setFlag _ | .reset => False
    | .testFlag _ => u.received = n + 1
    | _ => u.received = n

/-- Between two copies, everything in reach of the handler is older than the datagram just handled. -/
theorem stale_of_between (reachable : (program env).Reachable s) {n : ℕ} (between : Between s.udp n)
    (k : ℕ) : (s.world.speaker.contents s.world.speaker.playing k).origin ≠ some n := by
  intro here
  have young := (aged_of_reachable reachable).dated.playing k n here
  obtain ⟨_, position⟩ := between
  cases now : s.udp.pc <;> simp only [playingBound, now] at young position <;> omega

/-- The datagrams of a run, in the order of `netconn_recv`. -/
def receivedDatagrams (tape : List Event) : List Datagram :=
  tape.filterMap fun
    | .udp (.recv d) => some d
    | _ => none

/-- The sample is one of the `n`-th datagram. -/
def SampleOf (tape : List Event) (n : ℕ) (sample : Sample) : Prop :=
  ∃ d, (receivedDatagrams tape)[n - 1]? = some d ∧ ∃ k, 2 * k + 1 < d.buf.totLen ∧
    sample = ⟨⟨d.buf.bytes.getD (2 * k) 0, some n⟩, ⟨d.buf.bytes.getD (2 * k + 1) 0, some n⟩⟩

/-- Between two copies, the handler plays the datagram just handled. -/
def PlaysFresh (env : Environment) (tape : List Event) : Prop :=
  ∀ past s n, past ++ [.pit0] <+: tape → (program env).run past = some s → Between s.udp n →
    SampleOf past n s.world.speaker.output

/-- Playback is fresh exactly in the runs in which the timer never fires between two copies: each
time it does, the handler plays something older. -/
theorem playsFresh_iff (env : Environment) (tape : List Event) :
    PlaysFresh env tape ↔ ∀ s n, (program env).Takes tape s .pit0 → ¬ Between s.udp n := by
  constructor
  · rintro fresh s n ⟨past, initial, ran⟩ between
    obtain ⟨d, _, k, _, same⟩ := fresh past s n initial ran between
    exact stale_of_between ⟨past, ran⟩ between (2 * s.world.speaker.i.toNat)
      (congrArg (fun sample => sample.lo.origin) same)
  · intro silent past s n initial ran between
    exact absurd between (silent s n ⟨past, initial, ran⟩)

/-- The first datagram is handled to the end, then the timer fires. -/
def firstGap : List Event := bootTape 60000000 ++ (datagramTape 1 false).take 8 ++ [.pit0]

theorem not_playsFresh : ¬ ∀ env tape u, (program env).run tape = some u →
    (∀ d ∈ receivedDatagrams tape, Even d.buf.totLen ∧ 2 ≤ d.buf.totLen ∧ d.buf.totLen ≤ 1500) →
    PlaysFresh env tape := by
  intro fresh
  have even : ∀ d ∈ receivedDatagrams firstGap,
      Even d.buf.totLen ∧ 2 ≤ d.buf.totLen ∧ d.buf.totLen ≤ 1500 := by
    intro d member
    obtain rfl : d = oneSample := List.mem_singleton.mp member
    decide
  obtain ⟨d, found, k, inside, same⟩ := fresh board firstGap _ rfl even
    firstGap.dropLast _ 1 List.prefix_rfl rfl ⟨one_pos, rfl⟩
  cases found
  obtain rfl : k = 0 := by
    change 2 * k + 1 < 2 at inside
    omega
  exact absurd (congrArg Sample.value same) (by decide)

end WirelessSpeakers.Soundness
