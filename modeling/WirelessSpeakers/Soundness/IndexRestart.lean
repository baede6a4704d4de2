import WirelessSpeakers.Soundness.Playback

/-! # The index behind a buffer switch

`i = 0` in `UDP_thread` stores one byte of an index of two, so what is left of it is its last multiple
of 256. From there the interrupts count on: playback restarts at element 0 exactly if the index had
not yet run past 255.
-/

namespace WirelessSpeakers.Soundness

open Model TapeMachine

variable {env : Environment} {s t u : System}

def isPit0 : Event → Bool
  | .pit0 => true
  | _ => false

/-- The handling of a datagram begins with the test of `buffer_flag`. -/
def beginsHandling : Event → Bool
  | .udp (.readFlag _) => true
  | _ => false

/-- In the run along `tape` the stores for a datagram are done with `i = 0` in the state `s`, and before
the next datagram is handled the timer fires in the state `u`, with `gap` in between. -/
structure FiresAfter (env : Environment) (tape past gap : List Event) (s u : System) : Prop where
  initial : past ++ .udp .clearIndex :: gap ++ [.pit0] <+: tape
  before : (program env).run past = some s
  stores : s.udp.pc = .reset
  quiet : ∀ e ∈ gap, beginsHandling e = false
  fires : (program env).run (past ++ .udp .clearIndex :: gap) = some u

/-- The `k`-th interrupt behind the stores for a datagram finds the index `k` mod 750, which is the
element it outputs. -/
def RestartsAtZero (env : Environment) (tape : List Event) : Prop :=
  ∀ past gap s u, FiresAfter env tape past gap s u →
    u.world.speaker.i.toNat = gap.countP isPit0 % audioBufferSizes

/-- The index behind a step that does not clear it. -/
theorem index_step {e : Event} (step : System.Step env s e t) (other : e ≠ .udp .clearIndex)
    (bound : s.world.speaker.i.toNat < audioBufferSizes) : t.world.speaker.i.toNat =
      (s.world.speaker.i.toNat + [e].countP isPit0) % audioBufferSizes := by
  have still : s.world.speaker.i.toNat = (s.world.speaker.i.toNat + 0) % audioBufferSizes :=
    (Nat.mod_eq_of_lt bound).symm
  cases step with
  | udpInit | tcpInit | arrive => exact still
  | udp thread shared =>
    change (World.speaker _).i.toNat = _
    rw [(World.udp_frame shared).speaker, i_speakerAfter fun same => other (congrArg Event.udp same)]
    exact still
  | tcp thread shared =>
    change (World.speaker _).i.toNat = _
    rw [(World.tcp_frame shared).speaker]
    exact still
  | pit0 => exact toNat_pit0IrqHandler bound
  | post shared =>
    obtain ⟨_, _, _, rfl⟩ := World.post_eq.mp shared
    exact still

/-- The thread is not handling a datagram. -/
def Idle : UdpPc → Prop
  | .copy _ _ _ | .failed _ | .send _ | .setFlag _ | .reset => False
  | _ => True

theorem idle_step {e : Event} (idle : Idle s.udp.pc) (quiet : beginsHandling e = false)
    (step : System.Step env s e t) : Idle t.udp.pc ∧ e ≠ .udp .clearIndex := by
  cases step with
  | udpInit => exact ⟨trivial, fun same => by cases same⟩
  | tcpInit | tcp | pit0 | arrive | post => exact ⟨idle, fun same => by cases same⟩
  | udp thread shared =>
    cases thread with
    | checkPort here | reg here step =>
      refine ⟨?_, fun same => by cases same⟩
      dsimp only
      split <;> trivial
    | _ => simp_all [Idle, beginsHandling]

/-- Behind the store the index counts the interrupts. -/
theorem index_run {gap : List Event} (idle : Idle s.udp.pc)
    (bound : s.world.speaker.i.toNat < audioBufferSizes) (quiet : ∀ e ∈ gap, beginsHandling e = false)
    (ran : (program env).runFrom s gap = some u) : u.world.speaker.i.toNat =
      (s.world.speaker.i.toNat + gap.countP isPit0) % audioBufferSizes := by
  induction gap generalizing s with
  | nil =>
    cases ran
    exact (Nat.mod_eq_of_lt bound).symm
  | cons e rest ih =>
    obtain ⟨t, step, tail⟩ := Option.bind_eq_some_iff.mp ran
    have taken := System.step_eq_some_iff.mp step
    obtain ⟨still, other⟩ := idle_step idle (quiet e List.mem_cons_self) taken
    have here := index_step taken other bound
    have inside : t.world.speaker.i.toNat < audioBufferSizes := by
      rw [here]
      exact Nat.mod_lt _ (by decide)
    rw [ih still inside (fun e member => quiet e (List.mem_cons_of_mem _ member)) tail, here,
      Nat.mod_add_mod, Nat.add_assoc, ← List.countP_append, List.singleton_append]

/-- The index at an interrupt behind the stores for a datagram. -/
theorem FiresAfter.index {tape past gap : List Event} (after : FiresAfter env tape past gap s u) :
    u.world.speaker.i.toNat =
      (256 * (s.world.speaker.i.toNat / 256) + gap.countP isPit0) % audioBufferSizes := by
  have ran := after.fires
  rw [run, runFrom_append] at ran
  obtain ⟨middle, before, behind⟩ := Option.bind_eq_some_iff.mp ran
  obtain rfl : s = middle := Option.some.inj (after.before.symm.trans before)
  obtain ⟨t, step, rest⟩ := Option.bind_eq_some_iff.mp behind
  have bound := index_lt ⟨past, after.before⟩
  cases System.step_eq_some_iff.mp step with
  | @udp _ udp world thread shared =>
    have cleared : world.speaker.i.toNat = 256 * (s.world.speaker.i.toNat / 256) := by
      rw [(World.udp_frame shared).speaker]
      exact toNat_clearIndex s.world.speaker
    have idle : Idle udp.pc := by
      have stores := after.stores
      cases thread <;> simp_all [Idle]
    have inside : world.speaker.i.toNat < audioBufferSizes := by
      rw [cleared]
      exact (Nat.mul_div_le _ _).trans_lt bound
    rw [index_run idle inside after.quiet rest, cleared]

/-- Playback restarts at element 0 after every datagram exactly in the runs in which the index is below
256 at every last store for a datagram that an interrupt follows before the next datagram. -/
theorem restarts_iff (env : Environment) (tape : List Event) : RestartsAtZero env tape ↔
    ∀ past gap s u, FiresAfter env tape past gap s u → s.world.speaker.i.toNat < 256 := by
  have size : audioBufferSizes = 750 := rfl
  constructor
  · intro restarts past gap s u after
    have bound := index_lt ⟨past, after.before⟩
    have index := after.index.symm.trans (restarts past gap s u after)
    rw [size] at bound index
    omega
  · intro low past gap s u after
    have here := low past gap s u after
    rw [after.index, Nat.div_eq_of_lt here, Nat.mul_zero, Nat.zero_add]

/-- The timer fires 256 times before the first datagram, which is handled up to `i = 0`. -/
def lateDatagram : List Event :=
  bootTape 60000000 ++ List.replicate 256 .pit0 ++ (datagramTape 1 false).take 7

/-- The next interrupt then outputs element 256. -/
theorem index_not_restarted : ¬ ∀ env tape u, (program env).run tape = some u → RestartsAtZero env tape := by
  intro restarts
  have before : ((program board).run lateDatagram).map (fun s => s.udp.pc) = some .reset := by
    decide +kernel
  have fires : ((program board).run (lateDatagram ++ [.udp .clearIndex])).map
      (fun u => u.world.speaker.i.toNat) = some 256 := by decide +kernel
  obtain ⟨s, past, stores⟩ := Option.map_eq_some_iff.mp before
  obtain ⟨u, ran, index⟩ := Option.map_eq_some_iff.mp fires
  have last : (program board).run (lateDatagram ++ [.udp .clearIndex] ++ [.pit0]) =
      some { u with world := u.world.pit0 } := run_snoc.mpr ⟨u, ran, rfl⟩
  have first := restarts board _ _ last lateDatagram [] s u
    ⟨List.prefix_rfl, past, stores, fun _ member => absurd member List.not_mem_nil, ran⟩
  rw [index] at first
  exact absurd first (by decide)

end WirelessSpeakers.Soundness
