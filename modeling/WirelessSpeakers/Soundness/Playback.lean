import WirelessSpeakers.Model.System

/-! # The index under two writers

The handler advances the index as a `uint16_t`, and the thread clears its low byte, whatever the high
byte is. Clearing a byte makes a number no larger and the handler wraps at the size of the buffers, so
the bound survives any interleaving of the two. The program is one of these interleavings.
-/

namespace WirelessSpeakers.Soundness

open Model TapeMachine

variable {env : Environment} {speaker : Speaker}

/-- A run of `PIT0_IRQHandler`, or a statement of the thread. -/
inductive SpeakerEvent where
  | handler
  | thread (label : UdpLabel)

/-- Handler and thread in any order, with no regard to the program text of the thread. -/
def playback (start : Speaker) : TapeMachine Speaker SpeakerEvent where
  init := start
  step speaker
    | .handler => some speaker.pit0IrqHandler.1
    | .thread label => some (World.speakerAfter speaker label)

/-- The high byte of the index stays. -/
theorem toNat_clearIndex (speaker : Speaker) :
    speaker.clearIndex.i.toNat = 256 * (speaker.i.toNat / 256) := by
  have mask : ∀ j (within : j < 16), (0xFF00#16)[j] = decide (8 ≤ j) := by decide
  have high : speaker.clearIndex.i = (speaker.i >>> 8) <<< 8 := by
    apply BitVec.eq_of_getElem_eq
    intro j within
    change (speaker.i &&& 0xFF00#16)[j] = _
    rw [BitVec.getElem_and, mask j within, BitVec.getElem_shiftLeft]
    rcases Nat.lt_or_ge j 8 with low | high
    · simp [low, Nat.not_le.mpr low]
    · simp [high, Nat.not_lt.mpr high, within]
  rw [high, BitVec.toNat_shiftLeft, BitVec.toNat_ushiftRight, Nat.shiftLeft_eq,
    Nat.shiftRight_eq_div_pow]
  omega

theorem toNat_pit0IrqHandler (bound : speaker.i.toNat < audioBufferSizes) :
    speaker.pit0IrqHandler.1.i.toNat = (speaker.i.toNat + 1) % audioBufferSizes := by
  have size : audioBufferSizes = 750 := rfl
  simp only [Speaker.pit0IrqHandler]
  rcases Nat.lt_or_ge speaker.i.toNat (audioBufferSizes - 1) with inside | last
  · rw [if_pos inside, BitVec.toNat_add]
    change (_ + 1) % 2 ^ 16 = (_ + 1) % 750
    omega
  · rw [if_neg (Nat.not_lt.mpr last)]
    change 0 = (_ + 1) % 750
    omega

theorem i_speakerAfter {label : UdpLabel} (other : label ≠ .clearIndex) :
    (World.speakerAfter speaker label).i = speaker.i := by
  cases label with
  | clearIndex => exact absurd rfl other
  | memcpy b left block => cases b <;> rfl
  | _ => rfl

/-- Neither writer takes the index out of the buffers. -/
theorem bounded_step {start later : Speaker} {e : SpeakerEvent}
    (bound : speaker.i.toNat < audioBufferSizes)
    (step : (playback start).step speaker e = some later) : later.i.toNat < audioBufferSizes := by
  cases e with
  | handler =>
    cases step
    rw [toNat_pit0IrqHandler bound]
    exact Nat.mod_lt _ (by decide)
  | thread label =>
    cases step
    rcases eq_or_ne label .clearIndex with rfl | other
    · change speaker.clearIndex.i.toNat < _
      rw [toNat_clearIndex]
      omega
    · rw [i_speakerAfter other]
      exact bound

theorem bounded_of_reachable {start : Speaker} (bound : start.i.toNat < audioBufferSizes)
    (reachable : (playback start).Reachable speaker) : speaker.i.toNat < audioBufferSizes :=
  invariant (m := playback start) (P := fun speaker => speaker.i.toNat < audioBufferSizes) bound
    (fun _ _ _ _ bound step => bounded_step bound step) reachable

/-- Every element that the handler reads, in any interleaving from index 0, is one of the buffer. -/
theorem index_in_bounds (start : Speaker) (tape : List SpeakerEvent) (zero : start.i = 0)
    (taken : (playback start).Takes tape speaker .handler) : speaker.i.toNat < audioBufferSizes := by
  refine bounded_of_reachable ?_ taken.visits.reachable
  rw [zero]
  decide

/-- The interrupt behind 300 others and a store of the thread reads element 256. -/
theorem index_in_bounds_cleared : ∃ speaker, (playback .initial).Takes
    (List.replicate 300 .handler ++ [.thread .clearIndex] ++ [.handler]) speaker .handler ∧
    speaker.i = 256 ∧ speaker.i.toNat < audioBufferSizes := by
  have ran : ((playback .initial).run (List.replicate 300 .handler ++ [.thread .clearIndex])).map
      (fun speaker => speaker.i) = some 256 := by decide +kernel
  obtain ⟨speaker, before, index⟩ := Option.map_eq_some_iff.mp ran
  have taken : (playback .initial).Takes
      (List.replicate 300 .handler ++ [.thread .clearIndex] ++ [.handler]) speaker .handler :=
    ⟨_, List.prefix_rfl, before⟩
  exact ⟨speaker, taken, index, index_in_bounds .initial _ rfl taken⟩

def speakerEvent : Event → Option SpeakerEvent
  | .pit0 => some .handler
  | .udp label => some (.thread label)
  | _ => none

/-- The speaker in a run of the program is one of these interleavings. -/
theorem playback_of_run {s t : System} {tape : List Event} (ran : (program env).runFrom s tape = some t) :
    (playback s.world.speaker).run (tape.filterMap speakerEvent) = some t.world.speaker := by
  refine runFrom_project (n := playback s.world.speaker) (fun s => s.world.speaker) speakerEvent
    (fun _ => True) ?_ trivial ran
  intro s e t _ step
  cases System.step_eq_some_iff.mp step with
  | udpInit | tcpInit | arrive => exact ⟨trivial, nofun, fun _ => rfl⟩
  | udp thread shared =>
    refine ⟨trivial, ?_, nofun⟩
    rintro _ ⟨⟩
    exact congrArg some (World.udp_frame shared).speaker.symm
  | tcp thread shared => exact ⟨trivial, nofun, fun _ => (World.tcp_frame shared).speaker⟩
  | pit0 =>
    refine ⟨trivial, ?_, nofun⟩
    rintro _ ⟨⟩
    rfl
  | post shared =>
    obtain ⟨_, _, _, rfl⟩ := World.post_eq.mp shared
    exact ⟨trivial, nofun, fun _ => rfl⟩

/-- The index never leaves the buffer. -/
theorem index_lt {s : System} (reachable : (program env).Reachable s) :
    s.world.speaker.i.toNat < audioBufferSizes := by
  obtain ⟨tape, ran⟩ := reachable
  have bound : Speaker.initial.i.toNat < audioBufferSizes := by decide
  exact bounded_of_reachable bound ⟨_, playback_of_run ran⟩

end WirelessSpeakers.Soundness
