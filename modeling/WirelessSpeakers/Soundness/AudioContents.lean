import WirelessSpeakers.Soundness.Freshness

/-! # What the audio buffers hold

The datagrams go to the two buffers in turn, and each leaves what it is too short to reach. So a byte of
a buffer is the one of the last datagram of its parity that reaches it. The copy is interrupted at
will, and both failures go on like a success, which makes the alternation a matter of counting the
receives.
-/

namespace WirelessSpeakers.Soundness

open Model TapeMachine

variable {env : Environment} {s t : System} {ds before : List Datagram} {d : Datagram}

/-- The bytes of a buffer, without their history. -/
def audioBytes (speaker : Speaker) (b : Buffer) (q : ℕ) : Byte := (speaker.contents b q).value

/-- The datagrams whose number, counted from one, is odd or even. -/
def numbered (parity : ℕ) (ds : List Datagram) : List Datagram :=
  ((ds.zipIdx 1).filter fun p => p.2 % 2 = parity).map Prod.fst

/-- Byte `q` of the last datagram longer than `q` bytes, and the initial one if there is none. -/
def lastByte (ds : List Datagram) (q : ℕ) : Byte :=
  match (ds.filter fun d => q < d.buf.totLen).getLast? with
  | some d => d.buf.bytes.getD q 0
  | none => (initialBuffer q).value

/-- The datagrams put over each other, as `netbuf_copy` does. -/
def overlaid (ds : List Datagram) : ℕ → Byte :=
  ds.foldl (fun memory d => splice memory 0 (d.buf.bytes.take sizeofBuffer))
    fun q => (initialBuffer q).value

theorem numbered_snoc (parity : ℕ) (ds : List Datagram) (d : Datagram) :
    numbered parity (ds ++ [d]) =
      numbered parity ds ++ if (ds.length + 1) % 2 = parity then [d] else [] := by
  rw [numbered, List.zipIdx_append, List.filter_append, List.map_append, Nat.add_comm 1]
  congr 1
  split_ifs with turn <;> simp [turn]

theorem overlaid_snoc (ds : List Datagram) (d : Datagram) :
    overlaid (ds ++ [d]) = splice (overlaid ds) 0 (d.buf.bytes.take sizeofBuffer) := by
  rw [overlaid, List.foldl_append]
  rfl

theorem length_bytes (buf : Netbuf) : buf.bytes.length = buf.totLen := List.length_flatMap

/-- Inside the buffer, the last datagram that reaches a byte decides. -/
theorem overlaid_eq_lastByte (ds : List Datagram) {q : ℕ} (within : q < sizeofBuffer) :
    overlaid ds q = lastByte ds q := by
  induction ds using List.reverseRecOn with
  | nil => rfl
  | append_singleton ds d ih =>
    rw [overlaid_snoc, lastByte, List.filter_append, splice, if_pos (Nat.zero_le q), Nat.sub_zero,
      List.getElem?_take_of_lt within, ih]
    rcases Nat.lt_or_ge q d.buf.totLen with reaches | short
    · have inside : q < d.buf.bytes.length := by rwa [length_bytes]
      simp [reaches, inside]
    · have beyond : d.buf.bytes.length ≤ q := by rwa [length_bytes]
      simp [Nat.not_lt.mpr short, beyond, lastByte]

/-- The loop of `netbuf_copy` has copied the beginning of the message, and unless its buffer is full the
chain in front of it is the remainder. -/
structure Progress (bytes : List Byte) (size : ℕ) (loop : CopyLoop) : Prop where
  offset : loop.offset = 0
  room : loop.len + loop.left = size
  total : loop.copiedTotal = loop.left
  rest : loop.len ≠ 0 → loop.p.flatMap Pbuf.payload = bytes.drop loop.left
  within : loop.left ≤ bytes.length

theorem progress_copyLoop (buf : Netbuf) (size : ℕ) : Progress buf.bytes size (buf.copyLoop size) :=
  ⟨rfl, rfl, rfl, fun _ => rfl, Nat.zero_le _⟩

/-- An iteration copies the next block of the message. -/
theorem Progress.next {bytes block : List Byte} {size : ℕ} {loop next : CopyLoop}
    (progress : Progress bytes size loop) (iteration : loop.next? = some (next, block)) :
    Progress bytes size next ∧ bytes.take next.left = bytes.take loop.left ++ block := by
  obtain ⟨p, len, offset, left, copiedTotal⟩ := loop
  obtain ⟨zero, room, total, rest, within⟩ := progress
  dsimp only at zero room total rest within
  subst zero
  obtain rfl := total.symm
  cases p with
  | nil => contradiction
  | cons p chain =>
    rcases eq_or_ne len 0 with rfl | more
    · contradiction
    · simp only [CopyLoop.next?, if_neg more, ne_eq, not_true_eq_false, false_and, ite_false,
        Nat.sub_zero, List.drop_zero, Option.some.injEq, Prod.mk.injEq] at iteration
      obtain ⟨rfl, rfl⟩ := iteration
      have ahead := rest more
      rw [List.flatMap_cons] at ahead
      have covered : p.len ≤ bytes.length - left := by
        rw [← List.length_drop, ← ahead, List.length_append]
        exact Nat.le_add_right _ _
      refine ⟨⟨rfl, ?_, rfl, ?_, ?_⟩, ?_⟩
      · change len - min p.len len + (left + min p.len len) = size
        omega
      · intro unfilled
        change len - min p.len len ≠ 0 at unfilled
        have whole : min p.len len = p.payload.length := by
          change _ = p.len
          omega
        rw [whole, ← List.drop_drop, ← ahead, List.drop_left]
      · change left + min p.len len ≤ bytes.length
        omega
      · change bytes.take (left + min p.len len) = bytes.take left ++ _
        rw [List.take_add, ← ahead, List.take_append_of_le_length (Nat.min_le_left p.len len)]

/-- The loop ends with the message or with the buffer. -/
theorem Progress.ended {bytes : List Byte} {size : ℕ} {loop : CopyLoop}
    (progress : Progress bytes size loop) (ended : loop.next? = none) :
    loop.left = min bytes.length size := by
  obtain ⟨p, len, offset, left, copiedTotal⟩ := loop
  obtain ⟨zero, room, total, rest, within⟩ := progress
  dsimp only at zero room total rest within
  subst zero
  obtain rfl := total.symm
  change left = min bytes.length size
  rcases eq_or_ne len 0 with rfl | more
  · omega
  · cases p with
    | nil =>
      have past : bytes.length ≤ left := List.drop_eq_nil_iff.mp (rest more).symm
      omega
    | cons p chain => simp [CopyLoop.next?, more] at ended

theorem Progress.snd_finish {bytes : List Byte} {size fuel : ℕ} {loop : CopyLoop}
    (progress : Progress bytes size loop) (enough : loop.p.length ≤ fuel) (memory : ℕ → Byte) :
    (loop.finish fuel memory).2 = min bytes.length size := by
  induction fuel generalizing loop memory with
  | zero =>
    have empty : loop.p = [] := List.eq_nil_of_length_eq_zero (by omega)
    have ended : loop.next? = none := by rw [CopyLoop.next?, empty]
    exact progress.total.trans (progress.ended ended)
  | succ fuel ih =>
    rw [CopyLoop.finish]
    cases found : loop.next? with
    | none => exact progress.total.trans (progress.ended found)
    | some iteration =>
      obtain ⟨next, block⟩ := iteration
      have shorter := CopyLoop.next?_length found
      exact ih (progress.next found).1 (by omega) _

/-- The result of `netbuf_copy` is what fits. -/
theorem snd_netbufCopy (buf : Netbuf) (dataptr : ℕ → Byte) (len : ℕ) :
    (netbufCopy buf dataptr len).2 = min buf.totLen len := by
  rw [← length_bytes]
  exact (progress_copyLoop buf len).snd_finish le_rfl dataptr

/-- A datagram put over the beginning of one of the two buffers. -/
def overlay (base : Buffer → ℕ → Byte) (b : Buffer) (d : Datagram) (c : Buffer) : ℕ → Byte :=
  if c = b then splice (base c) 0 (d.buf.bytes.take sizeofBuffer) else base c

/-- The datagram is being copied over `base`. -/
structure Filling (base : Buffer → ℕ → Byte) (d : Datagram) (b : Buffer) (loop : CopyLoop)
    (speaker : Speaker) : Prop where
  progress : Progress d.buf.bytes sizeofBuffer loop
  contents : ∀ c, audioBytes speaker c =
    if c = b then splice (base c) 0 (d.buf.bytes.take loop.left) else base c

theorem audioBytes_memcpy (speaker : Speaker) (b c : Buffer) (left : ℕ) (u : UdpThread)
    (block : List Byte) : audioBytes (speaker.memcpy b left (u.tag block)) c =
      if c = b then splice (audioBytes speaker b) left block else audioBytes speaker c := by
  have values : (u.tag block).map Cell.value = block := by
    rw [UdpThread.tag, List.map_map]
    exact List.map_id block
  unfold audioBytes
  rw [Speaker.contents_memcpy]
  split_ifs with same
  · rw [map_splice, values]
  · rfl

section Filling

variable {base : Buffer → ℕ → Byte} {b : Buffer} {speaker : Speaker}

theorem filling_copyLoop (same : ∀ c, audioBytes speaker c = base c) :
    Filling base d b (d.buf.copyLoop sizeofBuffer) speaker := by
  refine ⟨progress_copyLoop d.buf sizeofBuffer, ?_⟩
  intro c
  rw [same]
  change _ = if _ then splice _ 0 (d.buf.bytes.take 0) else _
  rw [List.take_zero, splice_nil, ite_self]

theorem Filling.memcpy {loop next : CopyLoop} {block : List Byte}
    (filling : Filling base d b loop speaker) (iteration : loop.next? = some (next, block))
    (u : UdpThread) : Filling base d b next (speaker.memcpy b loop.left (u.tag block)) := by
  obtain ⟨progress, longer⟩ := filling.progress.next iteration
  refine ⟨progress, ?_⟩
  intro c
  have length : (d.buf.bytes.take loop.left).length = loop.left :=
    List.length_take_of_le filling.progress.within
  rw [audioBytes_memcpy, filling.contents b, filling.contents c, if_pos rfl, longer, splice_append, length,
    Nat.zero_add]
  split_ifs with same
  · rw [same]
  · rfl

theorem Filling.ended {loop : CopyLoop} (filling : Filling base d b loop speaker)
    (ended : loop.next? = none) (c : Buffer) : audioBytes speaker c = overlay base b d c := by
  have whole : d.buf.bytes.take loop.left = d.buf.bytes.take sizeofBuffer := by
    rw [filling.progress.ended ended, Nat.min_comm, ← List.take_take, List.take_length]
  rw [filling.contents, whole]
  rfl

end Filling

def parity : Buffer → ℕ
  | .buffer1 => 1
  | .buffer2 => 0

theorem parity_eq_iff {b c : Buffer} : parity c = parity b ↔ c = b := by
  cases b <;> cases c <;> simp [parity]

/-- What the buffers hold behind these datagrams. -/
def alternated (ds : List Datagram) (c : Buffer) : ℕ → Byte := overlaid (numbered (parity c) ds)

/-- The next datagram goes over the buffer of its parity. -/
theorem alternated_snoc {b : Buffer} (turn : (before.length + 1) % 2 = parity b) (c : Buffer) :
    alternated (before ++ [d]) c = overlay (alternated before) b d c := by
  rw [alternated, overlay, numbered_snoc, turn]
  rcases eq_or_ne c b with same | other
  · rw [if_pos same, if_pos (parity_eq_iff.mpr same.symm), overlaid_snoc]
    rfl
  · rw [if_neg other, if_neg (mt parity_eq_iff.mp other.symm), List.append_nil]
    rfl

/-- Each buffer holds the datagrams of its parity, and the flag shows the parity of their number. -/
structure Quiescent (ds : List Datagram) (speaker : Speaker) : Prop where
  flag : speaker.bufferFlag = decide (ds.length % 2 = 1)
  contents : ∀ c, audioBytes speaker c = alternated ds c

/-- The last of these datagrams has been copied, and the flag is about to be flipped. -/
structure Filled (ds : List Datagram) (b : Buffer) (speaker : Speaker) : Prop where
  turn : ds.length % 2 = parity b
  contents : ∀ c, audioBytes speaker c = alternated ds c

/-- What the datagrams received so far have come to, by the position of the thread. -/
def Stored (ds : List Datagram) (u : UdpThread) (speaker : Speaker) : Prop :=
  match u.pc with
  | .testFlag d => ∃ before, ds = before ++ [d] ∧ Quiescent before speaker
  | .copy b d loop => ∃ before, ds = before ++ [d] ∧ (before.length + 1) % 2 = parity b ∧
      Filling (alternated before) d b loop speaker
  | .failed b | .send b | .setFlag b => Filled ds b speaker
  | _ => Quiescent ds speaker

/-- The test of the flag chooses the buffer of the next parity. -/
theorem Quiescent.turn {speaker : Speaker} (quiescent : Quiescent before speaker) {flag : Bool}
    (same : speaker.bufferFlag = flag) :
    (before.length + 1) % 2 = parity (if flag = false then .buffer1 else .buffer2) := by
  rw [quiescent.flag] at same
  subst same
  split_ifs with even
  · change _ = 1
    simp only [decide_eq_false_iff_not] at even
    omega
  · change _ = 0
    simp only [decide_eq_false_iff_not, not_not] at even
    omega

theorem Filled.flip {b : Buffer} {speaker : Speaker} (filled : Filled ds b speaker) :
    Quiescent ds (speaker.setFlag (b == .buffer1)) := by
  constructor
  · change (b == .buffer1) = _
    rw [filled.turn]
    cases b <;> rfl
  · intro c
    rw [← filled.contents]
    unfold audioBytes
    rw [Speaker.contents_setFlag]

theorem audioBytes_congr {speaker later : Speaker} (same : later.contents = speaker.contents) :
    audioBytes later = audioBytes speaker := by
  unfold audioBytes
  rw [same]

theorem Quiescent.mono {speaker later : Speaker} (quiescent : Quiescent ds speaker)
    (flag : later.bufferFlag = speaker.bufferFlag) (same : later.contents = speaker.contents) :
    Quiescent ds later :=
  ⟨flag.trans quiescent.flag, by rw [audioBytes_congr same]; exact quiescent.contents⟩

theorem Filled.mono {b : Buffer} {speaker later : Speaker} (filled : Filled ds b speaker)
    (same : later.contents = speaker.contents) : Filled ds b later :=
  ⟨filled.turn, by rw [audioBytes_congr same]; exact filled.contents⟩

/-- The index does not matter. -/
theorem Stored.mono {u : UdpThread} {speaker later : Speaker} (stored : Stored ds u speaker)
    (flag : later.bufferFlag = speaker.bufferFlag) (same : later.contents = speaker.contents) :
    Stored ds u later := by
  unfold Stored at stored ⊢
  split at stored
  · obtain ⟨before, rfl, quiescent⟩ := stored
    exact ⟨before, rfl, quiescent.mono flag same⟩
  · obtain ⟨before, rfl, turn, filling⟩ := stored
    exact ⟨before, rfl, turn, filling.progress, by rw [audioBytes_congr same]; exact filling.contents⟩
  · exact stored.mono same
  · exact stored.mono same
  · exact stored.mono same
  · exact stored.mono flag same

def datagramOf : Event → Option Datagram
  | .udp (.recv d) => some d
  | _ => none

theorem receivedDatagrams_snoc (past : List Event) (e : Event) :
    receivedDatagrams (past ++ [e]) = receivedDatagrams past ++ (datagramOf e).toList := by
  rw [receivedDatagrams, filterMap_snoc]
  rfl

/-- One statement of `UDP_thread`. -/
private theorem stored_udp {label : UdpLabel} {udp : UdpThread} {world : World}
    (held : Stored ds s.udp s.world.speaker) (thread : UdpStep env s.udp label udp)
    (shared : s.world.udp env label = some world) :
    Stored (ds ++ (datagramOf (.udp label)).toList) udp world.speaker := by
  rw [(World.udp_frame shared).speaker]
  cases thread with
  | recv d here =>
    simp only [Stored, here] at held
    exact ⟨ds, rfl, held⟩
  | readFlag flag here =>
    simp only [Stored, here] at held
    obtain ⟨before, rfl, quiescent⟩ := held
    obtain ⟨same, _⟩ := World.udp_readFlag.mp shared
    exact ⟨before, List.append_nil _, quiescent.turn same, filling_copyLoop quiescent.contents⟩
  | memcpy here iteration =>
    simp only [Stored, here] at held
    obtain ⟨before, rfl, turn, filling⟩ := held
    exact ⟨before, List.append_nil _, turn, filling.memcpy iteration _⟩
  | @copied b d loop here ended =>
    simp only [Stored, here] at held
    obtain ⟨before, rfl, turn, filling⟩ := held
    have filled : Filled (before ++ [d]) b s.world.speaker := by
      refine ⟨by rw [List.length_append]; exact turn, ?_⟩
      intro c
      rw [filling.ended ended, alternated_snoc turn]
    simp only [Stored]
    split_ifs <;> exact (List.append_nil _).symm ▸ filled
  | failed here =>
    simp only [Stored, here] at held
    exact (List.append_nil ds).symm ▸ held.mono (Speaker.contents_clearIndex _)
  | send ok here =>
    simp only [Stored, here] at held
    exact (List.append_nil ds).symm ▸ held
  | setFlag here =>
    simp only [Stored, here] at held
    exact (List.append_nil ds).symm ▸ held.flip
  | reset here =>
    simp only [Stored, here] at held
    exact (List.append_nil ds).symm ▸ held.mono rfl (Speaker.contents_clearIndex _)
  | checkPort here | reg here step =>
    simp only [Stored, here] at held ⊢
    split_ifs <;> exact (List.append_nil ds).symm ▸ held
  | new ok here | usePort here | free here | bind ok here valid | invalidConn here invalid
  | recvErr here | delete here | pollEmpty here | pollTaken block here | close here =>
    simp only [Stored, here] at held
    exact (List.append_nil ds).symm ▸ held

theorem stored_step {e : Event} (unstarted : s.Unstarted) (held : Stored ds s.udp s.world.speaker)
    (step : System.Step env s e t) :
    Stored (ds ++ (datagramOf e).toList) t.udp t.world.speaker := by
  cases step with
  | udp thread shared => exact stored_udp held thread shared
  | udpInit here =>
    rw [unstarted.udp here] at held
    exact (List.append_nil ds).symm ▸ held
  | tcpInit | arrive => exact (List.append_nil ds).symm ▸ held
  | tcp thread shared =>
    change Stored (ds ++ []) s.udp (World.speaker _)
    rw [(World.tcp_frame shared).speaker, List.append_nil]
    exact held
  | pit0 =>
    exact (List.append_nil ds).symm ▸ held.mono rfl (Speaker.contents_pit0IrqHandler _)
  | post shared =>
    obtain ⟨_, _, _, rfl⟩ := World.post_eq.mp shared
    exact (List.append_nil ds).symm ▸ held

theorem stored_of_run {tape : List Event} (ran : (program env).run tape = some s) :
    Stored (receivedDatagrams tape) s.udp s.world.speaker := by
  refine history (m := program env)
    (P := fun tape s => Stored (receivedDatagrams tape) s.udp s.world.speaker) ?_ ?_ ran
  · refine ⟨rfl, ?_⟩
    intro c
    cases c <;> rfl
  · intro past s e t before held step
    rw [receivedDatagrams_snoc]
    exact stored_step (System.unstarted_of_reachable ⟨past, before⟩) held (System.step_eq_some_iff.mp step)

/-- The thread has not begun with a datagram, or it is behind the flip of the flag. -/
def Handled (u : UdpThread) : Prop :=
  match u.pc with
  | .testFlag _ | .copy _ _ _ | .failed _ | .send _ | .setFlag _ => False
  | _ => True

/-- Whenever a datagram has been handled, `buffer1` holds the odd-numbered ones and `buffer2` the
even-numbered ones, each byte from the last that reaches it, and the flag is the parity of their number. -/
theorem buffers_hold_received {tape : List Event} (ran : (program env).run tape = some s)
    (handled : Handled s.udp) :
    (∀ q < sizeofBuffer,
      (s.world.speaker.buffer1 q).value = lastByte (numbered 1 (receivedDatagrams tape)) q ∧
      (s.world.speaker.buffer2 q).value = lastByte (numbered 0 (receivedDatagrams tape)) q) ∧
    (s.world.speaker.bufferFlag = true ↔ Odd (receivedDatagrams tape).length) := by
  have quiescent : Quiescent (receivedDatagrams tape) s.world.speaker := by
    have stored := stored_of_run ran
    unfold Handled at handled
    unfold Stored at stored
    cases here : s.udp.pc <;> simp_all
  constructor
  · intro q within
    rw [← overlaid_eq_lastByte _ within, ← overlaid_eq_lastByte _ within]
    exact ⟨congrFun (quiescent.contents .buffer1) q, congrFun (quiescent.contents .buffer2) q⟩
  · rw [quiescent.flag, decide_eq_true_iff, Nat.odd_iff]

/-- A sample in two pbufs. -/
def twoPbufs : Datagram := ⟨⟨⟨[0x22], 0⟩, [⟨[0x0a], 0⟩]⟩, 50007, by decide⟩

/-- It is the second datagram, with an interrupt between its copies, and is not sent back. -/
def interruptedTape : List Event :=
  bootTape 60000000 ++ datagramTape 1 false ++ [.udp (.poll none), .arrive twoPbufs, .udp (.recv twoPbufs),
    .udp (.readFlag true), .udp (.memcpy .buffer2 0 [⟨0x22, some 2⟩]), .pit0,
    .udp (.memcpy .buffer2 1 [⟨0x0a, some 2⟩]), .udp (.copied 2), .udp (.send false), .udp (.setFlag false),
    .udp .clearIndex, .udp .delete]

theorem buffers_hold_received_two : ∃ s, (program board).run interruptedTape = some s ∧
    (s.world.speaker.buffer1 0).value = 0x10 ∧ (s.world.speaker.buffer1 1).value = 0x00 ∧
    (s.world.speaker.buffer2 0).value = 0x22 ∧ (s.world.speaker.buffer2 1).value = 0x0a ∧
    s.world.speaker.bufferFlag = false := by
  obtain ⟨s, ran, here⟩ : ∃ s, (program board).run interruptedTape = some s ∧ s.udp.pc = .poll :=
    ⟨_, rfl, rfl⟩
  have handled : Handled s.udp := by
    rw [Handled, here]
    trivial
  obtain ⟨bytes, flag⟩ := buffers_hold_received ran handled
  obtain ⟨odd, even⟩ := bytes 0 (by decide)
  obtain ⟨odd', even'⟩ := bytes 1 (by decide)
  exact ⟨s, ran, odd, odd', even, even', Bool.eq_false_iff.mpr fun set => absurd (flag.mp set) (by decide)⟩

end WirelessSpeakers.Soundness
