import WirelessSpeakers.Soundness.PortQueue

/-! # Who holds the blocks of the port selections

A block passes from `tcp_thread` through the queue to `UDP_thread`, which frees it. The number of
parties that hold a block is never more than one; it drops to zero, with the block still allocated, in
two places: where `xQueueSend` gives up and its result is not looked at, and where `UDP_thread`
overwrites the pointer to a block whose port is zero, which it does not free. Before the first
selection the pointer is null, and it is read all the same.
-/

namespace WirelessSpeakers.Soundness

open Model TapeMachine BoundedQueue

variable {env : Environment} {s t : System}

/-- `tcp_thread` holds the block between its allocation and the end of `xQueueSend`. -/
def tcpHolds (t : TcpThread) (b : PortBlock) : ℕ :=
  match t.pc with
  | .send block _ _ => if block = b then 1 else 0
  | _ => 0

/-- Whether `UDP_thread` has yet to free the block that `received_port` points to. A block with port
zero is never freed. -/
def unfreed (u : UdpThread) (b : PortBlock) : Bool :=
  match u.pc with
  | .close | .checkPort | .usePort | .freePort => true
  | _ => b.port = 0

/-- `UDP_thread` holds the block between its receive and its release. -/
def udpHolds (u : UdpThread) (b : PortBlock) : ℕ :=
  if u.receivedPort = some b ∧ unfreed u b = true then 1 else 0

/-- The number of parties that hold the block. -/
def holders (s : System) (b : PortBlock) : ℕ :=
  tcpHolds s.tcp b + s.world.portSelection.items.count b + udpHolds s.udp b

/-- A release of the block. -/
def releases (b : PortBlock) : Event → Bool
  | .udp (.free (some block)) => block = b
  | _ => false

/-- How often a run has freed the block. -/
def frees (tape : List Event) (b : PortBlock) : ℕ := tape.countP (releases b)

@[simp] theorem frees_snoc (past : List Event) (e : Event) (b : PortBlock) :
    frees (past ++ [e]) b = frees past b + (releases b e).toNat := by
  simp only [frees, List.countP_append, List.countP_singleton]
  cases releases b e <;> rfl

structure Owned (tape : List Event) (s : System) : Prop where
  fresh : ∀ b ∈ s.world.heap.live, b.token < s.world.heap.next
  single : ∀ b, holders s b ≤ 1
  live : ∀ b, 0 < holders s b → b ∈ s.world.heap.live
  freed : ∀ b, 0 < frees tape b → b ∉ s.world.heap.live ∧ b.token < s.world.heap.next
  once : ∀ b, s.udp.receivedPort = some b → unfreed s.udp b = false → frees tape b = 1
  used : s.udp.pc = .usePort ∨ s.udp.pc = .freePort →
    ∀ b, s.udp.receivedPort = some b → b.port ≠ 0
  null : s.udp.pc = .absent ∨ s.udp.pc = .start → s.udp.receivedPort = none

/-- A step under which no block gains a holder and none is allocated or freed. -/
private theorem Owned.fewer {past : List Event} {e : Event} (held : Owned past s)
    (heap : t.world.heap = s.world.heap) (fewer : ∀ b, holders t b ≤ holders s b)
    (kept : ∀ b, releases b e = false)
    (once : ∀ b, t.udp.receivedPort = some b → unfreed t.udp b = false → frees past b = 1)
    (used : t.udp.pc = .usePort ∨ t.udp.pc = .freePort →
      ∀ b, t.udp.receivedPort = some b → b.port ≠ 0)
    (null : t.udp.pc = .absent ∨ t.udp.pc = .start → t.udp.receivedPort = none) :
    Owned (past ++ [e]) t := by
  have same : ∀ b, frees (past ++ [e]) b = frees past b := by
    intro b
    rw [frees_snoc, kept b]
    rfl
  constructor
  · rw [heap]
    exact held.fresh
  · exact fun b => (fewer b).trans (held.single b)
  · intro b holds
    rw [heap]
    exact held.live b (holds.trans_le (fewer b))
  · intro b freed
    rw [same] at freed
    rw [heap]
    exact held.freed b freed
  · intro b pointed freed
    rw [same]
    exact once b pointed freed
  · exact used
  · exact null

/-- The step takes the block from its holder: by a release, by overwriting the pointer to a block with
port zero, or by giving up the send. -/
def Loses (s : System) (e : Event) (b : PortBlock) : Prop :=
  match e with
  | .udp (.free block) => block = some b
  | .udp (.poll (some _)) => s.udp.receivedPort = some b ∧ b.port = 0
  | .tcp (.send block false) => block = b
  | _ => False

/-- What every step does: it keeps the invariant, and no other block loses its holder. -/
structure Moves (past : List Event) (s : System) (e : Event) (t : System) : Prop where
  owned : Owned (past ++ [e]) t
  keeps : ∀ b, holders s b ≤ holders t b ∨ Loses s e b
  allocated : ∀ b ∈ t.world.heap.live,
    b ∈ s.world.heap.live ∧ releases b e = false ∨ 0 < holders t b

/-- `UDP_thread` moves on without touching a block. -/
private theorem Owned.passes {past : List Event} {label : UdpLabel} {udp : UdpThread} {world : World}
    (held : Owned past s) (shared : s.world.udp env label = some world)
    (received : udp.receivedPort = s.udp.receivedPort)
    (position : ∀ b, s.udp.receivedPort = some b → unfreed udp b = unfreed s.udp b)
    (heap : world.heap = s.world.heap) (kept : ∀ b, releases b (.udp label) = false)
    (polls : ∀ block, label ≠ .poll (some block))
    (used : udp.pc = .usePort ∨ udp.pc = .freePort → ∀ b, s.udp.receivedPort = some b → b.port ≠ 0)
    (null : udp.pc = .absent ∨ udp.pc = .start → s.udp.receivedPort = none) :
    Moves past s (.udp label) { s with udp, world } := by
  have same : ∀ b, holders { s with udp, world } b = holders s b := by
    intro b
    have holds : udpHolds udp b = udpHolds s.udp b := by
      by_cases pointed : s.udp.receivedPort = some b
      · simp only [udpHolds, received, pointed, position b pointed]
      · simp only [udpHolds, received, pointed, false_and]
    simp only [holders, (World.udp_frame shared).portSelection polls, holds]
  refine ⟨held.fewer heap (fun b => (same b).le) kept ?_ (received ▸ used) (received ▸ null),
    fun b => .inl (same b).ge, fun b member => .inl ⟨heap ▸ member, kept b⟩⟩
  · intro b pointed freed
    change udp.receivedPort = some b at pointed
    rw [received] at pointed
    exact held.once b pointed ((position b pointed).symm.trans freed)

/-- The block that is to be freed is live, held by `UDP_thread` alone and not freed yet. -/
private theorem Owned.toFree {past : List Event} {b : PortBlock} (held : Owned past s)
    (here : s.udp.pc = .freePort) (received : s.udp.receivedPort = some b) :
    b.port ≠ 0 ∧ b ∈ s.world.heap.live ∧ frees past b = 0 ∧
      tcpHolds s.tcp b + s.world.portSelection.items.count b = 0 := by
  have holds : udpHolds s.udp b = 1 := by simp [udpHolds, received, unfreed, here]
  have alone := held.single b
  simp only [holders, holds] at alone
  have member : b ∈ s.world.heap.live := held.live b (by simp only [holders, holds]; omega)
  refine ⟨held.used (.inr here) b received, member, ?_, by omega⟩
  by_contra freed
  exact (held.freed b (Nat.pos_of_ne_zero freed)).1 member

/-- The invariant behind the release of a block. -/
private theorem Owned.released {past : List Event} {b : PortBlock} {world : World} (held : Owned past s)
    (here : s.udp.pc = .freePort) (received : s.udp.receivedPort = some b)
    (heap : world.heap = s.world.heap.free b)
    (queue : world.portSelection = s.world.portSelection) :
    Owned (past ++ [.udp (.free (some b))]) { s with udp := { s.udp with pc := .bind }, world } := by
  obtain ⟨nonzero, member, unfreedYet, alone⟩ := held.toFree here received
  have done : ∀ c, udpHolds { s.udp with pc := .bind } c = 0 := by
    intro c
    apply if_neg
    rintro ⟨same, zero⟩
    cases received.symm.trans same
    exact nonzero (of_decide_eq_true zero)
  have fewer : ∀ c, tcpHolds s.tcp c + s.world.portSelection.items.count c + 0 ≤ holders s c :=
    fun c => by simp only [holders]; omega
  constructor
  · rw [heap]
    exact fun c live => held.fresh c (List.mem_filter.mp live).1
  · intro c
    simp only [holders, done, queue]
    exact (fewer c).trans (held.single c)
  · intro c holds
    simp only [holders, done, queue] at holds
    rw [heap]
    refine List.mem_filter.mpr ⟨held.live c (holds.trans_le (fewer c)), ?_⟩
    simp only [ne_eq, decide_not, Bool.not_eq_eq_eq_not, Bool.not_true, decide_eq_false_iff_not]
    rintro rfl
    omega
  · intro c freed
    rw [heap]
    simp only [frees_snoc, releases] at freed
    by_cases same : b = c
    · subst same
      exact ⟨by simp [Heap.free], held.fresh b member⟩
    · obtain ⟨dead, old⟩ := held.freed c (by simpa [same] using freed)
      exact ⟨fun live => dead (List.mem_filter.mp live).1, old⟩
  · intro c pointed _
    cases received.symm.trans pointed
    simp [frees_snoc, releases, unfreedYet]
  · simp
  · simp

/-- The release of a block, which has been read and is not zero. -/
private theorem Owned.free {past : List Event} {b : PortBlock} {world : World} (held : Owned past s)
    (here : s.udp.pc = .freePort) (received : s.udp.receivedPort = some b)
    (shared : s.world.udp env (.free s.udp.receivedPort) = some world) :
    Moves past s (.udp (.free s.udp.receivedPort))
      { s with udp := { s.udp with pc := .bind }, world } := by
  rw [received] at shared ⊢
  cases shared
  refine ⟨held.released here received rfl rfl, ?_, ?_⟩
  · intro c
    by_cases same : b = c
    · exact .inr (by rw [Loses, same])
    · left
      have other : udpHolds s.udp c = 0 :=
        if_neg fun here => same (Option.some.inj (received.symm.trans here.1))
      simp only [holders, other]
      omega
  · intro c live
    obtain ⟨old, other⟩ := List.mem_filter.mp live
    refine .inl ⟨old, ?_⟩
    simp only [releases, decide_eq_false_iff_not]
    rintro rfl
    simp at other

/-- The receive of a block overwrites the pointer. -/
private theorem Owned.poll {past : List Event} {b : PortBlock} {world : World} (held : Owned past s)
    (here : s.udp.pc = .poll) (shared : s.world.udp env (.poll (some b)) = some world) :
    Moves past s (.udp (.poll (some b)))
      { s with udp := { s.udp with pc := .close, receivedPort := some b }, world } := by
  obtain ⟨rest, received, rfl⟩ := World.udp_pollTaken.mp shared
  have items := receive?_eq_some_iff.mp received
  refine ⟨held.fewer rfl ?_ (fun _ => rfl) ?_ (by simp) (by simp), ?_,
    fun c member => .inl ⟨member, rfl⟩⟩
  · intro c
    simp only [holders, udpHolds, unfreed, items, List.count_cons, and_true, Option.some.injEq]
    by_cases same : b = c
    · simp only [same, BEq.rfl, if_true]
      omega
    · simp only [same, beq_iff_eq, if_false]
      omega
  · intro c _ freed
    contradiction
  · intro c
    by_cases pointed : s.udp.receivedPort = some c ∧ c.port = 0
    · exact .inr pointed
    · left
      have unheld : udpHolds s.udp c = 0 := if_neg (by simpa [unfreed, here] using pointed)
      simp only [holders, unheld, items, List.count_cons, beq_iff_eq]
      simp only [udpHolds, unfreed, Option.some.injEq, and_true]
      omega

private theorem moves_udp {past : List Event} {label : UdpLabel} {udp : UdpThread} {world : World}
    (held : Owned past s) (thread : UdpStep env s.udp label udp)
    (shared : s.world.udp env label = some world) :
    Moves past s (.udp label) { s with udp, world } := by
  have heap := (World.udp_frame shared).heap
  cases thread with
  | free here =>
    rcases Option.eq_none_or_eq_some s.udp.receivedPort with null | ⟨b, received⟩
    · refine held.passes shared rfl ?_ ?_ ?_ (by simp) (by simp) (by simp)
      · intro b pointed
        rw [null] at pointed
        contradiction
      · rw [null] at shared
        cases shared
        rfl
      · simp [releases, null]
    · exact held.free here received shared
  | pollTaken b here => exact held.poll here shared
  | new ok here =>
    have null := held.null (.inr here)
    refine held.passes shared rfl ?_ (heap (by simp)) (fun _ => rfl) (by simp) (by simp) (by simp)
    intro b pointed
    rw [null] at pointed
    contradiction
  | checkPort here =>
    refine held.passes shared rfl ?_ (heap (by simp)) (fun _ => rfl) (by simp) ?_ ?_
    · intro b pointed
      have value : s.udp.portValue env = b.port := by rw [UdpThread.portValue, pointed]
      by_cases zero : b.port = 0
      · simp [unfreed, here, value, zero]
      · rw [value, if_pos zero]
        simp only [unfreed, here]
    · intro selected b pointed zero
      have value : s.udp.portValue env = b.port := by rw [UdpThread.portValue, pointed]
      rw [value, zero] at selected
      simp at selected
    · split_ifs <;> simp
  | usePort here =>
    refine held.passes shared rfl ?_ (heap (by simp)) (fun _ => rfl) (by simp)
      (fun _ => held.used (.inl here)) (by simp)
    simp [unfreed, here]
  | close here =>
    refine held.passes shared rfl ?_ (heap (by simp)) (fun _ => rfl) (by simp) (by simp) (by simp)
    simp [unfreed, here]
  | reg here step =>
    refine held.passes shared rfl ?_ (heap (by simp)) (fun _ => rfl) (by simp) ?_ ?_ <;> split_ifs <;>
      simp [unfreed, here]
  | copied here ended =>
    refine held.passes shared rfl ?_ (heap (by simp)) (fun _ => rfl) (by simp) ?_ ?_ <;> split_ifs <;>
      simp [unfreed, here]
  | bind ok here valid | invalidConn here invalid | recv d here | recvErr here
  | readFlag flag here | memcpy here iteration | failed here | send ok here | setFlag here
  | reset here | delete here | pollEmpty here =>
    refine held.passes shared rfl ?_ (heap (by simp)) (fun _ => rfl) (by simp) (by simp) (by simp)
    simp [unfreed, here]

/-- `tcp_thread` moves on, and keeps what it holds or gives it to the queue. -/
private theorem Owned.gives {past : List Event} {label : TcpLabel} {tcp : TcpThread} {world : World}
    (held : Owned past s) (heap : world.heap = s.world.heap)
    (same : ∀ b, tcpHolds tcp b + world.portSelection.items.count b =
      tcpHolds s.tcp b + s.world.portSelection.items.count b) :
    Moves past s (.tcp label) { s with tcp, world } := by
  have equal : ∀ b, holders { s with tcp, world } b = holders s b :=
    fun b => congrArg (· + udpHolds s.udp b) (same b)
  exact ⟨held.fewer heap (fun b => (equal b).le) (fun _ => rfl) held.once held.used held.null,
    fun b => .inl (equal b).ge, fun b member => .inl ⟨heap ▸ member, rfl⟩⟩

/-- A refused block is forgotten. -/
private theorem Owned.refused {past : List Event} {b : PortBlock} {rest : List Pbuf} {world : World}
    (held : Owned past s) (here : s.tcp.pc = .send b 0 rest)
    (shared : s.world.tcp (.send b false) = some world) :
    Moves past s (.tcp (.send b false)) { s with tcp := tcpMainMenu s.tcp rest, world } := by
  obtain ⟨_, rfl⟩ := World.tcp_refused.mp shared
  refine ⟨held.fewer rfl ?_ (fun _ => rfl) held.once held.used held.null, ?_,
    fun c member => .inl ⟨member, rfl⟩⟩
  · intro c
    have nothing : tcpHolds (tcpMainMenu s.tcp rest) c = 0 := rfl
    simp only [holders, nothing]
    omega
  · intro c
    by_cases same : b = c
    · exact .inr same
    · left
      have nothing : tcpHolds s.tcp c = 0 := by simp only [tcpHolds, here, if_neg same]
      simp only [holders, nothing]
      omega

/-- The invariant behind an allocation: the new block has a token that no block has had before. -/
private theorem Owned.allocated {past : List Event} {b : PortBlock} (held : Owned past s)
    (token : b.token = s.world.heap.next) (udp : t.udp = s.udp)
    (heap : t.world.heap = ⟨s.world.heap.next + 1, s.world.heap.live ++ [b]⟩)
    (gains : ∀ c, holders t c = holders s c + if b = c then 1 else 0) :
    Owned (past ++ [.tcp (.malloc b)]) t := by
  have unheld : holders s b = 0 := by
    by_contra holds
    have := held.fresh b (held.live b (Nat.pos_of_ne_zero holds))
    omega
  constructor
  · rw [heap]
    intro c member
    rcases List.mem_append.mp member with old | new
    · exact Nat.lt_succ_of_lt (held.fresh c old)
    · rw [List.mem_singleton.mp new, token]
      exact Nat.lt_succ_self _
  · intro c
    rw [gains]
    split_ifs with same
    · rw [← same, unheld]
    · exact held.single c
  · intro c holds
    rw [gains] at holds
    rw [heap]
    apply List.mem_append.mpr
    by_cases same : b = c
    · exact .inr (List.mem_singleton.mpr same.symm)
    · exact .inl (held.live c (by simpa [same] using holds))
  · intro c freed
    obtain ⟨dead, old⟩ := held.freed c (by simpa [releases] using freed)
    rw [heap]
    refine ⟨fun member => ?_, Nat.lt_succ_of_lt old⟩
    rcases List.mem_append.mp member with live | new
    · exact dead live
    · rw [List.mem_singleton.mp new] at old
      omega
  · intro c pointed freed
    rw [udp] at pointed freed
    simpa [releases] using held.once c pointed freed
  · rw [udp]
    exact held.used
  · rw [udp]
    exact held.null

private theorem Owned.malloc {past : List Event} {b : PortBlock} {world : World} {tcp : TcpThread}
    (held : Owned past s) (before : ∀ c, tcpHolds s.tcp c = 0)
    (after : ∀ c, tcpHolds tcp c = if b = c then 1 else 0)
    (shared : s.world.tcp (.malloc b) = some world) :
    Moves past s (.tcp (.malloc b)) { s with tcp, world } := by
  obtain ⟨token, rfl⟩ := World.tcp_malloc.mp shared
  have gains : ∀ c, holders { s with tcp, world := { s.world with
      heap := ⟨s.world.heap.next + 1, s.world.heap.live ++ [b]⟩ } } c =
      holders s c + if b = c then 1 else 0 := by
    intro c
    simp only [holders, before, after]
    omega
  refine ⟨held.allocated token rfl rfl gains, fun c => .inl (by rw [gains]; omega), ?_⟩
  intro c member
  rcases List.mem_append.mp member with old | new
  · exact .inl ⟨old, rfl⟩
  · right
    rw [gains, if_pos (List.mem_singleton.mp new).symm]
    omega

private theorem moves_tcp {past : List Event} {label : TcpLabel} {tcp : TcpThread} {world : World}
    (held : Owned past s) (thread : TcpStep s.tcp label tcp)
    (shared : s.world.tcp label = some world) : Moves past s (.tcp label) { s with tcp, world } := by
  have frame := World.tcp_frame shared
  cases thread with
  | malloc b here stored =>
    exact held.malloc (fun c => by simp [tcpHolds, here]) (fun c => rfl) shared
  | @sent b ticks rest here =>
    obtain ⟨queue, accepted, rfl⟩ := World.tcp_sent.mp shared
    obtain ⟨_, items⟩ := send?_eq_some_iff.mp accepted
    refine held.gives rfl fun c => ?_
    simp only [tcpHolds, tcpMainMenu, here, items, List.count_append, List.count_singleton, beq_iff_eq]
    omega
  | timeout here => exact held.refused here shared
  | tick here =>
    obtain ⟨_, rfl⟩ := World.tcp_tick.mp shared
    exact held.gives rfl fun c => by simp only [tcpHolds, here]
  | @switch p rest here =>
    refine held.gives (frame.heap (by simp)) fun c => ?_
    rw [frame.portSelection (by simp)]
    unfold tcpSwitch
    split_ifs <;> simp [tcpHolds, here]
  | @write chunk chunks k here =>
    refine held.gives (frame.heap (by simp)) fun c => ?_
    rw [frame.portSelection (by simp)]
    split_ifs
    · cases k <;> simp [tcpHolds, here, Continuation.resume]
    · simp [tcpHolds, here]
  | listen ok here | accept here | reg here step =>
    refine held.gives (frame.heap (by simp)) fun c => ?_
    rw [frame.portSelection (by simp)]
    split_ifs <;> simp [tcpHolds, here]
  | refused here =>
    refine held.gives (frame.heap (by simp)) fun c => ?_
    rw [frame.portSelection (by simp)]
  | clearBits here | setBits here | recv buf here | recvReply buf here | recvErr here | replyErr here
  | setMusicState here | deleteForReply here | delete here | readPort garbage here port
  | readX garbage here back | status values here | freeStatus here | last here | next here
  | close here | deleteConn here =>
    refine held.gives (frame.heap (by simp)) fun c => ?_
    rw [frame.portSelection (by simp)]
    simp [tcpHolds, tcpMainMenu, here]

theorem moves_step {past : List Event} {e : Event} (unstarted : s.Unstarted) (held : Owned past s)
    (step : System.Step env s e t) : Moves past s e t := by
  have others : ∀ e t, (∀ b, releases b e = false) → t.world.heap = s.world.heap → t.udp = s.udp →
      (∀ b, holders t b = holders s b) → Moves past s e t := by
    intro e t kept heap udp same
    exact ⟨held.fewer heap (fun b => (same b).le) kept (udp ▸ held.once) (udp ▸ held.used)
      (udp ▸ held.null), fun b => .inl (same b).ge, fun b member => .inl ⟨heap ▸ member, kept b⟩⟩
  cases step with
  | udp thread shared => exact moves_udp held thread shared
  | tcp thread shared => exact moves_tcp held thread shared
  | udpInit here =>
    have null := held.null (by rw [unstarted.udp here]; simp)
    have same : ∀ b, holders { s with stackInit := .tcpInit, udp := { s.udp with pc := .start } } b =
        holders s b := by simp [holders, udpHolds, null]
    exact ⟨held.fewer rfl (fun b => (same b).le) (fun _ => rfl) (by simp [null]) (by simp)
      (fun _ => null), fun b => .inl (same b).ge, fun b member => .inl ⟨member, rfl⟩⟩
  | tcpInit here =>
    refine others .stackInit _ (fun _ => rfl) rfl rfl ?_
    intro b
    simp [holders, tcpHolds, unstarted.tcp, here]
  | pit0 => exact others .pit0 _ (fun _ => rfl) rfl rfl (fun _ => rfl)
  | arrive d => exact others (.arrive d) _ (fun _ => rfl) rfl rfl (fun _ => rfl)
  | post shared =>
    obtain ⟨_, _, _, rfl⟩ := World.post_eq.mp shared
    exact others (.post _) _ (fun _ => rfl) rfl rfl (fun _ => rfl)

theorem owned_of_run {tape : List Event} (ran : (program env).run tape = some s) : Owned tape s := by
  refine history (m := program env) ?_ ?_ ran
  · constructor <;> simp [program, holders, tcpHolds, udpHolds, frees, empty]
  · intro past s e t before held step
    exact (moves_step (System.unstarted_of_reachable ⟨past, before⟩) held
      (System.step_eq_some_iff.mp step)).owned

/-- `received_port` never points to a block that is still in the queue, freed or not. -/
theorem Owned.received_ne {past : List Event} {b : PortBlock} (held : Owned past s)
    (queued : b ∈ s.world.portSelection.items) : s.udp.receivedPort ≠ some b := by
  intro pointed
  have inQueue := List.count_pos_iff.mpr queued
  have single := held.single b
  have live := held.live b (by simp only [holders]; omega)
  cases unfreed : unfreed s.udp b with
  | true =>
    have holds : udpHolds s.udp b = 1 := if_pos ⟨pointed, unfreed⟩
    simp only [holders, holds] at single
    omega
  | false =>
    have freed := held.once b pointed unfreed
    exact (held.freed b (by omega)).1 live

/-- Every block that is not freed is held by exactly one party. -/
def HeldByOne (env : Environment) (tape : List Event) : Prop :=
  ∀ s, (program env).Visits tape s → ∀ b ∈ s.world.heap.live, holders s b = 1

/-- `received_port` is read only while it points to a block that is not freed. -/
def ReadsHeld (env : Environment) (tape : List Event) : Prop :=
  ∀ s value, (program env).Takes tape s (.udp (.readPort value)) →
    ∃ b ∈ s.world.heap.live, s.udp.receivedPort = some b

/-- Where `received_port` is overwritten, the block it pointed to has been freed exactly once. -/
def FreesOnce (env : Environment) (tape : List Event) : Prop :=
  ∀ past s b next, past ++ [.udp (.poll (some next))] <+: tape → (program env).run past = some s →
    s.udp.receivedPort = some b → frees past b = 1

/-- No send of a block is given up. -/
def SendsAccepted (env : Environment) (tape : List Event) : Prop :=
  ∀ s b, ¬ (program env).Takes tape s (.tcp (.send b false))

/-- No selection is taken while `received_port` points to a block with port zero. -/
def NoZeroOverwritten (env : Environment) (tape : List Event) : Prop :=
  ∀ s b next, (program env).Takes tape s (.udp (.poll (some next))) →
    s.udp.receivedPort = some b → b.port ≠ 0

/-- A block that loses its holder and is not freed stays behind without one. -/
private theorem orphan {past : List Event} {e : Event} {b : PortBlock} (held : Owned past s)
    (step : System.Step env s e t) (loses : Loses s e b) (kept : ∀ c, e ≠ .udp (.free c)) :
    b ∈ t.world.heap.live ∧ holders t b = 0 := by
  cases step with
  | @udp label udp world thread shared =>
    cases thread with
    | free here => exact absurd rfl (kept _)
    | pollTaken next here =>
      obtain ⟨rest, received, rfl⟩ := World.udp_pollTaken.mp shared
      have items := receive?_eq_some_iff.mp received
      obtain ⟨pointed, zero⟩ := loses
      have holds : udpHolds s.udp b = 1 := by simp [udpHolds, pointed, unfreed, here, zero]
      have single := held.single b
      have member := held.live b (by simp only [holders, holds]; omega)
      simp only [holders, holds, items, List.count_cons, beq_iff_eq] at single
      refine ⟨member, ?_⟩
      simp only [holders]
      simp only [udpHolds, unfreed, Option.some.injEq, and_true]
      omega
    | _ => contradiction
  | @tcp label tcp world thread shared =>
    cases thread with
    | @timeout _ rest here =>
      obtain ⟨_, rfl⟩ := World.tcp_refused.mp shared
      cases loses
      have holds : tcpHolds s.tcp b = 1 := by simp [tcpHolds, here]
      have single := held.single b
      have member := held.live b (by simp only [holders, holds]; omega)
      simp only [holders, holds] at single
      refine ⟨member, ?_⟩
      have nothing : tcpHolds (tcpMainMenu s.tcp rest) b = 0 := rfl
      simp only [holders, nothing]
      omega
    | _ => contradiction
  | _ => contradiction

/-- If only releases take a block from its holder, every allocated block keeps one. -/
private theorem heldByOne_step {past : List Event} {e : Event} (moves : Moves past s e t)
    (held : ∀ b ∈ s.world.heap.live, holders s b = 1)
    (spared : ∀ b, Loses s e b → releases b e = true) :
    ∀ b ∈ t.world.heap.live, holders t b = 1 := by
  intro b member
  have single := moves.owned.single b
  rcases moves.allocated b member with ⟨old, kept⟩ | holds
  · have before := held b old
    rcases moves.keeps b with more | loses
    · omega
    · rw [spared b loses] at kept
      contradiction
  · omega

theorem heldByOne_iff {tape : List Event} {u : System} (ran : (program env).run tape = some u) :
    HeldByOne env tape ↔ SendsAccepted env tape ∧ NoZeroOverwritten env tape := by
  constructor
  · intro held
    have lossless : ∀ s e b, (program env).Takes tape s e → Loses s e b → (∀ c, e ≠ .udp (.free c)) →
        False := by
      intro s e b taken loses kept
      obtain ⟨t, step, visit⟩ := taken.result ran
      obtain ⟨past, _, before⟩ := taken
      obtain ⟨member, none⟩ :=
        orphan (owned_of_run before) (System.step_eq_some_iff.mp step) loses kept
      have one := held t visit b member
      omega
    constructor
    · intro s b taken
      exact lossless s _ b taken rfl (by simp)
    · intro s b next taken pointed zero
      exact lossless s _ b taken ⟨pointed, zero⟩ (by simp)
  · rintro ⟨accepted, nonzero⟩ s visit
    refine along (m := program env) (P := fun s => ∀ b ∈ s.world.heap.live, holders s b = 1)
      (by simp [program]) ?_ visit
    intro s e t held taken step
    obtain ⟨past, initial, before⟩ := taken
    refine heldByOne_step (moves_step (System.unstarted_of_reachable ⟨past, before⟩)
      (owned_of_run before) (System.step_eq_some_iff.mp step)) held ?_
    intro b loses
    unfold Loses at loses
    split at loses
    · simp [releases, loses]
    · exact absurd loses.2 (nonzero s b _ ⟨past, initial, before⟩ loses.1)
    · exact absurd ⟨past, initial, before⟩ (accepted s _)
    · contradiction

/-- Up to its first read, the thread has no block. -/
private def Unread (s : System) : Prop :=
  s.udp.receivedPort = none ∧
    (s.udp.pc = .absent ∨ s.udp.pc = .start ∨ s.udp.pc = .checkPort)

private theorem unread_step {e : Event} (held : Unread s) (step : System.Step env s e t)
    (unread : ∀ value, e ≠ .udp (.readPort value)) : Unread t := by
  obtain ⟨null, here⟩ := held
  cases step with
  | udpInit _ => exact ⟨null, .inr (.inl rfl)⟩
  | udp thread shared =>
    cases thread with
    | new ok _ => exact ⟨null, .inr (.inr rfl)⟩
    | checkPort _ => exact absurd rfl (unread _)
    | _ => simp_all
  | _ => exact ⟨null, here⟩

/-- The first read of all goes through the null pointer. -/
theorem readsHeld_iff {tape : List Event} :
    ReadsHeld env tape ↔ ∀ s value, ¬ (program env).Takes tape s (.udp (.readPort value)) := by
  constructor
  · intro held s value taken
    have unread : Unread s := by
      refine along (m := program env) ⟨rfl, .inl rfl⟩ ?_ taken.visits
      intro s e t before taken step
      apply unread_step before (System.step_eq_some_iff.mp step)
      rintro value rfl
      obtain ⟨b, _, pointed⟩ := held s value taken
      rw [before.1] at pointed
      contradiction
    obtain ⟨b, _, pointed⟩ := held s value taken
    rw [unread.1] at pointed
    contradiction
  · intro never s value taken
    exact absurd taken (never s value)

theorem freesOnce_iff {tape : List Event} {u : System} (ran : (program env).run tape = some u) :
    FreesOnce env tape ↔ NoZeroOverwritten env tape := by
  have polling : ∀ s next, (program env).Takes tape s (.udp (.poll (some next))) →
      s.udp.pc = .poll := by
    intro s next taken
    obtain ⟨t, step, _⟩ := taken.result ran
    cases System.step_eq_some_iff.mp step with
    | udp thread shared =>
      cases thread with
      | pollTaken next here => exact here
  constructor
  · rintro once s b next taken pointed zero
    have here := polling s next taken
    obtain ⟨past, initial, before⟩ := taken
    have owned := owned_of_run before
    have freed := once past s b next initial before pointed
    have holds : udpHolds s.udp b = 1 := by simp [udpHolds, pointed, unfreed, here, zero]
    have member := owned.live b (by simp only [holders, holds]; omega)
    exact (owned.freed b (by omega)).1 member
  · intro nonzero past s b next initial before pointed
    have taken : (program env).Takes tape s (.udp (.poll (some next))) := ⟨past, initial, before⟩
    have freed : unfreed s.udp b = false := by
      simpa [unfreed, polling s next taken] using nonzero s b next taken pointed
    exact (owned_of_run before).once b pointed freed

/-- The ownership discipline, part by part: every block is held by exactly one party as long as no send
is given up and no pointer to a block with port zero is overwritten; `UDP_thread` reads without
holding a block as soon as it reads at all; it frees exactly the blocks whose port is not zero. -/
theorem ownership_iff {tape : List Event} {u : System} (ran : (program env).run tape = some u) :
    (HeldByOne env tape ↔ SendsAccepted env tape ∧ NoZeroOverwritten env tape) ∧
    (ReadsHeld env tape ↔ ∀ s value, ¬ (program env).Takes tape s (.udp (.readPort value))) ∧
    (FreesOnce env tape ↔ NoZeroOverwritten env tape) :=
  ⟨heldByOne_iff ran, readsHeld_iff, freesOnce_iff ran⟩

/-- Behind the selection of port 0, the client selects port 50001, and the next datagram makes
`UDP_thread` take it. -/
def overwrite0 : List Event :=
  apply0 ++ [.udp (.bind 50007 true)] ++ audioConfigTape 60000000 3 ++
    selectTape (portReply [0x35, 0x30, 0x30, 0x30, 0x31]) ⟨1, 50001⟩
      [.tcp (.send ⟨1, 50001⟩ true)] ++
    datagramTape 2 true ++ [.udp (.poll (some ⟨1, 50001⟩))]

set_option maxRecDepth 4096 in
theorem ownership_overwrite0 : ¬ HeldByOne board overwrite0 ∧ ¬ ReadsHeld board overwrite0 ∧
    ¬ FreesOnce board overwrite0 := by
  obtain ⟨held, reads, frees⟩ := @ownership_iff board overwrite0 _ rfl
  have overwritten : ¬ NoZeroOverwritten board overwrite0 := by
    intro nonzero
    have taken : ∃ s, (program board).Takes overwrite0 s (.udp (.poll (some ⟨1, 50001⟩))) ∧
        s.udp.receivedPort = some ⟨0, 0⟩ := ⟨_, ⟨overwrite0.dropLast, List.prefix_rfl, rfl⟩, rfl⟩
    obtain ⟨s, taken, pointed⟩ := taken
    exact nonzero s ⟨0, 0⟩ _ taken pointed rfl
  have read : ∃ s, (program board).Takes overwrite0 s (.udp (.readPort 0)) :=
    ⟨_, overwrite0.take 2, ⟨overwrite0.drop 3, rfl⟩, rfl⟩
  obtain ⟨s, read⟩ := read
  exact ⟨fun h => overwritten (held.mp h).2, fun h => reads.mp h s 0 read,
    fun h => overwritten (frees.mp h)⟩

set_option maxRecDepth 4096 in
theorem not_ownership : ¬ (∀ env tape, HeldByOne env tape) ∧ ¬ (∀ env tape, ReadsHeld env tape) ∧
    ¬ ∀ env tape, FreesOnce env tape := by
  refine ⟨fun held => ?_, fun reads => ?_, fun once => ?_⟩
  · have ran : ∃ s, (program board).run overwrite0 = some s ∧
        s.world.heap.live = [⟨0, 0⟩, ⟨1, 50001⟩] ∧ holders s ⟨0, 0⟩ = 0 := ⟨_, rfl, rfl, rfl⟩
    obtain ⟨s, ran, live, none⟩ := ran
    have one := held board overwrite0 s (visits_of_run ran) ⟨0, 0⟩ (by rw [live]; decide)
    omega
  · have taken : ∃ s, (program board).Takes overwrite0 s (.udp (.readPort 0)) ∧
        s.world.heap.live = [] := ⟨_, ⟨overwrite0.take 2, ⟨overwrite0.drop 3, rfl⟩, rfl⟩, rfl⟩
    obtain ⟨s, taken, empty⟩ := taken
    obtain ⟨b, member, _⟩ := reads board overwrite0 s 0 taken
    rw [empty] at member
    contradiction
  · have never : frees overwrite0.dropLast ⟨0, 0⟩ = 1 :=
      once board overwrite0 overwrite0.dropLast _ ⟨0, 0⟩ _ List.prefix_rfl rfl rfl
    contradiction

end WirelessSpeakers.Soundness
