import WirelessSpeakers.Soundness.UdpPcb

/-! # Who gets a datagram

Over all orders of the calls of `udp.c`, `udp_pcbs` leads once through every pcb that is bound to a port, and
to no other memory, so that every loop over it ends. A new port is the next one that is free. Two pcbs have
the same address and port only after the interface has taken an address over that one of them had. A datagram
goes to a pcb that is meant, and where only one is, the order of the list, which every datagram may change,
does not matter.
-/

namespace WirelessSpeakers.Soundness

open Model

/-- No two bound pcbs have the same port and address. -/
def Distinct (s : UdpStore) : Prop :=
  ∀ a ∈ s.live, ∀ b ∈ s.live, (socket s a).localPort ≠ 0 →
    (socket s a).localPort = (socket s b).localPort → (socket s a).localIp = (socket s b).localIp → a = b

/-- The interface does not take an address over that a pcb is bound to, with the port of a pcb that moves. -/
def Clean (s : UdpStore) : UdpCall → Prop
  | .netifIpAddrChanged oldAddr newAddr => oldAddr ≠ .any → newAddr ≠ .any → ∀ a ∈ s.live, ∀ b ∈ s.live,
      (socket s a).localPort ≠ 0 → (socket s a).localPort = (socket s b).localPort →
      (socket s a).localIp = oldAddr → (socket s b).localIp = newAddr → a = b
  | _ => True

section Runs

variable {s t : UdpStore} {l : List ℕ} {pcb : ℕ} {value : StructUdpPcb}

theorem Distinct.update (distinct : Distinct s) (live : ∀ q ∈ t.live, q = pcb ∨ q ∈ s.live)
    (sockets : socket t = Function.update (socket s) pcb value)
    (free : value.localPort ≠ 0 → ∀ other ∈ s.live, other ≠ pcb →
      (socket s other).localPort = value.localPort → (socket s other).localIp ≠ value.localIp) : Distinct t := by
  intro a aliveA b aliveB bound samePort sameIp
  rw [sockets] at bound samePort sameIp
  rcases eq_or_ne a pcb with rfl | otherA
  · rcases eq_or_ne b a with rfl | otherB
    · rfl
    · rw [Function.update_self] at bound samePort sameIp
      rw [Function.update_of_ne otherB] at samePort sameIp
      exact absurd sameIp.symm (free bound b ((live b aliveB).resolve_left otherB) otherB samePort.symm)
  · have hereA := (live a aliveA).resolve_left otherA
    rw [Function.update_of_ne otherA] at bound samePort sameIp
    rcases eq_or_ne b pcb with rfl | otherB
    · rw [Function.update_self] at samePort sameIp
      exact absurd sameIp (free (samePort ▸ bound) a hereA otherA samePort)
    · rw [Function.update_of_ne otherB] at samePort sameIp
      exact distinct a hereA b ((live b aliveB).resolve_left otherB) bound samePort sameIp

/-- The other fields do not matter. -/
theorem Distinct.edit (distinct : Distinct s) (alive : pcb ∈ s.live) (live : t.live = s.live)
    (sockets : socket t = Function.update (socket s) pcb value) (port : value.localPort = (socket s pcb).localPort)
    (ip : value.localIp = (socket s pcb).localIp) : Distinct t := by
  apply distinct.update (fun q here => .inr (live ▸ here)) sockets
  intro bound other alive' apart samePort sameIp
  rw [port] at bound samePort
  exact apart (distinct other alive' pcb alive (samePort ▸ bound) samePort (sameIp.trans ip))

theorem Distinct.congr (distinct : Distinct s) (live : t.live ⊆ s.live)
    (sockets : ∀ q ∈ t.live, socket t q = socket s q) :
    Distinct t := by
  intro a aliveA b aliveB bound samePort sameIp
  rw [sockets a aliveA] at bound samePort sameIp
  rw [sockets b aliveB] at samePort sameIp
  exact distinct a (live aliveA) b (live aliveB) bound samePort sameIp

theorem AutoPort.free_of {chosen : BitVec 16} (auto : AutoPort s pcb chosen) (distinct : Distinct s)
    (alive : pcb ∈ s.live) :
    ∀ other ∈ s.live, other ≠ pcb → (socket s other).localPort = chosen →
      (socket s other).localIp ≠ (socket s pcb).localIp := by
  intro other alive' apart samePort sameIp
  by_cases unbound : (socket s pcb).localPort = 0
  · exact auto.free unbound other alive' apart samePort sameIp
  · have same := auto.stays unbound
    exact apart (distinct other alive' pcb alive (samePort ▸ auto.some) (samePort.trans same) sameIp)

theorem distinct_readdressed {oldAddr newAddr : Ip4Addr} (distinct : Distinct s) (live : t.live = s.live)
    (sockets : ∀ q ∈ s.live, socket t q = readdressed oldAddr newAddr (socket s q)) :
    Distinct t ↔ Clean s (.netifIpAddrChanged oldAddr newAddr) := by
  have port : ∀ q ∈ s.live, (socket t q).localPort = (socket s q).localPort := by
    intro q alive
    rw [sockets q alive, readdressed]
    split <;> rfl
  have moved : ∀ q ∈ s.live, oldAddr ≠ .any → newAddr ≠ .any → (socket s q).localPort ≠ 0 →
      (socket s q).localIp = oldAddr → (socket t q).localIp = newAddr := by
    intro q alive old new bound here
    rw [sockets q alive, readdressed, if_pos ⟨old, new, bound, here⟩]
  have still : ∀ q ∈ s.live, ¬(oldAddr ≠ .any ∧ newAddr ≠ .any ∧ (socket s q).localPort ≠ 0 ∧
      (socket s q).localIp = oldAddr) → socket t q = socket s q := by
    intro q alive away
    rw [sockets q alive, readdressed, if_neg away]
  constructor
  · intro distinct' old new a aliveA b aliveB bound samePort here there
    apply distinct' a (live ▸ aliveA) b (live ▸ aliveB)
    · rwa [port a aliveA]
    · rwa [port a aliveA, port b aliveB]
    · rw [moved a aliveA old new bound here]
      by_cases both : (socket s b).localIp = oldAddr
      · exact (moved b aliveB old new (samePort ▸ bound) both).symm
      · rw [still b aliveB fun all => both all.2.2.2, there]
  · intro clean a aliveA b aliveB bound samePort sameIp
    rw [live] at aliveA aliveB
    rw [port a aliveA] at bound samePort
    rw [port b aliveB] at samePort
    have boundB : (socket s b).localPort ≠ 0 := samePort ▸ bound
    by_cases moves : oldAddr ≠ .any ∧ newAddr ≠ .any
    · by_cases hereA : (socket s a).localIp = oldAddr <;> by_cases hereB : (socket s b).localIp = oldAddr
      · exact distinct a aliveA b aliveB bound samePort (hereA.trans hereB.symm)
      · rw [moved a aliveA moves.1 moves.2 bound hereA, still b aliveB fun all => hereB all.2.2.2] at sameIp
        exact clean moves.1 moves.2 a aliveA b aliveB bound samePort hereA sameIp.symm
      · rw [moved b aliveB moves.1 moves.2 boundB hereB, still a aliveA fun all => hereA all.2.2.2] at sameIp
        exact (clean moves.1 moves.2 b aliveB a aliveA boundB samePort.symm hereB sameIp).symm
      · rw [still a aliveA fun all => hereA all.2.2.2, still b aliveB fun all => hereB all.2.2.2] at sameIp
        exact distinct a aliveA b aliveB bound samePort sameIp
    · rw [still a aliveA fun all => moves ⟨all.1, all.2.1⟩, still b aliveB fun all =>
        moves ⟨all.1, all.2.1⟩] at sameIp
      exact distinct a aliveA b aliveB bound samePort sameIp

/-- A call of `udp_send` or `udp_sendto` sends from the port that the pcb has or gets, or does nothing. -/
theorem PcbList.sendto_spec (list : PcbList s l) (alive : pcb ∈ s.live) (p : List Stretch) (dstIp : Ip4Addr)
    (dstPort : BitVec 16) (ipRoute : Ip4Addr → Option Netif) (room : HeaderRoom) :
    ∃ t l' result, s.udpSendto pcb p dstIp dstPort ipRoute room = some (t, result) ∧ PcbList t l' ∧
      t.live = s.live ∧ (socket t = socket s ∨ ∃ chosen, AutoPort s pcb chosen ∧
        socket t = Function.update (socket s) pcb { socket s pcb with localPort := chosen }) := by
  rw [UdpStore.udpSendto]
  split
  · exact ⟨s, l, _, rfl, list, rfl, .inl rfl⟩
  · next netif _ =>
    rw [UdpStore.udpSendtoIf, list.read_eq alive, Option.bind_some]
    split
    · obtain ⟨t, l', chosen, returns, list', live, auto, sockets⟩ :=
        list.sendtoIfSrc_spec alive p dstIp dstPort netif.ipAddr room
      exact ⟨t, l', _, returns, list', live, .inr ⟨chosen, auto, sockets⟩⟩
    · split
      · exact ⟨s, l, _, rfl, list, rfl, .inl rfl⟩
      · obtain ⟨t, l', chosen, returns, list', live, auto, sockets⟩ :=
          list.sendtoIfSrc_spec alive p dstIp dstPort (s.pcbs pcb).localIp room
        exact ⟨t, l', _, returns, list', live, .inr ⟨chosen, auto, sockets⟩⟩

theorem Distinct.sent (distinct : Distinct s) (alive : pcb ∈ s.live) (live : t.live = s.live)
    (sent : socket t = socket s ∨ ∃ chosen, AutoPort s pcb chosen ∧
      socket t = Function.update (socket s) pcb { socket s pcb with localPort := chosen }) : Distinct t := by
  rcases sent with same | ⟨chosen, auto, sockets⟩
  · exact distinct.congr live.subset fun q _ => congrFun same q
  · exact distinct.update (fun q here => .inr (live ▸ here)) sockets fun _ => auto.free_of distinct alive

theorem PcbList.call_spec (list : PcbList s l) (call : UdpCall) (permitted : ∀ pcb ∈ call.pcb?, pcb ∈ s.live) :
    ∃ t l', s.call call = some t ∧ PcbList t l' ∧ (Distinct s → (Distinct t ↔ Clean s call)) := by
  cases call with
  | new =>
    obtain ⟨list', made⟩ := list.udpNew_spec
    refine ⟨_, l, rfl, list', fun distinct => iff_of_true ?_ trivial⟩
    cases result : s.udpNew.2 with
    | none =>
      rw [result] at made
      rw [made.1]
      exact distinct
    | some pcb =>
      rw [result] at made
      obtain ⟨_, live, sockets⟩ := made
      refine distinct.update (fun q here => ?_) sockets (absurd rfl)
      rw [live] at here
      exact Finset.mem_insert.mp here
  | remove pcb =>
    have alive := permitted pcb rfl
    obtain ⟨t, returns, list', live, sockets⟩ := list.udpRemove_spec alive
    refine ⟨t, _, returns, list', fun distinct => iff_of_true ?_ trivial⟩
    exact distinct.congr (live ▸ Finset.erase_subset pcb s.live) fun q _ => congrFun sockets q
  | bind pcb ipaddr port =>
    have alive := permitted pcb rfl
    obtain ⟨t, err, l', returns, list', live, binding⟩ := list.udpBind_spec alive ipaddr port
    refine ⟨t, l', by simp [UdpStore.call, returns], list', fun distinct => iff_of_true ?_ trivial⟩
    generalize after : socket t = sockets at binding
    cases binding with
    | refused => exact distinct.congr live.subset fun q _ => congrFun after q
    | bound chosen _ _ free => exact distinct.update (fun q here => .inr (live ▸ here)) after fun _ => free
  | connect pcb ipaddr port =>
    have alive := permitted pcb rfl
    obtain ⟨t, l', chosen, returns, list', live, auto, sockets⟩ := list.udpConnect_spec alive ipaddr port
    refine ⟨t, l', by simp [UdpStore.call, returns], list', fun distinct => iff_of_true ?_ trivial⟩
    exact distinct.update (fun q here => .inr (live ▸ here)) sockets fun _ => auto.free_of distinct alive
  | disconnect pcb =>
    have alive := permitted pcb rfl
    have returns : s.udpDisconnect pcb = some (s.write pcb { s.pcbs pcb with
        remoteIp := .any, remotePort := 0, flags := (s.pcbs pcb).flags &&& ~~~udpFlagsConnected }) := by
      rw [UdpStore.udpDisconnect, list.read_eq alive, Option.map_some]
    refine ⟨_, l, returns, list.write rfl Iff.rfl, fun distinct => iff_of_true ?_ trivial⟩
    exact distinct.edit alive rfl socket_write rfl rfl
  | recv pcb recv =>
    have alive := permitted pcb rfl
    have returns : s.udpRecv pcb recv = some (s.write pcb { s.pcbs pcb with recv }) := by
      rw [UdpStore.udpRecv, list.read_eq alive, Option.map_some]
    refine ⟨_, l, returns, list.write rfl Iff.rfl, fun distinct => iff_of_true ?_ trivial⟩
    exact distinct.edit alive rfl socket_write rfl rfl
  | netifIpAddrChanged oldAddr newAddr =>
    obtain ⟨t, returns, list', live, sockets⟩ := list.addrChanged_spec oldAddr newAddr
    exact ⟨t, l, returns, list', fun distinct => distinct_readdressed distinct live sockets⟩
  | input ip inp p =>
    obtain ⟨t, l', returns, list', sockets, live⟩ := list.udpInput_spec ip inp p
    refine ⟨t, l', by simp [UdpStore.call, returns], list', fun distinct => iff_of_true ?_ trivial⟩
    exact distinct.congr live.subset fun q _ => congrFun sockets q
  | send pcb p ipRoute room =>
    have alive := permitted pcb rfl
    obtain ⟨t, l', result, returns, list', live, sent⟩ :=
      list.sendto_spec alive p (s.pcbs pcb).remoteIp (s.pcbs pcb).remotePort ipRoute room
    refine ⟨t, l', ?_, list', fun distinct => iff_of_true (distinct.sent alive live sent) trivial⟩
    simp [UdpStore.call, UdpStore.udpSend, list.read_eq alive, returns]
  | sendto pcb p dstIp dstPort ipRoute room =>
    have alive := permitted pcb rfl
    obtain ⟨t, l', result, returns, list', live, sent⟩ := list.sendto_spec alive p dstIp dstPort ipRoute room
    refine ⟨t, l', by simp [UdpStore.call, returns], list', fun distinct => iff_of_true ?_ trivial⟩
    exact distinct.sent alive live sent

/-- What a step does to the list and to the bindings. -/
theorem PcbList.step_spec {call : UdpCall} (list : PcbList s l) (step : udpUse.step s call = some t) :
    ∃ l', PcbList t l' ∧ (Distinct s → (Distinct t ↔ Clean s call)) := by
  by_cases permitted : ∀ pcb ∈ call.pcb?, pcb ∈ s.live
  · obtain ⟨u, l', returns, list', distinct⟩ := list.call_spec call permitted
    have same : s.call call = some t := (if_pos permitted).symm.trans step
    cases returns.symm.trans same
    exact ⟨l', list', distinct⟩
  · exact absurd (step.symm.trans (if_neg permitted)) (by simp)

theorem reachable_listed (reachable : udpUse.Reachable s) : ∃ l, PcbList s l := by
  apply TapeMachine.invariant (P := fun s => ∃ l, PcbList s l) ⟨[], .initial⟩ _ reachable
  rintro s call t _ ⟨l, list⟩ step
  obtain ⟨l', list', _⟩ := list.step_spec step
  exact ⟨l', list'⟩

/-- In every reachable state `udp_pcbs` leads through every bound pcb once and ends. A call returns whenever the pcb
that it is made with is allocated, and `udp_new` fails only if all are. -/
theorem pcb_list_exact (reachable : udpUse.Reachable s) :
    (∃ l, Chain (links s) s.udpPcbs l ∧ l.Nodup ∧ ∀ pcb, pcb ∈ l ↔ pcb ∈ s.live ∧
      (s.pcbs pcb).localPort ≠ 0) ∧
      (∀ call : UdpCall, (∀ pcb ∈ call.pcb?, pcb ∈ s.live) → (s.call call).isSome) ∧
      (s.udpNew.2 = none ↔ s.live.card = mempNumUdpPcb) := by
  obtain ⟨l, list⟩ := reachable_listed reachable
  refine ⟨⟨l, list.chain, list.chain.nodup, list.mem_iff⟩, fun call permitted => ?_, ?_⟩
  · obtain ⟨t, _, returns, _⟩ := list.call_spec call permitted
    exact Option.isSome_of_mem returns
  · have made := list.udpNew_spec.2
    constructor
    · intro none
      rw [none] at made
      exact made.2
    · intro full
      cases result : s.udpNew.2 with
      | none => rfl
      | some pcb =>
        rw [result] at made
        have below := list.udpNew_spec.1.card_le
        rw [made.2.1, Finset.card_insert_of_notMem made.1, full] at below
        omega

/-- A pcb that is bound, connected and bound again, a removed one and a new one. -/
def boundAndRemoved : List UdpCall :=
  [.new, .new, .bind 5 none 50005, .connect 4 ⟨192, 168, 0, 2⟩ 7, .bind 5 none 50006, .remove 4, .new]

theorem boundAndRemoved_returns : (udpUse.run boundAndRemoved).isSome := by decide +kernel

theorem boundAndRemoved_list : ∃ s, udpUse.run boundAndRemoved = some s ∧
    ∃ l, Chain (links s) s.udpPcbs l ∧ l.Nodup ∧ ∀ pcb, pcb ∈ l ↔ pcb ∈ s.live ∧
      (s.pcbs pcb).localPort ≠ 0 := by
  obtain ⟨s, ran⟩ := Option.isSome_iff_exists.mp boundAndRemoved_returns
  exact ⟨s, ran, (pcb_list_exact ⟨boundAndRemoved, ran⟩).1⟩

/-- In every reachable state `udp_new_port` finds the next port of the dynamic range that no pcb is bound to, and
passes over those only that pcbs are bound to. -/
theorem new_port_first_free (reachable : udpUse.Reachable s) : ∃ k ≤ s.live.card, ∃ port : BitVec 16,
    s.udpNewPort = some ({ s with udpPort := port }, port) ∧
      port.toNat = 0xc000 + (s.udpPort.toNat - 0xc000 + (k + 1)) % 0x4000 ∧
      (∀ pcb ∈ s.live, (s.pcbs pcb).localPort ≠ port) ∧
      ∀ j < k, ∃ pcb ∈ s.live, (s.pcbs pcb).localPort.toNat =
        0xc000 + (s.udpPort.toNat - 0xc000 + (j + 1)) % 0x4000 := by
  obtain ⟨l, list⟩ := reachable_listed reachable
  obtain ⟨k, few, port, returns, same, free, before⟩ := list.udpNewPort_eq
  have place := toNat_iterate_nextUdpPort list.dynamic (k + 1)
  rw [← same] at place
  refine ⟨k, few.trans list.length_le, port, returns, place, fun pcb alive here => ?_, fun j less => ?_⟩
  · have nonzero : port ≠ 0 := by
      rintro rfl
      rw [show (0 : BitVec 16).toNat = 0 from rfl] at place
      omega
    exact free pcb ((list.mem_iff pcb).mpr ⟨alive, here ▸ nonzero⟩) here
  · obtain ⟨pcb, member, here⟩ := before j less
    exact ⟨pcb, list.live member, by rw [here]; exact toNat_iterate_nextUdpPort list.dynamic (j + 1)⟩

theorem boundAndRemoved_port : ∃ s, udpUse.run boundAndRemoved = some s ∧
    ∃ port : BitVec 16, s.udpNewPort = some ({ s with udpPort := port }, port) := by
  obtain ⟨s, ran⟩ := Option.isSome_iff_exists.mp boundAndRemoved_returns
  obtain ⟨_, _, port, returns, _⟩ := new_port_first_free ⟨boundAndRemoved, ran⟩
  exact ⟨s, ran, port, returns⟩

/-- In a run no two pcbs are ever bound to the same address and port, if and only if the interface never takes an
address over that a pcb is bound to with the port of one that moves. -/
theorem bindings_distinct_iff {tape : List UdpCall} (ran : udpUse.run tape = some t) :
    (∀ s, udpUse.Visits tape s → Distinct s) ↔ ∀ s call, udpUse.Takes tape s call → Clean s call := by
  have effect : ∀ s call u, udpUse.Reachable s → udpUse.step s call = some u →
      (Distinct s → (Distinct u ↔ Clean s call)) := by
    intro s call u reachable step
    obtain ⟨l, list⟩ := reachable_listed reachable
    obtain ⟨_, _, distinct⟩ := list.step_spec step
    exact distinct
  constructor
  · intro distinct s call taken
    obtain ⟨u, step, visit⟩ := taken.result ran
    exact (effect s call u taken.visits.reachable step (distinct s taken.visits)).mp (distinct u visit)
  · rintro clean s ⟨past, initial, before⟩
    induction past using List.reverseRecOn generalizing s with
    | nil =>
      cases before
      intro a alive
      simp [udpUse] at alive
    | append_singleton past call ih =>
      obtain ⟨middle, reached, step⟩ := TapeMachine.run_snoc.mp before
      have held := ih middle ((List.prefix_append past [call]).trans initial) reached
      exact (effect middle call s ⟨past, reached⟩ step held).mpr (clean middle call ⟨past, initial, reached⟩)

/-- The interface takes the address over that the second pcb is bound to. -/
example : ∃ t, udpUse.run [.new, .new, .bind 5 (some ⟨10, 0, 0, 1⟩) 7, .bind 4 (some ⟨10, 0, 0, 2⟩) 7,
      .netifIpAddrChanged ⟨10, 0, 0, 1⟩ ⟨10, 0, 0, 2⟩] = some t ∧ ¬Distinct t := by
  refine ⟨_, rfl, fun distinct => ?_⟩
  exact absurd (distinct 5 (by decide) 4 (by decide) (by decide) (by decide) (by decide)) (by decide)

theorem boundAndRemoved_distinct : (∀ s, udpUse.Visits boundAndRemoved s → Distinct s) ↔
    ∀ s call, udpUse.Takes boundAndRemoved s call → Clean s call := by
  obtain ⟨s, ran⟩ := Option.isSome_iff_exists.mp boundAndRemoved_returns
  exact bindings_distinct_iff ran

/-- A bound pcb. -/
def Bound (s : UdpStore) (pcb : ℕ) : Prop := pcb ∈ s.live ∧ (socket s pcb).localPort ≠ 0

/-- The pcb that a datagram may be given to: a perfect match, or, where there is none, one that is not connected. A
pcb that is not connected has the remote port 0, and datagrams from there match it perfectly. -/
def MayReceive (s : UdpStore) (ip : IpData) (inp : Netif) (src dest : BitVec 16) : Option ℕ → Prop
  | some pcb => Bound s pcb ∧ (perfect ip inp src dest (socket s pcb) ∨
      general ip inp dest (socket s pcb) ∧ ∀ q, Bound s q → ¬perfect ip inp src dest (socket s q))
  | none => ∀ q, Bound s q → ¬perfect ip inp src dest (socket s q) ∧ ¬general ip inp dest (socket s q)

theorem MayReceive.port {ip : IpData} {inp : Netif} {src dest : BitVec 16}
    (may : MayReceive s ip inp src dest (some pcb)) :
    (socket s pcb).localPort = dest := by
  obtain ⟨_, fits | ⟨fits, _⟩⟩ := may
  · simp only [perfect, meant, Bool.and_eq_true, beq_iff_eq] at fits
    exact fits.1.1
  · simp only [general, meant, Bool.and_eq_true, beq_iff_eq] at fits
    exact fits.1.1

theorem PcbList.recipient_spec (list : PcbList s l) (ip : IpData) (inp : Netif) (src dest : BitVec 16) :
    MayReceive s ip inp src dest (recipient (socket s) l ip inp src dest) := by
  have listed : ∀ q, Bound s q ↔ q ∈ l := fun q => (list.mem_iff q).symm
  rw [recipient]
  cases found : l.find? fun pcb => perfect ip inp src dest (socket s pcb) with
  | some pcb =>
    exact ⟨(listed pcb).mpr (List.mem_of_find?_eq_some found), .inl (by simpa using List.find?_some found)⟩
  | none =>
    have pass : ∀ q, Bound s q → ¬perfect ip inp src dest (socket s q) := fun q bound =>
      List.find?_eq_none.mp found q ((listed q).mp bound)
    rw [Option.none_or]
    cases other : l.find? fun pcb => general ip inp dest (socket s pcb) with
    | some pcb =>
      exact ⟨(listed pcb).mpr (List.mem_of_find?_eq_some other),
        .inr ⟨by simpa using List.find?_some other, pass⟩⟩
    | none => exact fun q bound => ⟨pass q bound, List.find?_eq_none.mp other q ((listed q).mp bound)⟩

/-- In every reachable state, a datagram that holds a header is given to a pcb that may have it, and to none only if
none may; and it changes no pcb but for the order of the list. Where the datagram comes from is compared with the
remote address and port of a pcb, whether it is connected or not. -/
theorem datagram_recipient (reachable : udpUse.Reachable s) (ip : IpData) (inp : Netif) (p : List Stretch)
    (long : udpHlen ≤ (p.headD ⟨0, []⟩).data.length) :
    ∃ t pcb, s.udpInput ip inp p = some (t, deliver s.pcbs pcb ip inp p) ∧
      MayReceive s ip inp (udphdr p).src (udphdr p).dest pcb ∧ socket t = socket s ∧ t.live = s.live := by
  obtain ⟨l, list⟩ := reachable_listed reachable
  obtain ⟨t, _, returns, _, sockets, live⟩ := list.udpInput_spec ip inp p
  rw [if_neg (by omega)] at returns
  exact ⟨t, _, returns, list.recipient_spec ip inp _ _, sockets, live⟩

/-- Two pcbs, one of them with a `recv`. -/
def twoBound : List UdpCall := [.new, .new, .recv 4 (some 1), .bind 5 none 50005, .bind 4 none 50006]

def fromSecondPc : IpData := ⟨⟨⟨10, 0, 0, 1⟩, ⟨255, 0, 0, 0⟩, true⟩, ⟨10, 0, 0, 2⟩,
    ⟨10, 0, 0, 1⟩⟩

theorem datagram_recipient_second : ∃ s, udpUse.run twoBound = some s ∧
    ∃ t, s.udpInput fromSecondPc fromSecondPc.currentNetif [⟨0, [0, 7, 0xc3, 0x56, 0, 9, 0, 0, 42]⟩] =
      some (t, .received 1 4 [⟨8, [42]⟩] ⟨10, 0, 0, 2⟩ 7) := by
  obtain ⟨s, ran, live, other, port, recv, fits⟩ : ∃ s, udpUse.run twoBound = some s ∧ s.live = {4, 5} ∧
      (s.pcbs 5).localPort = 50005 ∧ (s.pcbs 4).localPort = 50006 ∧ (s.pcbs 4).recv = some 1 ∧
      general fromSecondPc fromSecondPc.currentNetif 50006 (socket s 4) :=
    ⟨_, rfl, by decide, by decide, by decide, by decide, by decide⟩
  obtain ⟨t, pcb, returns, may, _⟩ := datagram_recipient ⟨twoBound, ran⟩ fromSecondPc fromSecondPc.currentNetif
    [⟨0, [0, 7, 0xc3, 0x56, 0, 9, 0, 0, 42]⟩] (by decide)
  refine ⟨s, ran, t, returns.trans ?_⟩
  have second : pcb = some 4 := by
    cases pcb with
    | none => exact absurd fits (may 4 ⟨by simp [live], by simp [socket, port]⟩).2
    | some pcb =>
      have alive : pcb = 4 ∨ pcb = 5 := by simpa [live] using may.1.1
      rcases alive with rfl | rfl
      · rfl
      · exact absurd (other.symm.trans may.port) (by decide)
  rw [second, deliver, if_neg (by decide), if_neg (by decide)]
  simp only [recv]
  rfl

/-- There is only one pcb that a datagram may be given to. -/
def Clear (s : UdpStore) (ip : IpData) (inp : Netif) (src dest : BitVec 16) : Prop :=
  ∀ one two, MayReceive s ip inp src dest (some one) → MayReceive s ip inp src dest (some two) → one = two

/-- Where all bound pcbs have different ports, every datagram is clear. -/
theorem clear_of_ports (apart : ∀ a b, Bound s a → Bound s b →
    (socket s a).localPort = (socket s b).localPort → a = b)
    (ip : IpData) (inp : Netif) (src dest : BitVec 16) : Clear s ip inp src dest :=
  fun one two first second => apart one two first.1 second.1 (first.port.trans second.port.symm)

theorem Clear.unique {ip : IpData} {inp : Netif} {src dest : BitVec 16} {one two : Option ℕ}
    (clear : Clear s ip inp src dest) (first : MayReceive s ip inp src dest one)
    (second : MayReceive s ip inp src dest two) : one = two := by
  have conflict : ∀ pcb, MayReceive s ip inp src dest (some pcb) → ¬MayReceive s ip inp src dest none := by
    rintro pcb ⟨bound, fits | ⟨fits, _⟩⟩ nobody
    · exact (nobody pcb bound).1 fits
    · exact (nobody pcb bound).2 fits
  cases one with
  | none =>
    cases two with
    | none => rfl
    | some two => exact absurd first (conflict two second)
  | some one =>
    cases two with
    | none => exact absurd second (conflict one first)
    | some two => rw [clear one two first second]

theorem deliver_congr {pcbs pcbs' : ℕ → StructUdpPcb} {pcb : Option ℕ} (same : ∀ q ∈ pcb, pcbs q = pcbs' q)
    (ip : IpData) (inp : Netif) (p : List Stretch) : deliver pcbs pcb ip inp p = deliver pcbs' pcb ip inp p := by
  cases pcb with
  | none => rfl
  | some q => simp only [deliver, same q rfl]

/-- Two states with the same pcbs, whatever led to them, do the same with every datagram that is clear. -/
theorem fate_order_free (reachable : udpUse.Reachable s) (other : udpUse.Reachable t) (live : t.live = s.live)
    (sockets : ∀ q ∈ s.live, socket t q = socket s q) (ip : IpData) (inp : Netif) (p : List Stretch)
    (clear : Clear s ip inp (udphdr p).src (udphdr p).dest) :
    (t.udpInput ip inp p).map Prod.snd = (s.udpInput ip inp p).map Prod.snd := by
  obtain ⟨l, list⟩ := reachable_listed reachable
  obtain ⟨l', list'⟩ := reachable_listed other
  have may := list.recipient_spec ip inp (udphdr p).src (udphdr p).dest
  have may' := list'.recipient_spec ip inp (udphdr p).src (udphdr p).dest
  have bound : ∀ q, Bound t q ↔ Bound s q := by
    intro q
    rw [Bound, Bound, live]
    exact and_congr_right fun alive => by rw [sockets q alive]
  have agree : ∀ pcb, MayReceive t ip inp (udphdr p).src (udphdr p).dest pcb →
      MayReceive s ip inp (udphdr p).src (udphdr p).dest pcb := by
    intro pcb given
    cases pcb with
    | none =>
      intro q here
      rw [← sockets q here.1]
      exact given q ((bound q).mpr here)
    | some pcb =>
      have here := (bound pcb).mp given.1
      refine ⟨here, sockets pcb here.1 ▸ given.2.imp_right fun first => ⟨first.1, fun q there => ?_⟩⟩
      rw [← sockets q there.1]
      exact first.2 q ((bound q).mpr there)
  have same := clear.unique (agree _ may') may
  obtain ⟨u, _, returns, _⟩ := list.udpInput_spec ip inp p
  obtain ⟨u', _, returns', _⟩ := list'.udpInput_spec ip inp p
  have fates : deliver (socket t) (recipient (socket t) l' ip inp (udphdr p).src (udphdr p).dest) ip inp p =
      deliver (socket s) (recipient (socket s) l ip inp (udphdr p).src (udphdr p).dest) ip inp p := by
    rw [same]
    apply deliver_congr
    intro q here
    rw [here] at may
    exact sockets q may.1.1
  rw [returns, returns', Option.map_some, Option.map_some, fates]

/-- Two pcbs that are bound one after the other, and the other way round. -/
theorem fate_order_free_two : ∃ s t, udpUse.run [.new, .new, .bind 5 none 50005, .bind 4 none 50006] = some s ∧
    udpUse.run [.new, .new, .bind 4 none 50006, .bind 5 none 50005] = some t ∧ s.udpPcbs ≠ t.udpPcbs ∧
    ∀ ip inp p, (t.udpInput ip inp p).map Prod.snd = (s.udpInput ip inp p).map Prod.snd := by
  refine ⟨_, _, rfl, rfl, by decide, fun ip inp p => ?_⟩
  refine fate_order_free ⟨[.new, .new, .bind 5 none 50005, .bind 4 none 50006], rfl⟩
    ⟨[.new, .new, .bind 4 none 50006, .bind 5 none 50005], rfl⟩ (by decide) (by decide) ip inp p
    (clear_of_ports ?_ ip inp _ _)
  rintro a b ⟨aliveA, _⟩ ⟨aliveB, _⟩
  revert b aliveB
  revert a aliveA
  decide

end Runs

end WirelessSpeakers.Soundness
