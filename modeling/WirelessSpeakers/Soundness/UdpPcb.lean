import WirelessSpeakers.Machine.Pool
import WirelessSpeakers.Machine.Probe
import WirelessSpeakers.Model.UdpPcb

/-! # One call to `udp.c`

What each call does to the list of the pcbs, and to the pcbs apart from their place in it. A loop over the list
is a fold over the bound pcbs.
-/

namespace WirelessSpeakers.Soundness

open Model

/-- Where each pcb leads. -/
def links (s : UdpStore) (pcb : ℕ) : Option ℕ := (s.pcbs pcb).next

/-- The list leads through `l`, which are the bound pcbs. -/
structure PcbList (s : UdpStore) (l : List ℕ) : Prop where
  chain : Chain (links s) s.udpPcbs l
  mem_iff : ∀ pcb, pcb ∈ l ↔ pcb ∈ s.live ∧ (s.pcbs pcb).localPort ≠ 0
  pool : Stocked mempNumUdpPcb s.udpPcbTab (· ∈ s.live)
  dynamic : udpLocalPortRangeStart.toNat ≤ s.udpPort.toNat

/-- A pcb without its place in the list. -/
def socket (s : UdpStore) (pcb : ℕ) : StructUdpPcb := { s.pcbs pcb with next := none }

section Edits

variable {s t : UdpStore} {l : List ℕ} {pcb q : ℕ} {value : StructUdpPcb}

theorem PcbList.live (list : PcbList s l) (member : pcb ∈ l) : pcb ∈ s.live := ((list.mem_iff pcb).mp member).1

theorem PcbList.read_eq (_ : PcbList s l) (alive : pcb ∈ s.live) : s.read pcb = some (s.pcbs pcb) := if_pos alive

theorem PcbList.length_le (list : PcbList s l) : l.length ≤ s.live.card := by
  rw [← List.toFinset_card_of_nodup list.chain.nodup]
  apply Finset.card_le_card
  intro pcb member
  exact list.live (List.mem_toFinset.mp member)

theorem PcbList.forPcbs_eq {σ β : Type} (list : PcbList s l) (body : σ → ℕ → StructUdpPcb → Except β σ)
    (init : σ) :
    s.forPcbs body init = some (l.foldlM (fun carried pcb => body carried pcb (s.pcbs pcb)) init) :=
  Chain.scan_eq StructUdpPcb.next s.pcbs list.chain (fun _ member => if_pos (list.live member)) body list.length_le init

theorem foldlM_find? (keep : ℕ → Bool) : l.foldlM (fun () a => if keep a then Except.error a else .ok ()) () =
    match l.find? keep with
    | some a => .error a
    | none => .ok () := by
  induction l with
  | nil => rfl
  | cons a rest ih =>
    cases kept : keep a with
    | true => simp [List.foldlM_cons, kept, bind, Except.bind]
    | false => simpa [List.foldlM_cons, kept, bind, Except.bind] using ih

theorem PcbList.findPcb_eq (list : PcbList s l) (keep : ℕ → StructUdpPcb → Bool) :
    s.findPcb keep = some (l.find? fun pcb => keep pcb (s.pcbs pcb)) := by
  rw [UdpStore.findPcb, list.forPcbs_eq, foldlM_find?]
  cases l.find? fun pcb => keep pcb (s.pcbs pcb) <;> rfl

theorem PcbList.findSelf_eq (list : PcbList s l) (pcb : ℕ) :
    s.findPcb (fun ipcb _ => pcb == ipcb) = some (if pcb ∈ l then some pcb else none) := by
  rw [list.findPcb_eq]
  split
  · next member =>
    cases found : l.find? fun ipcb => pcb == ipcb with
    | none => simpa using List.find?_eq_none.mp found pcb member
    | some other =>
      have same := List.find?_some found
      rw [beq_iff_eq.mp same]
  · next absent =>
    rw [Option.some_inj, List.find?_eq_none]
    intro other member same
    exact absent (beq_iff_eq.mp same ▸ member)

@[simp] theorem socket_write : socket (s.write pcb value) = Function.update (socket s) pcb
    { value with next := none } := by
  funext q
  rcases eq_or_ne q pcb with rfl | other
  · simp [socket, UdpStore.write]
  · simp [socket, UdpStore.write, other]

@[simp] theorem socket_putInFront : socket (s.putInFront pcb) = socket s := by
  change socket (s.write pcb { s.pcbs pcb with next := s.udpPcbs }) = _
  rw [socket_write]
  exact Function.update_eq_self pcb (socket s)

theorem links_write : links (s.write pcb value) = Function.update (links s) pcb value.next := by
  funext q
  rcases eq_or_ne q pcb with rfl | other
  · simp [links, UdpStore.write]
  · simp [links, UdpStore.write, other]

theorem localPort_socket (s : UdpStore) (pcb : ℕ) : (s.pcbs pcb).localPort = (socket s pcb).localPort := rfl

/-- What a pcb of the list or off the list may be changed to. -/
theorem PcbList.write (list : PcbList s l) (next : value.next = (s.pcbs pcb).next)
    (bound : value.localPort = 0 ↔ (s.pcbs pcb).localPort = 0) : PcbList (s.write pcb value) l where
  chain := by
    rw [links_write, next]
    exact (Function.update_eq_self pcb (links s)).symm ▸ list.chain
  mem_iff q := by
    rw [list.mem_iff, localPort_socket (s.write pcb value), socket_write]
    rcases eq_or_ne q pcb with rfl | other
    · rw [Function.update_self]
      exact and_congr_right fun _ => not_congr bound.symm
    · rw [Function.update_of_ne other]
      rfl
  pool := list.pool
  dynamic := list.dynamic

theorem chain_putInFront (chain : Chain (links s) s.udpPcbs l) (absent : pcb ∉ l) :
    Chain (links (s.putInFront pcb)) (s.putInFront pcb).udpPcbs (pcb :: l) := by
  have same : links (s.putInFront pcb) = Function.update (links s) pcb s.udpPcbs :=
    links_write
  rw [same]
  exact chain.push absent

/-- A pcb that was just bound is put in front. -/
theorem PcbList.inserted (list : PcbList s l) (alive : pcb ∈ s.live) (absent : pcb ∉ l)
    (next : value.next = (s.pcbs pcb).next)
    (bound : value.localPort ≠ 0) : PcbList ((s.write pcb value).putInFront pcb) (pcb :: l) where
  chain := by
    apply chain_putInFront _ absent
    rw [links_write, next]
    exact (Function.update_eq_self pcb (links s)).symm ▸ list.chain
  mem_iff q := by
    rw [localPort_socket, socket_putInFront, socket_write, List.mem_cons]
    rcases eq_or_ne q pcb with rfl | other
    · rw [Function.update_self]
      simpa using ⟨alive, bound⟩
    · rw [Function.update_of_ne other, or_iff_right other]
      exact list.mem_iff q
  pool := list.pool
  dynamic := list.dynamic

/-- The list in another order. -/
theorem PcbList.reorder {l' : List ℕ} (list : PcbList s l) (chain : Chain (links t) t.udpPcbs l') (perm : l'.Perm l)
    (same : socket t = socket s) (live : t.live = s.live) (tab : t.udpPcbTab = s.udpPcbTab)
    (port : t.udpPort = s.udpPort) : PcbList t l' where
  chain := chain
  mem_iff q := by
    rw [perm.mem_iff, list.mem_iff, live, localPort_socket, localPort_socket, same]
  pool := by
    rw [live, tab]
    exact list.pool
  dynamic := port ▸ list.dynamic

end Edits

section Ports

variable {s : UdpStore} {l : List ℕ} {port : BitVec 16}

theorem PcbList.card_le (list : PcbList s l) : s.live.card ≤ mempNumUdpPcb := by
  rw [← Finset.card_range mempNumUdpPcb]
  apply Finset.card_le_card
  intro pcb alive
  exact Finset.mem_range.mpr ((list.pool.whole pcb).mpr (.inr alive))

/-- Some pcb of the list has the port. -/
def portTaken (s : UdpStore) (l : List ℕ) (port : BitVec 16) : Bool := l.any fun pcb => (s.pcbs pcb).localPort == port

theorem portTaken_iff : portTaken s l port = true ↔ ∃ pcb ∈ l, (s.pcbs pcb).localPort = port := by
  simp [portTaken]

theorem portTaken_eq : portTaken s l port = (l.find? fun pcb => (s.pcbs pcb).localPort == port).isSome := by
  rw [Bool.eq_iff_iff, List.find?_isSome, portTaken, List.any_eq_true]

theorem portTaken_eq_false_iff : portTaken s l port = false ↔ ∀ pcb ∈ l, (s.pcbs pcb).localPort ≠ port := by
  simp [portTaken]

theorem PcbList.newPortAgain_eq (list : PcbList s l) (left : ℕ) (udpPort : BitVec 16) :
    s.newPortAgain left udpPort = some ((probe nextUdpPort (portTaken s l) left udpPort).1,
      if (probe nextUdpPort (portTaken s l) left udpPort).2 then (probe nextUdpPort (portTaken s l) left udpPort).1
      else 0) := by
  have seen : (s.findPcb fun _ pcb => pcb.localPort == nextUdpPort udpPort) =
      some (l.find? fun pcb => (s.pcbs pcb).localPort == nextUdpPort udpPort) := list.findPcb_eq _
  induction left generalizing udpPort with
  | zero =>
    rw [UdpStore.newPortAgain, seen, Option.bind_some, probe, portTaken_eq]
    cases l.find? fun pcb => (s.pcbs pcb).localPort == nextUdpPort udpPort <;> rfl
  | succ left ih =>
    rw [UdpStore.newPortAgain, seen, Option.bind_some, probe, portTaken_eq]
    cases l.find? fun pcb => (s.pcbs pcb).localPort == nextUdpPort udpPort with
    | none => rfl
    | some pcb => exact ih _ (list.findPcb_eq _)

theorem toNat_nextUdpPort (dynamic : udpLocalPortRangeStart.toNat ≤ port.toNat) :
    (nextUdpPort port).toNat = 0xc000 + (port.toNat - 0xc000 + 1) % 0x4000 := by
  have start : 0xc000 ≤ port.toNat := dynamic
  have bound := port.isLt
  rw [nextUdpPort]
  split
  · next last =>
    subst last
    rfl
  · next inside =>
    have below : port.toNat ≠ 0xffff := fun last => inside (BitVec.eq_of_toNat_eq last)
    rw [BitVec.toNat_add, show (1 : BitVec 16).toNat = 1 from rfl]
    omega

/-- The ports go round the dynamic range. -/
theorem toNat_iterate_nextUdpPort (dynamic : udpLocalPortRangeStart.toNat ≤ port.toNat) (k : ℕ) :
    (nextUdpPort^[k] port).toNat = 0xc000 + (port.toNat - 0xc000 + k) % 0x4000 := by
  have start : 0xc000 ≤ port.toNat := dynamic
  have bound := port.isLt
  induction k with
  | zero =>
    rw [Function.iterate_zero_apply]
    omega
  | succ k ih =>
    have again : udpLocalPortRangeStart.toNat ≤ (nextUdpPort^[k] port).toNat := by
      rw [ih]
      exact Nat.le_add_right _ _
    rw [Function.iterate_succ_apply', toNat_nextUdpPort again, ih]
    omega

/-- No more ports are passed over than pcbs are bound. -/
theorem taken_le_length (dynamic : udpLocalPortRangeStart.toNat ≤ port.toNat) {k : ℕ} (few : k ≤ 0x4000)
    (taken : ∀ j < k, portTaken s l (nextUdpPort^[j + 1] port) = true) : k ≤ l.length := by
  have injective : Set.InjOn (fun j => nextUdpPort^[j + 1] port) (Finset.range k) := by
    intro i first j second same
    have i_lt := Finset.mem_range.mp first
    have j_lt := Finset.mem_range.mp second
    have values := congrArg BitVec.toNat same
    rw [toNat_iterate_nextUdpPort dynamic, toNat_iterate_nextUdpPort dynamic] at values
    omega
  have inside : (Finset.range k).image (fun j => nextUdpPort^[j + 1] port) ⊆
      (l.map fun pcb => (s.pcbs pcb).localPort).toFinset := by
    intro p member
    obtain ⟨j, below, rfl⟩ := Finset.mem_image.mp member
    obtain ⟨pcb, here, same⟩ := portTaken_iff.mp (taken j (Finset.mem_range.mp below))
    exact List.mem_toFinset.mpr (List.mem_map.mpr ⟨pcb, here, same⟩)
  calc k = ((Finset.range k).image fun j => nextUdpPort^[j + 1] port).card := by
        rw [Finset.card_image_of_injOn injective, Finset.card_range]
    _ ≤ (l.map fun pcb => (s.pcbs pcb).localPort).toFinset.card := Finset.card_le_card inside
    _ ≤ (l.map fun pcb => (s.pcbs pcb).localPort).length := List.toFinset_card_le _
    _ = l.length := List.length_map _

/-- A new port is the first one behind the last that no pcb is bound to. -/
theorem PcbList.udpNewPort_eq (list : PcbList s l) : ∃ k ≤ l.length, ∃ port : BitVec 16,
    s.udpNewPort = some ({ s with udpPort := port }, port) ∧ port = nextUdpPort^[k + 1] s.udpPort ∧
      (∀ pcb ∈ l, (s.pcbs pcb).localPort ≠ port) ∧
      ∀ j < k, ∃ pcb ∈ l, (s.pcbs pcb).localPort = nextUdpPort^[j + 1] s.udpPort := by
  have few : l.length ≤ 6 := list.length_le.trans list.card_le
  have tries : (udpLocalPortRangeEnd - udpLocalPortRangeStart).toNat = 0x3fff := rfl
  rw [UdpStore.udpNewPort, list.newPortAgain_eq, tries]
  cases found : (probe nextUdpPort (portTaken s l) 0x3fff s.udpPort).2 with
  | true =>
    obtain ⟨k, below, same, free, before⟩ := probe_found found
    exact ⟨k, taken_le_length list.dynamic (by omega) before, _, rfl, same, portTaken_eq_false_iff.mp (same ▸ free),
      fun j less => portTaken_iff.mp (before j less)⟩
  | false =>
    have all := probe_failed found
    have := taken_le_length (k := 0x4000) list.dynamic le_rfl fun j less => all j (by omega)
    omega

end Ports

/-- What `udp_bind` comes to. -/
inductive Binding (s : UdpStore) (pcb : ℕ) (ip : Ip4Addr) (port : BitVec 16) : ErrT → (ℕ → StructUdpPcb) →
    Prop
  | refused (other : ℕ) (bound : other ∈ s.live) (apart : other ≠ pcb) (some : port ≠ 0)
      (samePort : (socket s other).localPort = port) (sameIp : (socket s other).localIp = ip) :
      Binding s pcb ip port .use (socket s)
  | bound (chosen : BitVec 16) (some : chosen ≠ 0) (wanted : port ≠ 0 → chosen = port)
      (free : ∀ other ∈ s.live, other ≠ pcb → (socket s other).localPort = chosen →
        (socket s other).localIp ≠ ip) :
      Binding s pcb ip port .ok
        (Function.update (socket s) pcb { socket s pcb with localIp := ip, localPort := chosen })

section Binding

variable {s t : UdpStore} {l : List ℕ} {pcb : ℕ} {ip : Ip4Addr} {port : BitVec 16}

theorem PcbList.setUdpPort (list : PcbList s l) (dynamic : udpLocalPortRangeStart.toNat ≤ port.toNat) :
    PcbList { s with udpPort := port } l :=
  ⟨list.chain, list.mem_iff, list.pool, dynamic⟩

/-- The port is free for the address, or 0 because another pcb has both. -/
theorem PcbList.portToBind_eq (list : PcbList s l) (pcb : ℕ) (ip : Ip4Addr) (port : BitVec 16) :
    ∃ udpPort chosen, s.portToBind pcb ip port = some ({ s with udpPort }, chosen) ∧
      udpLocalPortRangeStart.toNat ≤ udpPort.toNat ∧
      if chosen = 0 then port ≠ 0 ∧ ∃ other ∈ s.live, other ≠ pcb ∧ (socket s other).localPort = port ∧
        (socket s other).localIp = ip
      else (port ≠ 0 → chosen = port) ∧
        ∀ other ∈ s.live, other ≠ pcb → (socket s other).localPort = chosen →
          (socket s other).localIp ≠ ip := by
  rw [UdpStore.portToBind]
  split
  · next none =>
    obtain ⟨k, _, chosen, returns, same, free, _⟩ := list.udpNewPort_eq
    have dynamic : udpLocalPortRangeStart.toNat ≤ chosen.toNat := by
      rw [same, toNat_iterate_nextUdpPort list.dynamic]
      exact Nat.le_add_right _ _
    have nonzero : chosen ≠ 0 := by
      rintro rfl
      exact absurd dynamic (by decide)
    refine ⟨chosen, chosen, returns, dynamic, ?_⟩
    rw [if_neg nonzero]
    exact ⟨fun some => absurd none some, fun other alive _ here =>
      absurd here (free other ((list.mem_iff other).mpr ⟨alive, here ▸ nonzero⟩))⟩
  · next some =>
    rw [list.findPcb_eq]
    cases found : l.find? _ with
    | some other =>
      have member := List.mem_of_find?_eq_some found
      have taken := List.find?_some found
      simp only [Bool.and_eq_true, bne_iff_ne, beq_iff_eq] at taken
      refine ⟨s.udpPort, 0, rfl, list.dynamic, ?_⟩
      exact ⟨some, other, list.live member, taken.1.1.symm, taken.1.2, taken.2⟩
    | none =>
      refine ⟨s.udpPort, port, rfl, list.dynamic, ?_⟩
      rw [if_neg some]
      refine ⟨fun _ => rfl, fun other alive apart here sameIp => ?_⟩
      apply List.find?_eq_none.mp found other ((list.mem_iff other).mpr ⟨alive, here ▸ some⟩)
      simp only [Bool.and_eq_true, bne_iff_ne, beq_iff_eq]
      exact ⟨⟨apart.symm, here⟩, sameIp⟩

theorem PcbList.udpBind_spec (list : PcbList s l) (alive : pcb ∈ s.live) (ipaddr : Option Ip4Addr)
    (port : BitVec 16) :
    ∃ t err l', s.udpBind pcb ipaddr port = some (t, err) ∧ PcbList t l' ∧ t.live = s.live ∧
      Binding s pcb (ipaddr.getD .any) port err (socket t) := by
  obtain ⟨udpPort, chosen, returns, dynamic, result⟩ := list.portToBind_eq pcb (ipaddr.getD .any) port
  have moved := list.setUdpPort dynamic
  rw [UdpStore.udpBind, list.findSelf_eq, Option.bind_some, returns, Option.bind_some]
  split at result
  · next none =>
    obtain ⟨some, other, bound, apart, samePort, sameIp⟩ := result
    simp only [none, if_true]
    exact ⟨_, _, l, rfl, moved, rfl, .refused other bound apart some samePort sameIp⟩
  · next some =>
    have reads : UdpStore.read { s with udpPort } pcb = Option.some (s.pcbs pcb) := if_pos alive
    simp only [some, if_false, reads, Option.map_some]
    have sockets := Binding.bound chosen some result.1 result.2
    by_cases member : pcb ∈ l
    · simp only [member, if_true, Option.isSome_some]
      have bound := ((list.mem_iff pcb).mp member).2
      refine ⟨_, _, l, rfl, moved.write rfl (iff_of_false some bound), rfl, ?_⟩
      rw [socket_write]
      exact sockets
    · simp only [member, if_false, Option.isSome_none, Bool.false_eq_true]
      refine ⟨_, _, pcb :: l, rfl, moved.inserted alive member rfl some, rfl, ?_⟩
      rw [socket_putInFront, socket_write]
      exact sockets

/-- The port of a pcb that is bound first if it is not bound. -/
structure AutoPort (s : UdpStore) (pcb : ℕ) (chosen : BitVec 16) : Prop where
  some : chosen ≠ 0
  stays : (socket s pcb).localPort ≠ 0 → chosen = (socket s pcb).localPort
  free : (socket s pcb).localPort = 0 → ∀ other ∈ s.live, other ≠ pcb →
    (socket s other).localPort = chosen → (socket s other).localIp ≠ (socket s pcb).localIp

theorem PcbList.bindFirst_spec (list : PcbList s l) (alive : pcb ∈ s.live) :
    ∃ t l' chosen, s.bindFirst pcb = some (t, .ok) ∧ PcbList t l' ∧ t.live = s.live ∧ AutoPort s pcb chosen ∧
      socket t = Function.update (socket s) pcb { socket s pcb with localPort := chosen } := by
  rw [UdpStore.bindFirst, list.read_eq alive, Option.bind_some]
  split
  · next unbound =>
    obtain ⟨t, err, l', returns, list', live, binding⟩ := list.udpBind_spec alive (some (s.pcbs pcb).localIp) 0
    rw [unbound, returns]
    generalize sockets : socket t = after at binding
    cases binding with
    | refused _ _ _ none => exact absurd rfl none
    | bound chosen nonzero _ free =>
      exact ⟨t, l', chosen, rfl, list', live, ⟨nonzero, (absurd unbound ·), fun _ => free⟩, sockets⟩
  · next bound =>
    exact ⟨s, l, (socket s pcb).localPort, rfl, list, rfl, ⟨bound, fun _ => rfl, (absurd · bound)⟩,
      (Function.update_eq_self pcb (socket s)).symm⟩

theorem PcbList.udpConnect_spec (list : PcbList s l) (alive : pcb ∈ s.live) (ip : Ip4Addr) (port : BitVec 16) :
    ∃ t l' chosen, s.udpConnect pcb ip port = some (t, .ok) ∧ PcbList t l' ∧ t.live = s.live ∧
      AutoPort s pcb chosen ∧ socket t = Function.update (socket s) pcb { socket s pcb with
        localPort := chosen, remoteIp := ip, remotePort := port,
        flags := (socket s pcb).flags ||| udpFlagsConnected } := by
  obtain ⟨t, l', chosen, returns, list', live, auto, sockets⟩ := list.bindFirst_spec alive
  have here : socket t pcb = { socket s pcb with localPort := chosen } := by rw [sockets, Function.update_self]
  have nonzero : (t.pcbs pcb).localPort ≠ 0 := by
    rw [localPort_socket, here]
    exact auto.some
  have member : pcb ∈ l' := (list'.mem_iff pcb).mpr ⟨live ▸ alive, nonzero⟩
  have written : PcbList (t.write pcb { t.pcbs pcb with
      remoteIp := ip, remotePort := port, flags := (t.pcbs pcb).flags ||| udpFlagsConnected }) l' :=
    list'.write rfl Iff.rfl
  rw [UdpStore.udpConnect, returns, Option.bind_some]
  simp only [ne_eq, not_true_eq_false, if_false, written.findSelf_eq, member, if_true, Option.map_some]
  refine ⟨_, l', chosen, rfl, written, live, auto, ?_⟩
  have flags : (t.pcbs pcb).flags = (socket s pcb).flags := by
    change (socket t pcb).flags = _
    rw [here]
  have rest : ({ t.pcbs pcb with
      next := none, remoteIp := ip, remotePort := port,
        flags := (t.pcbs pcb).flags ||| udpFlagsConnected } : StructUdpPcb) =
      { socket t pcb with remoteIp := ip, remotePort := port, flags := (t.pcbs pcb).flags ||| udpFlagsConnected } := rfl
  rw [socket_write, rest, here, flags, sockets, Function.update_idem]

end Binding

section Making

variable {s : UdpStore} {l : List ℕ} {pcb : ℕ}

theorem PcbList.initial : PcbList {} [] where
  chain := .nil
  mem_iff _ := by simp
  pool := (stocked_range mempNumUdpPcb).congr fun _ => by simp
  dynamic := le_rfl

theorem PcbList.udpNew_spec (list : PcbList s l) : PcbList s.udpNew.1 l ∧
    match s.udpNew.2 with
    | none => s.udpNew.1 = s ∧ s.live.card = mempNumUdpPcb
    | some pcb => pcb ∉ s.live ∧ s.udpNew.1.live = insert pcb s.live ∧
        socket s.udpNew.1 = Function.update (socket s) pcb { ttl := udpTtl } := by
  have pool := list.pool
  unfold UdpStore.udpNew
  split
  · next empty =>
    refine ⟨list, rfl, le_antisymm list.card_le ?_⟩
    rw [← Finset.card_range mempNumUdpPcb]
    apply Finset.card_le_card
    intro pcb below
    exact ((pool.whole pcb).mp (Finset.mem_range.mp below)).resolve_left (empty ▸ List.not_mem_nil)
  · next pcb tab same =>
    rw [same] at pool
    have fresh : pcb ∉ s.live := pool.apart pcb List.mem_cons_self
    have off : pcb ∉ l := fun member => fresh (list.live member)
    refine ⟨⟨?_, ?_, ?_, list.dynamic⟩, fresh, rfl, socket_write⟩
    · apply list.chain.congr
      intro q member
      have other : q ≠ pcb := fun here => off (here ▸ member)
      change links (s.write pcb _) q = _
      rw [links_write, Function.update_of_ne other]
    · intro q
      change q ∈ l ↔ q ∈ insert pcb s.live ∧ (socket (s.write pcb { ttl := udpTtl }) q).localPort ≠ 0
      rw [socket_write]
      rcases eq_or_ne q pcb with rfl | other
      · simp [off]
      · rw [Function.update_of_ne other, Finset.mem_insert, or_iff_right other]
        exact list.mem_iff q
    · exact pool.malloc.congr fun q => Finset.mem_insert

theorem Chain.erase_front {next : ℕ → Option ℕ} {head : Option ℕ} {rest : List ℕ}
    (chain : Chain next head (pcb :: rest)) :
    Chain next (next pcb) ((pcb :: rest).erase pcb) := by
  rw [List.erase_cons_head]
  exact (Chain.cons_iff.mp chain).2

/-- The pcb in front of another one in the list. -/
theorem PcbList.findPrev_eq (list : PcbList s l) (pcb : ℕ) :
    ∃ found, s.findPcb (fun _ pcb2 => pcb2.next == some pcb) = some found ∧
      match found with
      | some prev => ∃ front back, l = front ++ prev :: pcb :: back
      | none => s.udpPcbs = some pcb ∨ pcb ∉ l := by
  refine ⟨_, list.findPcb_eq _, ?_⟩
  cases found : l.find? fun q => (s.pcbs q).next == some pcb with
  | some prev =>
    have leads : links s prev = some pcb := by simpa [links] using List.find?_some found
    obtain ⟨front, back, rfl⟩ := List.append_of_mem (List.mem_of_find?_eq_some found)
    have behind := (Chain.cons_iff.mp list.chain.suffix).2
    rw [leads] at behind
    obtain ⟨rest, rfl, _⟩ := Chain.some_iff.mp behind
    exact ⟨front, rest, rfl⟩
  | none =>
    by_cases member : pcb ∈ l
    · obtain ⟨front, back, rfl⟩ := List.append_of_mem member
      rcases List.eq_nil_or_concat front with rfl | ⟨front, prev, rfl⟩
      · exact .inl (Chain.cons_iff.mp list.chain).1
      · rw [List.concat_eq_append, List.append_assoc, List.singleton_append] at found list
        have behind := (Chain.cons_iff.mp list.chain.suffix).2
        have leads : links s prev = some pcb := (Chain.cons_iff.mp behind).1
        exact absurd (beq_iff_eq.mpr leads) (List.find?_eq_none.mp found prev (by simp))
    · exact .inr member

theorem PcbList.udpRemove_spec (list : PcbList s l) (alive : pcb ∈ s.live) :
    ∃ t, s.udpRemove pcb = some t ∧ PcbList t (l.erase pcb) ∧ t.live = s.live.erase pcb ∧
      socket t = socket s := by
  have gives : ∀ t : UdpStore, Chain (links t) t.udpPcbs (l.erase pcb) → socket t = socket s → t.live = s.live →
      t.udpPcbTab = s.udpPcbTab → t.udpPort = s.udpPort →
      PcbList { t with udpPcbTab := pcb :: t.udpPcbTab, live := t.live.erase pcb } (l.erase pcb) := by
    intro t chain sockets live tab port
    refine ⟨chain, fun q => ?_, ?_, port ▸ list.dynamic⟩
    · change q ∈ l.erase pcb ↔ q ∈ t.live.erase pcb ∧ (socket t q).localPort ≠ 0
      rw [list.chain.nodup.mem_erase_iff, list.mem_iff, live, sockets, Finset.mem_erase, and_assoc]
      rfl
    · rw [live, tab]
      exact (list.pool.free alive).congr fun q => Finset.mem_erase
  rw [UdpStore.udpRemove, list.read_eq alive, Option.bind_some]
  split
  · next first =>
    obtain ⟨rest, rfl, _⟩ := Chain.some_iff.mp (first ▸ list.chain)
    exact ⟨_, rfl, gives _ (Chain.erase_front list.chain) rfl rfl rfl rfl, rfl, rfl⟩
  · next behind =>
    obtain ⟨found, returns, place⟩ := list.findPrev_eq pcb
    rw [returns]
    cases found with
    | some prev =>
      obtain ⟨front, back, rfl⟩ := place
      have apart := list.chain.nodup
      have cut : (front ++ prev :: pcb :: back).erase pcb = front ++ prev :: back := by
        have off : pcb ∉ front ++ [prev] := fun member =>
          (List.nodup_append.mp (show (front ++ [prev] ++ pcb :: back).Nodup by simpa using apart)).2.2
            pcb member pcb List.mem_cons_self rfl
        have seam := List.erase_append_right (pcb :: back) off
        simpa using seam
      have chain : Chain (links (s.write prev { s.pcbs prev with next := (s.pcbs pcb).next })) s.udpPcbs
          ((front ++ prev :: pcb :: back).erase pcb) := by
        rw [links_write, cut]
        exact list.chain.detach
      have sockets : socket (s.write prev { s.pcbs prev with next := (s.pcbs pcb).next }) = socket s := by
        rw [socket_write]
        exact Function.update_eq_self prev (socket s)
      exact ⟨_, rfl, gives _ chain sockets rfl rfl rfl, rfl, sockets⟩
    | none =>
      have off : pcb ∉ l := place.resolve_left behind
      exact ⟨_, rfl, gives s (by rw [List.erase_of_not_mem off]; exact list.chain) rfl rfl rfl rfl, rfl, rfl⟩

end Making

section Addresses

variable {s : UdpStore} {l : List ℕ} {pcb : ℕ} {oldAddr newAddr : Ip4Addr}

/-- What `udp_netif_ip_addr_changed` makes of a pcb. -/
def readdressed (oldAddr newAddr : Ip4Addr) (value : StructUdpPcb) : StructUdpPcb :=
  if oldAddr ≠ .any ∧ newAddr ≠ .any ∧ value.localPort ≠ 0 ∧ value.localIp = oldAddr then
    { value with localIp := newAddr }
  else value

/-- One iteration of its loop. -/
def readdress (s : UdpStore) (oldAddr newAddr : Ip4Addr) (upcb : ℕ) : UdpStore :=
  if (s.pcbs upcb).localIp = oldAddr then s.write upcb { s.pcbs upcb with localIp := newAddr } else s

theorem readdress_links : links (readdress s oldAddr newAddr pcb) = links s := by
  rw [readdress]
  split
  · rw [links_write]
    exact Function.update_eq_self pcb (links s)
  · rfl

theorem readdress_socket (some : oldAddr ≠ .any ∧ newAddr ≠ .any) (bound : (socket s pcb).localPort ≠ 0) :
    socket (readdress s oldAddr newAddr pcb) =
      Function.update (socket s) pcb (readdressed oldAddr newAddr (socket s pcb)) := by
  rw [readdress, readdressed]
  split
  · next here =>
    rw [socket_write, if_pos ⟨some.1, some.2, bound, here⟩]
    rfl
  · next other =>
    rw [if_neg fun all => other all.2.2.2]
    exact (Function.update_eq_self pcb (socket s)).symm

theorem PcbList.readdress (list : PcbList s l) (pcb : ℕ) : PcbList (readdress s oldAddr newAddr pcb) l := by
  rw [Soundness.readdress]
  split
  · exact list.write rfl Iff.rfl
  · exact list

theorem readdress_live : (readdress s oldAddr newAddr pcb).live = s.live := by
  rw [readdress]
  split <;> rfl

theorem addrChangedWalk_eq (some : oldAddr ≠ .any ∧ newAddr ≠ .any) {rest : List ℕ} {p : Option ℕ}
    (list : PcbList s l) (chain : Chain (links s) p rest) (inside : ∀ pcb ∈ rest, pcb ∈ l) {fuel : ℕ}
    (enough : rest.length ≤ fuel) : ∃ t, UdpStore.addrChangedWalk oldAddr newAddr fuel s p = Option.some t ∧
      PcbList t l ∧ t.live = s.live ∧
      ∀ q, socket t q = if q ∈ rest then readdressed oldAddr newAddr (socket s q) else socket s q := by
  induction rest generalizing s p fuel with
  | nil =>
    obtain rfl := Chain.nil_iff.mp chain
    refine ⟨s, ?_, list, rfl, by simp⟩
    cases fuel <;> rfl
  | cons pcb rest ih =>
    obtain ⟨rfl, behind⟩ := Chain.cons_iff.mp chain
    have member := inside pcb List.mem_cons_self
    have off : pcb ∉ rest := (List.nodup_cons.mp chain.nodup).1
    cases fuel with
    | zero => simp at enough
    | succ fuel =>
      have next : (readdress s oldAddr newAddr pcb) = if (s.pcbs pcb).localIp = oldAddr then
          s.write pcb { s.pcbs pcb with localIp := newAddr } else s := rfl
      rw [UdpStore.addrChangedWalk, list.read_eq (list.live member), Option.bind_some, ← next]
      have edited : PcbList (readdress s oldAddr newAddr pcb) l := list.readdress pcb
      obtain ⟨t, returns, list', live, sockets⟩ := ih edited
        (by rw [readdress_links]; exact behind) (fun q here => inside q (List.mem_cons_of_mem _ here))
        (Nat.le_of_succ_le_succ enough)
      refine ⟨t, returns, list', live.trans readdress_live, fun q => ?_⟩
      rw [sockets, readdress_socket some ((list.mem_iff pcb).mp member).2]
      rcases eq_or_ne q pcb with rfl | other
      · simp [off]
      · simp [other]

/-- All bound pcbs of the old address get the new one. -/
theorem PcbList.addrChanged_spec (list : PcbList s l) (oldAddr newAddr : Ip4Addr) :
    ∃ t, s.udpNetifIpAddrChanged oldAddr newAddr = some t ∧ PcbList t l ∧ t.live = s.live ∧
      ∀ q ∈ s.live, socket t q = readdressed oldAddr newAddr (socket s q) := by
  rw [UdpStore.udpNetifIpAddrChanged]
  split
  · next some =>
    obtain ⟨t, returns, list', live, sockets⟩ :=
      addrChangedWalk_eq some list list.chain (fun _ => id) list.length_le
    refine ⟨t, returns, list', live, fun q alive => ?_⟩
    rw [sockets]
    split
    · rfl
    · next off =>
      have unbound : (socket s q).localPort = 0 := by
        by_contra bound
        exact off ((list.mem_iff q).mpr ⟨alive, bound⟩)
      rw [readdressed, if_neg fun all => all.2.2.1 unbound]
  · next none =>
    refine ⟨s, rfl, list, rfl, fun q _ => ?_⟩
    rw [readdressed, if_neg fun all => none ⟨all.1, all.2.1⟩]

end Addresses

/-- The datagram is meant for the address and port of a pcb. -/
def meant (ip : IpData) (inp : Netif) (dest : BitVec 16) (pcb : StructUdpPcb) : Bool :=
  pcb.localPort == dest && udpInputLocalMatch ip inp (ip.currentNetif.isBroadcast ip.dest) pcb

/-- And it comes from the remote port of the pcb, and its remote address if it has one. -/
def perfect (ip : IpData) (inp : Netif) (src dest : BitVec 16) (pcb : StructUdpPcb) : Bool :=
  meant ip inp dest pcb && fullMatch ip src pcb

/-- And the pcb is not connected. -/
def general (ip : IpData) (inp : Netif) (dest : BitVec 16) (pcb : StructUdpPcb) : Bool :=
  meant ip inp dest pcb && !pcb.connected

/-- The pcb that a datagram is for, in the order of a list: the first perfect match, or else the first that is
not connected. -/
def recipient (pcbs : ℕ → StructUdpPcb) (l : List ℕ) (ip : IpData) (inp : Netif) (src dest : BitVec 16) :
    Option ℕ :=
  (l.find? fun pcb => perfect ip inp src dest (pcbs pcb)).or (l.find? fun pcb => general ip inp dest (pcbs pcb))

section Demux

variable {s : UdpStore} {l : List ℕ} {pcb : ℕ} {ip : IpData} {inp : Netif} {src dest : BitVec 16}
  {prev uncon : Option ℕ} {pcbs : ℕ → StructUdpPcb}

theorem demuxBody_perfect (perfect : perfect ip inp src dest (pcbs pcb) = true) :
    demuxBody ip inp src dest (prev, uncon) pcb (pcbs pcb) = .error (prev, pcb) := by
  simp only [Soundness.perfect, meant, Bool.and_eq_true] at perfect
  simp [demuxBody, perfect.1.1, perfect.1.2, perfect.2]

theorem demuxBody_pass (pass : perfect ip inp src dest (pcbs pcb) = false) :
    demuxBody ip inp src dest (prev, uncon) pcb (pcbs pcb) =
      .ok (some pcb, uncon.or (if general ip inp dest (pcbs pcb) then some pcb else none)) := by
  rw [perfect, meant] at pass
  rw [demuxBody, general, meant]
  cases here : (pcbs pcb).localPort == dest && udpInputLocalMatch ip inp (ip.currentNetif.isBroadcast ip.dest)
    (pcbs pcb) with
  | false => simp
  | true =>
    rw [here, Bool.true_and] at pass
    cases uncon <;> cases free : (pcbs pcb).connected <;> simp [pass]

theorem demux_pass (pcbs : ℕ → StructUdpPcb) (prev uncon : Option ℕ)
    (pass : ∀ pcb ∈ l, perfect ip inp src dest (pcbs pcb) = false) :
    ∃ last, l.foldlM (fun carried pcb => demuxBody ip inp src dest carried pcb (pcbs pcb)) (prev, uncon) =
      .ok (last, uncon.or (l.find? fun pcb => general ip inp dest (pcbs pcb))) := by
  induction l generalizing prev uncon with
  | nil => exact ⟨prev, by simp [pure, Except.pure]⟩
  | cons pcb rest ih =>
    obtain ⟨last, ih⟩ := ih (some pcb) (uncon.or (if general ip inp dest (pcbs pcb) then some pcb else none))
      fun q member => pass q (List.mem_cons_of_mem pcb member)
    refine ⟨last, ?_⟩
    rw [List.foldlM_cons, demuxBody_pass (pass pcb List.mem_cons_self)]
    change List.foldlM _ _ rest = _
    rw [ih, Option.or_assoc, List.find?_cons]
    cases general ip inp dest (pcbs pcb) <;> simp

theorem demux_perfect (pcbs : ℕ → StructUdpPcb) (prev uncon : Option ℕ) {front : List ℕ} (back : List ℕ)
    (pass : ∀ pcb ∈ front, perfect ip inp src dest (pcbs pcb) = false)
    (here : perfect ip inp src dest (pcbs pcb) = true) :
    (front ++ pcb :: back).foldlM (fun carried pcb => demuxBody ip inp src dest carried pcb (pcbs pcb)) (prev, uncon) =
      .error (front.getLast?.or prev, pcb) := by
  induction front generalizing prev uncon with
  | nil =>
    rw [List.nil_append, List.foldlM_cons, demuxBody_perfect here]
    rfl
  | cons q rest ih =>
    rw [List.cons_append, List.foldlM_cons, demuxBody_pass (pass q List.mem_cons_self)]
    change List.foldlM _ _ _ = _
    rw [ih _ _ fun r member => pass r (List.mem_cons_of_mem q member)]
    cases rest with
    | nil => rfl
    | cons r rest => rw [List.getLast?_cons_cons]; rfl

theorem PcbList.moved {front back : List ℕ} {prev : ℕ} (list : PcbList s (front ++ prev :: pcb :: back)) :
    PcbList ((s.write prev { s.pcbs prev with next := (s.pcbs pcb).next }).putInFront pcb)
        (pcb :: (front ++ prev :: back)) ∧
      socket ((s.write prev { s.pcbs prev with next := (s.pcbs pcb).next }).putInFront pcb) = socket s := by
  have same : socket (s.write prev { s.pcbs prev with next := (s.pcbs pcb).next }) = socket s := by
    rw [socket_write]
    exact Function.update_eq_self prev (socket s)
  have sockets : socket ((s.write prev { s.pcbs prev with next := (s.pcbs pcb).next }).putInFront pcb) = socket s :=
    socket_putInFront.trans same
  have perm : (pcb :: (front ++ prev :: back)).Perm (front ++ prev :: pcb :: back) := by
    have seam : ((front ++ [prev]) ++ pcb :: back).Perm (pcb :: ((front ++ [prev]) ++ back)) := List.perm_middle
    simpa using seam.symm
  have apart : pcb ∉ front ++ prev :: back := (List.nodup_cons.mp (perm.nodup_iff.mpr list.chain.nodup)).1
  have chain : Chain (links (s.write prev { s.pcbs prev with next := (s.pcbs pcb).next })) s.udpPcbs
      (front ++ prev :: back) := by
    rw [links_write]
    exact list.chain.detach
  exact ⟨list.reorder (chain_putInFront chain apart) perm sockets rfl rfl rfl, sockets⟩

/-- The datagram finds its recipient, and a perfect match moves to the front. -/
theorem PcbList.demux_spec (list : PcbList s l) (ip : IpData) (inp : Netif) (src dest : BitVec 16) :
    ∃ t, s.demux ip inp src dest = some (t, recipient (socket s) l ip inp src dest) ∧
      PcbList t (match l.find? fun pcb => perfect ip inp src dest (socket s pcb) with
        | some pcb => l.moveToFront pcb
        | none => l) ∧
      socket t = socket s ∧ t.live = s.live := by
  rw [UdpStore.demux, list.forPcbs_eq, Option.map_some, recipient]
  cases found : l.find? fun pcb => perfect ip inp src dest (socket s pcb) with
  | none =>
    obtain ⟨last, folded⟩ := demux_pass (socket s) none none fun pcb member =>
      Bool.eq_false_iff.mpr (List.find?_eq_none.mp found pcb member)
    exact ⟨s, congrArg (fun r => some (s.afterDemux r)) folded, list, rfl, rfl⟩
  | some pcb =>
    obtain ⟨here, front, back, rfl, before⟩ := List.find?_eq_some_iff_append.mp found
    have folded := demux_perfect (socket s) none none back
      (fun q member => by simpa using before q member) here
    have result := congrArg (fun r => some (s.afterDemux r)) folded
    have off : pcb ∉ front := fun member =>
      (List.nodup_append.mp list.chain.nodup).2.2 pcb member pcb List.mem_cons_self rfl
    simp only [List.moveToFront_append off, Option.some_or]
    rcases List.eq_nil_or_concat front with rfl | ⟨front, prev, rfl⟩
    · exact ⟨s, result, list, rfl, rfl⟩
    · rw [List.concat_eq_append, List.getLast?_concat, List.append_assoc, List.singleton_append] at result
      rw [List.concat_eq_append, List.append_assoc, List.singleton_append] at list ⊢
      rw [List.append_assoc, List.singleton_append]
      exact ⟨_, result, list.moved.1, list.moved.2, rfl⟩

end Demux

section Input

variable {s : UdpStore} {l : List ℕ}

theorem PcbList.udpInput_spec (list : PcbList s l) (ip : IpData) (inp : Netif) (p : List Stretch) :
    ∃ t l', s.udpInput ip inp p = some (t, if (p.headD ⟨0, []⟩).data.length < udpHlen then .short
        else deliver (socket s) (recipient (socket s) l ip inp (udphdr p).src (udphdr p).dest) ip inp p) ∧
      PcbList t l' ∧ socket t = socket s ∧ t.live = s.live := by
  rw [UdpStore.udpInput]
  split
  · exact ⟨s, l, rfl, list, rfl, rfl⟩
  · obtain ⟨t, returns, list', sockets, live⟩ := list.demux_spec ip inp (udphdr p).src (udphdr p).dest
    refine ⟨t, _, ?_, list', sockets, live⟩
    rw [returns, ← sockets]
    rfl

theorem PcbList.sendtoIfSrc_spec {pcb : ℕ} (list : PcbList s l) (alive : pcb ∈ s.live) (p : List Stretch)
    (dstIp : Ip4Addr) (dstPort : BitVec 16) (srcIp : Ip4Addr) (room : HeaderRoom) :
    ∃ t l' chosen, s.udpSendtoIfSrc pcb p dstIp dstPort srcIp room =
        some (t, if room = .noMemory then .inl .mem else
          .inr (udpPacket { socket s pcb with localPort := chosen } p dstIp dstPort srcIp room)) ∧
      PcbList t l' ∧ t.live = s.live ∧ AutoPort s pcb chosen ∧
      socket t = Function.update (socket s) pcb { socket s pcb with localPort := chosen } := by
  obtain ⟨t, l', chosen, returns, list', live, auto, sockets⟩ := list.bindFirst_spec alive
  refine ⟨t, l', chosen, ?_, list', live, auto, sockets⟩
  have here : socket t pcb = { socket s pcb with localPort := chosen } := by rw [sockets, Function.update_self]
  rw [UdpStore.udpSendtoIfSrc, returns, Option.map_some, ← here]
  simp only [ne_eq, not_true_eq_false, if_false]
  split <;> rfl

end Input

end WirelessSpeakers.Soundness
