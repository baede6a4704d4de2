import Mathlib.Data.List.GetD
import WirelessSpeakers.Soundness.InetChksum
import WirelessSpeakers.Soundness.UdpUse

/-! # A datagram from one system to another

What `udp_sendto_if_src` makes of data and `udp_input` of that: whatever the pbufs of the sender and those of the
receiver, the data arrives with its ports, or is discarded. A datagram that one byte of was changed on its way
never arrives with other data, or from or at another port.
-/

namespace WirelessSpeakers.Soundness

open Model

section Header

variable {p : List Stretch} {room : HeaderRoom}

@[simp] theorem append_halves (n : BitVec 16) : (n.extractLsb' 8 8 ++ n.extractLsb' 0 8 : BitVec 16) = n := by
  apply BitVec.eq_of_toNat_eq
  have := n.isLt
  rw [BitVec.toNat_append, BitVec.extractLsb'_toNat, BitVec.extractLsb'_toNat,
    ← Nat.shiftLeft_add_eq_or_of_lt (by omega), Nat.shiftRight_eq_div_pow, Nat.shiftLeft_eq]
  omega

/-- A header is read as it was written. -/
theorem load_bytes (hdr : UdpHdr) (data : List Byte) : UdpHdr.load (hdr.bytes ++ data) = hdr := by
  simp [UdpHdr.load, ntohsAt, UdpHdr.bytes, htonsBytes]

theorem length_bytes_udpHdr (hdr : UdpHdr) : hdr.bytes.length = udpHlen := rfl

theorem chainLen_eq (p : List Stretch) : chainLen p = .ofNat 16 (together p).length := by
  rw [chainLen, together, List.length_flatMap]

/-- The packet is the header and the data, wherever the header found room. -/
theorem together_withHeader (header : List Byte) (some : room ≠ .noMemory) (small : (together p).length < 65536) :
    together (withHeader header p room) = header ++ together p := by
  cases room with
  | inFront => cases p <;> simp [withHeader, together]
  | separate addr =>
    rw [withHeader, chainLen_eq]
    split
    · next empty =>
      have none : (together p).length = 0 := by
        have value := congrArg BitVec.toNat empty
        rw [BitVec.toNat_ofNat, Nat.mod_eq_of_lt small] at value
        exact value
      rw [List.length_eq_zero_iff.mp none]
      simp [together]
    · rfl
  | noMemory => exact absurd rfl some

/-- A first pbuf that holds the header begins with it. -/
theorem first_append {r : List Stretch} {front back : List Byte} (whole : together r = front ++ back)
    (long : front.length ≤ (r.headD ⟨0, []⟩).data.length) :
    ∃ rest, (r.headD ⟨0, []⟩).data = front ++ rest := by
  cases r with
  | nil =>
    rw [List.length_eq_zero_iff.mp (Nat.le_zero.mp long)]
    exact ⟨[], rfl⟩
  | cons q rest =>
    have same : q.data ++ together rest = front ++ back := whole
    have prefixes : front <+: q.data :=
      List.prefix_of_prefix_length_le (same ▸ List.prefix_append front back) (List.prefix_append q.data _) long
    obtain ⟨behind, here⟩ := prefixes
    exact ⟨behind, here.symm⟩

theorem udphdr_eq {r : List Stretch} {hdr : UdpHdr} {data : List Byte} (whole : together r = hdr.bytes ++ data)
    (long : udpHlen ≤ (r.headD ⟨0, []⟩).data.length) : udphdr r = hdr := by
  obtain ⟨rest, first⟩ := first_append whole long
  rw [udphdr, first, load_bytes]

theorem together_hideHeader {r : List Stretch} (long : udpHlen ≤ (r.headD ⟨0, []⟩).data.length) :
    together (hideHeader r) = (together r).drop udpHlen := by
  cases r with
  | nil => rfl
  | cons q rest =>
    have inside : udpHlen ≤ q.data.length := long
    simp only [hideHeader, together, List.flatMap_cons]
    rw [List.drop_append_of_le_length inside]

theorem udphdr_together {r : List Stretch} (long : udpHlen ≤ (r.headD ⟨0, []⟩).data.length) :
    udphdr r = .load (together r) := by
  cases r with
  | nil => rfl
  | cons q rest =>
    have inside : 8 ≤ q.data.length := long
    have byte : ∀ i < 8, (q.data ++ together rest).getD i 0 = q.data.getD i 0 := fun i below =>
      List.getD_append _ _ _ _ (by omega)
    change UdpHdr.load q.data = .load (q.data ++ together rest)
    simp only [UdpHdr.load, ntohsAt]
    rw [byte 0 (by decide), byte (0 + 1) (by decide), byte 2 (by decide), byte (2 + 1) (by decide), byte 4 (by decide),
      byte (4 + 1) (by decide), byte 6 (by decide), byte 7 (by decide)]

/-- A changed byte leaves the others. -/
theorem getD_changed {front back : List Byte} {one other : Byte} {i : ℕ} (apart : i ≠ front.length) :
    (front ++ one :: back).getD i 0 = (front ++ other :: back).getD i 0 := by
  rcases Nat.lt_or_gt_of_ne apart with before | behind
  · rw [List.getD_append _ _ _ _ before, List.getD_append _ _ _ _ before]
  · obtain ⟨k, rfl⟩ : ∃ k, i = front.length + (k + 1) := ⟨i - front.length - 1, by omega⟩
    rw [List.getD_append_right _ _ _ _ (by omega), List.getD_append_right _ _ _ _ (by omega), Nat.add_sub_cancel_left]
    rfl

/-- A header whose checksum is lost has lost nothing else. -/
theorem load_changed {hdr : UdpHdr} {data front back : List Byte} {one other : Byte}
    (whole : hdr.bytes ++ data = front ++ one :: back) (some : hdr.chksum ≠ 0)
    (lost : (UdpHdr.load (front ++ other :: back)).chksum = 0) :
    (UdpHdr.load (front ++ other :: back)).src = hdr.src ∧ (UdpHdr.load (front ++ other :: back)).dest = hdr.dest ∧
      (front ++ other :: back).drop udpHlen = data := by
  have loaded := load_bytes hdr data
  rw [whole] at loaded
  have place : front.length = 6 ∨ front.length = 7 := by
    by_contra away
    have same : (UdpHdr.load (front ++ other :: back)).chksum = hdr.chksum := by
      rw [← loaded]
      simp only [UdpHdr.load]
      rw [getD_changed (i := 7) (by omega), getD_changed (i := 6) (by omega)]
    exact some (same ▸ lost)
  have rest : data = (front ++ one :: back).drop udpHlen := by
    rw [← whole]
    rfl
  refine ⟨?_, ?_, ?_⟩
  · rw [← loaded]
    simp only [UdpHdr.load, ntohsAt]
    rw [getD_changed (i := 0) (by omega), getD_changed (i := 0 + 1) (by omega)]
  · rw [← loaded]
    simp only [UdpHdr.load, ntohsAt]
    rw [getD_changed (i := 2) (by omega), getD_changed (i := 2 + 1) (by omega)]
  · have eight : udpHlen = 8 := rfl
    rw [rest, eight, List.drop_append, List.drop_append]
    rcases place with six | seven
    · simp [six]
    · simp [seven]

end Header

section Checksum

variable {q r : List Stretch} {srcIp dstIp : Ip4Addr}

/-- What the checksum of a datagram is of. -/
def covered (data : List Byte) (srcIp dstIp : Ip4Addr) : List Byte :=
  pseudoHeader ipProtoUdp (.ofNat 16 data.length) srcIp dstIp ++ data

theorem chksum_eq (small : (together r).length < 65536) (srcIp dstIp : Ip4Addr) :
    ∃ sum, inetChksumPseudo r ipProtoUdp (chainLen r) srcIp dstIp = invert sum ∧
      Sums sum (number (covered (together r) srcIp dstIp)) := by
  have each : ∀ q ∈ r, q.data.length ≤ 0x20000 := fun q member => by
    have := length_le_together member
    omega
  rw [covered, ← chainLen_eq]
  exact chksum_pseudo_eq each ipProtoUdp (chainLen r) srcIp dstIp

/-- What `udp_input` checks. -/
theorem chksum_zero_iff (small : (together r).length < 65536) :
    inetChksumPseudo r ipProtoUdp (chainLen r) srcIp dstIp = 0 ↔
      SameSum 65535 (number (covered (together r) srcIp dstIp)) 65535 := by
  obtain ⟨sum, returns, sums⟩ := chksum_eq small srcIp dstIp
  have le := sums.le
  rw [returns]
  constructor
  · intro zero
    have full : sum = 65535 := by
      unfold invert at zero
      omega
    rw [full] at sums
    exact sums.same.symm
  · intro full
    have same : sum = 65535 := (sums.same.trans full).unique le le_rfl
    unfold invert
    omega

/-- The checksum that is sent makes the sum whole, and is never 0, which would be none. -/
theorem udpChksum_spec (small : (together q).length < 65536) (srcIp dstIp : Ip4Addr) :
    udpChksum q srcIp dstIp ≠ 0 ∧
      SameSum 65535 (number (covered (together q) srcIp dstIp) + (udpChksum q srcIp dstIp).toNat) 65535 := by
  obtain ⟨sum, returns, sums⟩ := chksum_eq small srcIp dstIp
  have le := sums.le
  have inverse : invert sum = 65535 - sum := by
    unfold invert
    omega
  rw [udpChksum, returns, inverse]
  split
  · next zero =>
    have full : sum = 65535 := by omega
    rw [full] at sums
    have whole : SameSum 65535 (65535 + (0xffff : BitVec 16).toNat) 65535 := ⟨rfl, by simp⟩
    exact ⟨by decide, (sums.same.symm.add_right _).trans whole⟩
  · next some =>
    have value : (BitVec.ofNat 16 (65535 - sum)).toNat = 65535 - sum := by
      rw [BitVec.toNat_ofNat]
      omega
    refine ⟨fun zero => some ?_, ?_⟩
    · rw [← value, zero]
      rfl
    · rw [value, Nat.add_comm]
      exact sameSum_complement sums.same le

/-- A checksum counts as much as it is in its place. -/
theorem number_chksum (front back : List Byte) (even : front.length % 2 = 0) (chksum : BitVec 16) :
    SameSum 65535 (number (front ++ ([chksum.extractLsb' 0 8, chksum.extractLsb' 8 8] ++ back)))
      (number (front ++ ([0, 0] ++ back)) + chksum.toNat) := by
  have word : (chksum.extractLsb' 0 8).toNat + 256 * (chksum.extractLsb' 8 8).toNat = chksum.toNat := by
    have := chksum.isLt
    rw [BitVec.extractLsb'_toNat, BitVec.extractLsb'_toNat, Nat.shiftRight_eq_div_pow, Nat.shiftRight_eq_div_pow]
    omega
  have written := number_append front ([chksum.extractLsb' 0 8, chksum.extractLsb' 8 8] ++ back)
  have empty := number_append front ([0, 0] ++ back)
  rw [if_pos even] at written empty
  have values : number ([chksum.extractLsb' 0 8, chksum.extractLsb' 8 8] ++ back) =
      number ([0, 0] ++ back) + chksum.toNat := by
    simp only [List.cons_append, List.nil_append, number_cons]
    have zero : (0 : Byte).toNat = 0 := rfl
    omega
  rw [values, ← Nat.add_assoc] at written
  exact written.trans (empty.symm.add_right _)

/-- The sum of a datagram with its checksum in place. -/
theorem number_covered (hdr : UdpHdr) (data : List Byte) (srcIp dstIp : Ip4Addr) :
    SameSum 65535 (number (covered (hdr.bytes ++ data) srcIp dstIp))
      (number (covered ({ hdr with chksum := 0 }.bytes ++ data) srcIp dstIp) + hdr.chksum.toNat) := by
  have long : ({ hdr with chksum := 0 }.bytes ++ data).length = (hdr.bytes ++ data).length := by
    rw [List.length_append, List.length_append, length_bytes_udpHdr, length_bytes_udpHdr]
  rw [covered, covered, long]
  generalize (hdr.bytes ++ data).length = len
  have even : (pseudoHeader ipProtoUdp (.ofNat 16 len) srcIp dstIp ++
      (htonsBytes hdr.src ++ htonsBytes hdr.dest ++ htonsBytes hdr.len)).length % 2 = 0 := by
    simp [length_pseudoHeader, htonsBytes]
  have place := number_chksum _ data even hdr.chksum
  simp only [UdpHdr.bytes, List.append_assoc] at place ⊢
  exact place

/-- The bytes that are sent: a header and the data, which pass the check if a checksum is made. -/
theorem udpPacket_spec {p : List Stretch} {room : HeaderRoom} (pcb : StructUdpPcb) (some : room ≠ .noMemory)
    (small : (together p).length + udpHlen < 65536) (dstPort : BitVec 16) (srcIp dstIp : Ip4Addr) :
    ∃ hdr : UdpHdr, hdr.src = pcb.localPort ∧ hdr.dest = dstPort ∧
      together (udpPacket pcb p dstIp dstPort srcIp room).q = hdr.bytes ++ together p ∧
      if pcb.flags &&& udpFlagsNochksum = 0 then
        hdr.chksum ≠ 0 ∧ SameSum 65535 (number (covered (hdr.bytes ++ together p) srcIp dstIp)) 65535
      else hdr.chksum = 0 := by
  have whole : ∀ hdr : UdpHdr, together (withHeader hdr.bytes p room) = hdr.bytes ++ together p := fun hdr =>
    together_withHeader hdr.bytes some (by omega)
  refine ⟨_, rfl, rfl, whole _, ?_⟩
  split
  · next made =>
    generalize blank : UdpHdr.mk pcb.localPort dstPort (chainLen (withHeader (List.replicate udpHlen 0) p room)) 0 = hdr
    have length : (together (withHeader hdr.bytes p room)).length < 65536 := by
      rw [whole, List.length_append, length_bytes_udpHdr]
      omega
    obtain ⟨nonzero, full⟩ := udpChksum_spec length srcIp dstIp
    rw [whole] at full
    refine ⟨nonzero, (number_covered _ _ _ _).trans ?_⟩
    subst blank
    exact full
  · rfl

end Checksum

section Transfer

variable {s t : UdpStore} {pcb : ℕ} {p r : List Stretch}

/-- What a datagram that passed all checks comes to. -/
def Arrives (t : UdpStore) (srcIp : Ip4Addr) (srcPort : BitVec 16) (data : List Byte) : Option ℕ → UdpFate → Prop
  | some q, fate => match (socket t q).recv with
    | none => fate = .noRecv q
    | some recvArg => ∃ d, fate = .received recvArg q d srcIp srcPort ∧ together d = data
  | none, fate => fate = .notForUs ∨ ∃ unreach, fate = .noPort unreach

theorem deliver_arrives {hdr : UdpHdr} {data : List Byte} {ip : IpData} (t : UdpStore) (who : Option ℕ) (inp : Netif)
    (whole : together r = hdr.bytes ++ data) (long : udpHlen ≤ (r.headD ⟨0, []⟩).data.length)
    (passes : hdr.chksum = 0 ∨ inetChksumPseudo r ipProtoUdp (chainLen r) ip.src ip.dest = 0) :
    Arrives t ip.src hdr.src data who (deliver t.pcbs who ip inp r) := by
  have rest : together (hideHeader r) = data := by
    rw [together_hideHeader long, whole]
    rfl
  have checked : ¬((udphdr r).chksum ≠ 0 ∧ inetChksumPseudo r ipProtoUdp (chainLen r) ip.src ip.dest ≠ 0) := by
    rw [udphdr_eq whole long]
    tauto
  cases who with
  | none =>
    rw [deliver, if_neg checked]
    split
    · exact .inl rfl
    · exact .inr ⟨_, rfl⟩
  | some q =>
    rw [deliver, if_neg checked, udphdr_eq whole long]
    cases recv : (t.pcbs q).recv with
    | none =>
      have here : (socket t q).recv = none := recv
      simp [Arrives, here]
    | some recvArg =>
      have here : (socket t q).recv = some recvArg := recv
      simp only [Arrives, here]
      exact ⟨_, rfl, rest⟩

/-- What `udp_sendto_if_src` sends, and any receiver gets in any division with the header in one piece, passes the
receiver's checks; and if a pcb may have it, it has the data and the port of the sender. -/
theorem udp_round_trip (sender : udpUse.Reachable s) (receiver : udpUse.Reachable t) (alive : pcb ∈ s.live)
    (small : (together p).length + udpHlen < 65536) {room : HeaderRoom} (memory : room ≠ .noMemory)
    (dstPort : BitVec 16) (ip : IpData) (inp : Netif) :
    ∃ s' packet, s.udpSendtoIfSrc pcb p ip.dest dstPort ip.src room = some (s', .inr packet) ∧
      packet.src = ip.src ∧ packet.dest = ip.dest ∧ (socket s' pcb).localPort ≠ 0 ∧
      ∀ r, together r = together packet.q → udpHlen ≤ (r.headD ⟨0, []⟩).data.length →
        ∃ t' who fate, t.udpInput ip inp r = some (t', fate) ∧
          MayReceive t ip inp (socket s' pcb).localPort dstPort who ∧
          Arrives t ip.src (socket s' pcb).localPort (together p) who fate := by
  obtain ⟨l, list⟩ := reachable_listed sender
  obtain ⟨s', _, chosen, returns, _, _, auto, sockets⟩ :=
    list.sendtoIfSrc_spec alive p ip.dest dstPort ip.src room
  rw [if_neg memory] at returns
  have port : (socket s' pcb).localPort = chosen := by rw [sockets, Function.update_self]
  refine ⟨s', _, returns, rfl, rfl, by rw [port]; exact auto.some, fun r same long => ?_⟩
  obtain ⟨hdr, src, dest, bytes, sum⟩ :=
    udpPacket_spec { socket s pcb with localPort := chosen } memory small dstPort ip.src ip.dest
  rw [bytes] at same
  have length : (together r).length < 65536 := by
    rw [same, List.length_append, length_bytes_udpHdr]
    omega
  have passes : hdr.chksum = 0 ∨ inetChksumPseudo r ipProtoUdp (chainLen r) ip.src ip.dest = 0 := by
    split at sum
    · rw [chksum_zero_iff length, same]
      exact .inr sum.2
    · exact .inl sum
  obtain ⟨t', who, given, may, _⟩ := datagram_recipient receiver ip inp r long
  rw [udphdr_eq same long, src, dest] at may
  have arrives := deliver_arrives t who inp same long passes
  rw [src] at arrives
  exact ⟨t', who, _, given, port ▸ may, port ▸ arrives⟩

/-- Three bytes from a pcb that is bound on the way. -/
theorem udp_round_trip_threeBytes : ∃ s t, udpUse.run [.new] = some s ∧
    udpUse.run [.new, .bind 5 none 50005, .recv 5 (some 1)] = some t ∧
    ∃ s' packet, s.udpSendtoIfSrc 5 [⟨3, [1, 2, 3]⟩] ⟨10, 0, 0, 1⟩ 50005 ⟨10, 0, 0, 2⟩ (.separate 0) =
        some (s', .inr packet) ∧
      ∀ r, together r = together packet.q → udpHlen ≤ (r.headD ⟨0, []⟩).data.length →
        ∃ t' who fate, t.udpInput fromSecondPc fromSecondPc.currentNetif r = some (t', fate) ∧
          Arrives t ⟨10, 0, 0, 2⟩ (socket s' 5).localPort [1, 2, 3] who fate := by
  refine ⟨_, _, rfl, rfl, ?_⟩
  obtain ⟨s', packet, returns, _, _, _, arrives⟩ := udp_round_trip ⟨[.new], rfl⟩
    ⟨[.new, .bind 5 none 50005, .recv 5 (some 1)], rfl⟩ (show 5 ∈ _ by decide)
    (p := [⟨3, [1, 2, 3]⟩]) (by decide) (show HeaderRoom.separate 0 ≠ .noMemory by decide) 50005
    fromSecondPc fromSecondPc.currentNetif
  refine ⟨s', packet, returns, fun r same long => ?_⟩
  obtain ⟨t', who, fate, given, _, arrived⟩ := arrives r same long
  exact ⟨t', who, fate, given, arrived⟩

theorem of_received {who : Option ℕ} {ip : IpData} {inp : Netif} {recvArg q : ℕ} {d : List Stretch} {addr : Ip4Addr}
    {port : BitVec 16} (received : deliver t.pcbs who ip inp r = .received recvArg q d addr port) :
    who = some q ∧ d = hideHeader r ∧ addr = ip.src ∧ port = (udphdr r).src ∧
      ((udphdr r).chksum = 0 ∨ inetChksumPseudo r ipProtoUdp (chainLen r) ip.src ip.dest = 0) := by
  cases who with
  | none =>
    rw [deliver] at received
    split at received
    · contradiction
    · split at received <;> contradiction
  | some q' =>
    rw [deliver, if_neg (by simp)] at received
    split at received
    · contradiction
    · next passes =>
      split at received
      · contradiction
      · cases received
        exact ⟨rfl, rfl, rfl, rfl, by tauto⟩

/-- Where a checksum is made and one byte of the datagram is changed on its way, no receiver gets other data, or data
from another port or at another port: it is lost, or only the checksum is. -/
theorem changed_byte_detected (sender : udpUse.Reachable s) (receiver : udpUse.Reachable t) (alive : pcb ∈ s.live)
    (small : (together p).length + udpHlen < 65536) {room : HeaderRoom} (memory : room ≠ .noMemory)
    (checked : (socket s pcb).flags &&& udpFlagsNochksum = 0) (dstPort : BitVec 16) (ip : IpData) (inp : Netif) :
    ∃ s' packet, s.udpSendtoIfSrc pcb p ip.dest dstPort ip.src room = some (s', .inr packet) ∧
      ∀ front one other back r, together packet.q = front ++ one :: back → one ≠ other →
        together r = front ++ other :: back →
        ∃ t' fate, t.udpInput ip inp r = some (t', fate) ∧ ∀ recvArg q d addr port,
          fate = .received recvArg q d addr port → addr = ip.src ∧ port = (socket s' pcb).localPort ∧
            (socket t q).localPort = dstPort ∧ together d = together p := by
  obtain ⟨l, list⟩ := reachable_listed sender
  obtain ⟨s', _, chosen, returns, _, _, _, sockets⟩ :=
    list.sendtoIfSrc_spec alive p ip.dest dstPort ip.src room
  rw [if_neg memory] at returns
  have sent : (socket s' pcb).localPort = chosen := by rw [sockets, Function.update_self]
  refine ⟨s', _, returns, fun front one other back r whole differs changed => ?_⟩
  obtain ⟨hdr, src, dest, bytes, sum⟩ :=
    udpPacket_spec { socket s pcb with localPort := chosen } memory small dstPort ip.src ip.dest
  rw [if_pos checked] at sum
  rw [bytes] at whole
  have length : (together r).length = (front ++ one :: back).length := by
    rw [changed, List.length_append, List.length_append]
    rfl
  have total : (together r).length < 65536 := by
    rw [length, ← whole, List.length_append, length_bytes_udpHdr]
    omega
  rcases Nat.lt_or_ge (r.headD ⟨0, []⟩).data.length udpHlen with short | long
  · exact ⟨t, .short, by rw [UdpStore.udpInput, if_pos short], by rintro _ _ _ _ _ ⟨⟩⟩
  · obtain ⟨t', who, given, may, _⟩ := datagram_recipient receiver ip inp r long
    refine ⟨t', _, given, fun recvArg q d addr port received => ?_⟩
    obtain ⟨rfl, rfl, rfl, rfl, passes⟩ := of_received received
    rw [udphdr_together long, changed] at passes
    have lost : (UdpHdr.load (front ++ other :: back)).chksum = 0 := by
      apply passes.resolve_right
      rw [chksum_zero_iff total, changed]
      intro full
      have same := full.trans (whole ▸ sum.2).symm
      rw [covered, covered, ← changed, length, changed, ← List.append_assoc, ← List.append_assoc] at same
      simp only [number, List.map_append, List.map_cons] at same
      exact not_sameSum_of_digit base other.isLt one.isLt (fun equal => differs (BitVec.eq_of_toNat_eq equal.symm)) same
    obtain ⟨srcKept, destKept, rest⟩ := load_changed whole sum.1 lost
    rw [udphdr_together long, changed] at may ⊢
    have meantFor : (socket t q).localPort = dstPort := by
      rw [destKept, dest] at may
      exact may.port
    rw [srcKept, src, together_hideHeader long, changed, rest]
    exact ⟨rfl, sent.symm, meantFor, rfl⟩

theorem changed_byte_detected_threeBytes : ∃ s t, udpUse.run [.new] = some s ∧
    udpUse.run [.new, .bind 5 none 50005, .recv 5 (some 1)] = some t ∧
    ∃ s' packet, s.udpSendtoIfSrc 5 [⟨3, [1, 2, 3]⟩] ⟨10, 0, 0, 1⟩ 50005 ⟨10, 0, 0, 2⟩ .inFront =
        some (s', .inr packet) ∧
      ∀ front one other back r, together packet.q = front ++ one :: back → one ≠ other →
        together r = front ++ other :: back →
        ∃ t' fate, t.udpInput fromSecondPc fromSecondPc.currentNetif r = some (t', fate) ∧
          ∀ recvArg q d addr port, fate = .received recvArg q d addr port → addr = ⟨10, 0, 0, 2⟩ ∧
            port = (socket s' 5).localPort ∧ (socket t q).localPort = 50005 ∧ together d = [1, 2, 3] := by
  refine ⟨_, _, rfl, rfl, ?_⟩
  exact changed_byte_detected ⟨[.new], rfl⟩ ⟨[.new, .bind 5 none 50005, .recv 5 (some 1)], rfl⟩
    (show 5 ∈ _ by decide) (p := [⟨3, [1, 2, 3]⟩]) (by decide) (show HeaderRoom.inFront ≠ .noMemory by decide)
    (by decide) 50005 fromSecondPc fromSecondPc.currentNetif

end Transfer

end WirelessSpeakers.Soundness
