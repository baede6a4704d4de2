import WirelessSpeakers.Machine.LinkedList
import WirelessSpeakers.Machine.Tape
import WirelessSpeakers.Model.InetChksum
import Mathlib.Data.Finset.Insert

/-! # UDP in lwIP

`udp.c` for IPv4, as the options of this system leave it: no `SO_REUSE`, no UDP-Lite and no options for
multicast or broadcast. The pcbs are elements of their pool, and `udp_pcbs` is a list that goes from one to
the next. `none` is a system that touches memory which it has given back, or a loop over that list that does
not end.
-/

namespace WirelessSpeakers.Model

inductive ErrT
  | ok
  | mem
  | rte
  | val
  | use
deriving DecidableEq, Repr

namespace Ip4Addr

def any : Ip4Addr := ⟨0, 0, 0, 0⟩
def broadcast : Ip4Addr := ⟨0xff, 0xff, 0xff, 0xff⟩

/-- `ip4_addr_netcmp`. -/
def netcmp (one two mask : Ip4Addr) : Bool :=
  one.a &&& mask.a == two.a &&& mask.a && one.b &&& mask.b == two.b &&& mask.b &&
    one.c &&& mask.c == two.c &&& mask.c && one.d &&& mask.d == two.d &&& mask.d

/-- `ip4_addr_ismulticast`. -/
def isMulticast (addr : Ip4Addr) : Bool := addr.a &&& 0xf0 == 0xe0

/-- The bits of the host, without those of the net. -/
def host (addr mask : Ip4Addr) : Ip4Addr :=
  ⟨addr.a &&& ~~~mask.a, addr.b &&& ~~~mask.b, addr.c &&& ~~~mask.c, addr.d &&& ~~~mask.d⟩

end Ip4Addr

/-- What `udp.c` reads of `struct netif`. -/
structure Netif where
  ipAddr : Ip4Addr
  netmask : Ip4Addr
  flagBroadcast : Bool := true
deriving DecidableEq, Repr

/-- `ip4_addr_isbroadcast_u32`. -/
def Netif.isBroadcast (netif : Netif) (addr : Ip4Addr) : Bool :=
  if addr = .broadcast ∨ addr = .any then true
  else if !netif.flagBroadcast then false
  else if addr = netif.ipAddr then false
  else addr.netcmp netif.ipAddr netif.netmask && addr.host netif.netmask == Ip4Addr.broadcast.host netif.netmask

/-- `struct ip_globals`: the packet that is being processed. -/
structure IpData where
  currentNetif : Netif
  src : Ip4Addr
  dest : Ip4Addr
deriving DecidableEq, Repr

def mempNumUdpPcb : ℕ := 6
def udpTtl : Byte := 255
def udpHlen : ℕ := 8
def ipProtoUdp : Byte := 17
def udpLocalPortRangeStart : BitVec 16 := 0xc000
def udpLocalPortRangeEnd : BitVec 16 := 0xffff
def udpFlagsNochksum : BitVec 8 := 0x01
def udpFlagsConnected : BitVec 8 := 0x04

/-- `struct udp_pcb`, with `recv_arg` if there is a `recv`. -/
structure StructUdpPcb where
  localIp : Ip4Addr := .any
  remoteIp : Ip4Addr := .any
  tos : Byte := 0
  ttl : Byte := 0
  next : Option ℕ := none
  flags : BitVec 8 := 0
  localPort : BitVec 16 := 0
  remotePort : BitVec 16 := 0
  recv : Option ℕ := none
deriving DecidableEq, Repr

def StructUdpPcb.connected (pcb : StructUdpPcb) : Bool := pcb.flags &&& udpFlagsConnected != 0

/-- The first lines behind the label of `udp_new_port`. -/
def nextUdpPort (udpPort : BitVec 16) : BitVec 16 :=
  if udpPort = udpLocalPortRangeEnd then udpLocalPortRangeStart else udpPort + 1

/-- `udp_input_local_match`. -/
def udpInputLocalMatch (ip : IpData) (inp : Netif) (broadcast : Bool) (pcb : StructUdpPcb) : Bool :=
  if broadcast then
    pcb.localIp == .any || ip.dest == .broadcast || pcb.localIp.netcmp ip.dest inp.netmask
  else pcb.localIp == .any || pcb.localIp == ip.dest

/-- The comparison of a pcb with the source of a datagram. -/
def fullMatch (ip : IpData) (src : BitVec 16) (pcb : StructUdpPcb) : Bool :=
  pcb.remotePort == src && (pcb.remoteIp == .any || pcb.remoteIp == ip.src)

/-- The body of the loop of `udp_input`, with `prev` and `uncon_pcb`; it is left with `prev` and `pcb`. -/
def demuxBody (ip : IpData) (inp : Netif) (src dest : BitVec 16) :
    Option ℕ × Option ℕ → ℕ → StructUdpPcb → Except (Option ℕ × ℕ) (Option ℕ × Option ℕ)
  | (prev, unconPcb), pcb, value =>
    if value.localPort == dest &&
        udpInputLocalMatch ip inp (ip.currentNetif.isBroadcast ip.dest) value then
      let unconPcb := if !value.connected && unconPcb.isNone then some pcb else unconPcb
      if fullMatch ip src value then .error (prev, pcb) else .ok (some pcb, unconPcb)
    else .ok (some pcb, unconPcb)

/-- The pool of the pcbs, those that are allocated, and the two variables of `udp.c`. -/
structure UdpStore where
  udpPcbTab : List ℕ := (List.range mempNumUdpPcb).reverse
  live : Finset ℕ := ∅
  pcbs : ℕ → StructUdpPcb := fun _ => {}
  udpPcbs : Option ℕ := none
  udpPort : BitVec 16 := udpLocalPortRangeStart

namespace UdpStore

/-- Only allocated memory may be looked at. -/
def read (s : UdpStore) (pcb : ℕ) : Option StructUdpPcb := if pcb ∈ s.live then some (s.pcbs pcb) else none

def write (s : UdpStore) (pcb : ℕ) (value : StructUdpPcb) : UdpStore :=
  { s with pcbs := Function.update s.pcbs pcb value }

/-- `for (ipcb = udp_pcbs; ipcb != NULL; ipcb = ipcb->next)` with its body. -/
def forPcbs {σ β : Type} (s : UdpStore) (body : σ → ℕ → StructUdpPcb → Except β σ) (init : σ) :
    Option (Except β σ) :=
  scan s.read StructUdpPcb.next body s.live.card s.udpPcbs init

/-- Such a loop that is left at the first pcb of a kind. -/
def findPcb (s : UdpStore) (keep : ℕ → StructUdpPcb → Bool) : Option (Option ℕ) :=
  (s.forPcbs (fun () ipcb value => if keep ipcb value then .error ipcb else .ok ()) ()).map fun
    | .error ipcb => some ipcb
    | .ok () => none

/-- `pcb->next = udp_pcbs; udp_pcbs = pcb;`. -/
def putInFront (s : UdpStore) (pcb : ℕ) : UdpStore :=
  { s.write pcb { s.pcbs pcb with next := s.udpPcbs } with udpPcbs := some pcb }

/-- `udp_new`, and so `udp_new_ip_type`. -/
def udpNew (s : UdpStore) : UdpStore × Option ℕ :=
  match s.udpPcbTab with
  | [] => (s, none)
  | pcb :: udpPcbTab => ({ s.write pcb { ttl := udpTtl } with udpPcbTab, live := insert pcb s.live }, some pcb)

/-- `udp_remove`. -/
def udpRemove (s : UdpStore) (pcb : ℕ) : Option UdpStore :=
  (s.read pcb).bind fun value =>
    let unlinked :=
      if s.udpPcbs = some pcb then some { s with udpPcbs := value.next }
      else
        (s.findPcb fun _ pcb2 => pcb2.next == some pcb).map fun
          | some pcb2 => s.write pcb2 { s.pcbs pcb2 with next := value.next }
          | none => s
    unlinked.map fun s => { s with udpPcbTab := pcb :: s.udpPcbTab, live := s.live.erase pcb }

/-- `udp_new_port` from its label on, with what `n` may still be raised by. -/
def newPortAgain (s : UdpStore) : ℕ → BitVec 16 → Option (BitVec 16 × BitVec 16)
  | left, udpPort =>
    let udpPort := nextUdpPort udpPort
    (s.findPcb fun _ pcb => pcb.localPort == udpPort).bind fun
      | none => some (udpPort, udpPort)
      | some _ => match left with
        | 0 => some (udpPort, 0)
        | left + 1 => newPortAgain s left udpPort

/-- `udp_new_port`. -/
def udpNewPort (s : UdpStore) : Option (UdpStore × BitVec 16) :=
  (s.newPortAgain (udpLocalPortRangeEnd - udpLocalPortRangeStart).toNat s.udpPort).map fun (udpPort, port) =>
    ({ s with udpPort }, port)

/-- The port that `udp_bind` binds to, and 0 where it refuses. -/
def portToBind (s : UdpStore) (pcb : ℕ) (ipaddr : Ip4Addr) (port : BitVec 16) : Option (UdpStore × BitVec 16) :=
  if port = 0 then s.udpNewPort
  else
    (s.findPcb fun ipcb value => pcb != ipcb && value.localPort == port && value.localIp == ipaddr).map fun
      | some _ => (s, 0)
      | none => (s, port)

/-- `udp_bind`. -/
def udpBind (s : UdpStore) (pcb : ℕ) (ipaddr : Option Ip4Addr) (port : BitVec 16) : Option (UdpStore × ErrT) :=
  let ipaddr := ipaddr.getD .any
  (s.findPcb fun ipcb _ => pcb == ipcb).bind fun rebind =>
  (s.portToBind pcb ipaddr port).bind fun (s, port) =>
  if port = 0 then some (s, .use)
  else
    (s.read pcb).map fun value =>
      let s := s.write pcb { value with localIp := ipaddr, localPort := port }
      (if rebind.isSome then s else s.putInFront pcb, .ok)

/-- `if (pcb->local_port == 0)`, in `udp_connect` and `udp_sendto_if_src`. -/
def bindFirst (s : UdpStore) (pcb : ℕ) : Option (UdpStore × ErrT) :=
  (s.read pcb).bind fun value =>
    if value.localPort = 0 then s.udpBind pcb (some value.localIp) value.localPort else some (s, .ok)

/-- `udp_connect`. -/
def udpConnect (s : UdpStore) (pcb : ℕ) (ipaddr : Ip4Addr) (port : BitVec 16) : Option (UdpStore × ErrT) :=
  (s.bindFirst pcb).bind fun (s, err) =>
  if err ≠ .ok then some (s, err)
  else
    let value := s.pcbs pcb
    let s := s.write pcb
      { value with remoteIp := ipaddr, remotePort := port, flags := value.flags ||| udpFlagsConnected }
    (s.findPcb fun ipcb _ => pcb == ipcb).map fun
      | some _ => (s, .ok)
      | none => (s.putInFront pcb, .ok)

/-- `udp_disconnect`. -/
def udpDisconnect (s : UdpStore) (pcb : ℕ) : Option UdpStore :=
  (s.read pcb).map fun value =>
    s.write pcb { value with remoteIp := .any, remotePort := 0, flags := value.flags &&& ~~~udpFlagsConnected }

/-- `udp_recv`. -/
def udpRecv (s : UdpStore) (pcb : ℕ) (recv : Option ℕ) : Option UdpStore :=
  (s.read pcb).map fun value => s.write pcb { value with recv }

/-- The loop of `udp_netif_ip_addr_changed`. -/
def addrChangedWalk (oldAddr newAddr : Ip4Addr) : ℕ → UdpStore → Option ℕ → Option UdpStore
  | _, s, none => some s
  | 0, _, some _ => none
  | fuel + 1, s, some upcb => (s.read upcb).bind fun value =>
    addrChangedWalk oldAddr newAddr fuel
      (if value.localIp = oldAddr then s.write upcb { value with localIp := newAddr } else s) value.next

/-- `udp_netif_ip_addr_changed`. -/
def udpNetifIpAddrChanged (s : UdpStore) (oldAddr newAddr : Ip4Addr) : Option UdpStore :=
  if oldAddr ≠ .any ∧ newAddr ≠ .any then addrChangedWalk oldAddr newAddr s.live.card s s.udpPcbs else some s

/-- The end of that loop: a full match that is not the first of the list is moved to the front. -/
def afterDemux (s : UdpStore) : Except (Option ℕ × ℕ) (Option ℕ × Option ℕ) → UdpStore × Option ℕ
  | .error (some prev, pcb) =>
    ((s.write prev { s.pcbs prev with next := (s.pcbs pcb).next }).putInFront pcb, some pcb)
  | .error (none, pcb) => (s, some pcb)
  | .ok (_, unconPcb) => (s, unconPcb)

/-- The pcb that `udp_input` finds for a datagram. -/
def demux (s : UdpStore) (ip : IpData) (inp : Netif) (src dest : BitVec 16) : Option (UdpStore × Option ℕ) :=
  (s.forPcbs (demuxBody ip inp src dest) (none, none)).map s.afterDemux

end UdpStore

/-- The fields of `struct udp_hdr` in the bytes of a datagram. -/
structure UdpHdr where
  src : BitVec 16
  dest : BitVec 16
  len : BitVec 16
  chksum : BitVec 16
deriving DecidableEq, Repr

/-- A load of a field in network order. -/
def ntohsAt (data : List Byte) (i : ℕ) : BitVec 16 := data.getD i 0 ++ data.getD (i + 1) 0

/-- `(struct udp_hdr *)p->payload`, with the ports and the length in host order. -/
def UdpHdr.load (data : List Byte) : UdpHdr where
  src := ntohsAt data 0
  dest := ntohsAt data 2
  len := ntohsAt data 4
  chksum := data.getD 7 0 ++ data.getD 6 0

/-- What becomes of a datagram. -/
inductive UdpFate
  | short
  | chkerr
  /-- Neither a pcb nor the address of the interface is meant. -/
  | notForUs
  /-- No pcb; whether `icmp_port_unreach` is called. -/
  | noPort (unreach : Bool)
  /-- The pcb has no `recv`. -/
  | noRecv (pcb : ℕ)
  /-- `pcb->recv(recv_arg, pcb, p, addr, port)`. -/
  | received (recvArg pcb : ℕ) (p : List Stretch) (addr : Ip4Addr) (port : BitVec 16)
deriving DecidableEq, Repr

/-- The length `p->tot_len`. -/
def chainLen (p : List Stretch) : BitVec 16 := .ofNat 16 (p.map fun q => q.data.length).sum

/-- `pbuf_header(p, -UDP_HLEN)` for a pbuf that is long enough. -/
def hideHeader : List Stretch → List Stretch
  | [] => []
  | q :: rest => ⟨q.addr + udpHlen, q.data.drop udpHlen⟩ :: rest

/-- `udphdr`, where the first pbuf has it. -/
def udphdr (p : List Stretch) : UdpHdr := .load (p.headD ⟨0, []⟩).data

/-- The rest of `udp_input`, behind the search for the pcb. -/
def deliver (pcbs : ℕ → StructUdpPcb) (pcb : Option ℕ) (ip : IpData) (inp : Netif) (p : List Stretch) : UdpFate :=
  let forUs := pcb.isSome || inp.ipAddr == ip.dest
  if !forUs then .notForUs
  else if (udphdr p).chksum ≠ 0 ∧ inetChksumPseudo p ipProtoUdp (chainLen p) ip.src ip.dest ≠ 0 then .chkerr
  else
    match pcb with
    | none => .noPort (!ip.currentNetif.isBroadcast ip.dest && !ip.dest.isMulticast)
    | some pcb =>
      match (pcbs pcb).recv with
      | none => .noRecv pcb
      | some recvArg => .received recvArg pcb (hideHeader p) ip.src (udphdr p).src

/-- `udp_input`. -/
def UdpStore.udpInput (s : UdpStore) (ip : IpData) (inp : Netif) (p : List Stretch) : Option (UdpStore × UdpFate) :=
  if (p.headD ⟨0, []⟩).data.length < udpHlen then some (s, .short)
  else
    (s.demux ip inp (udphdr p).src (udphdr p).dest).map fun (s, pcb) => (s, deliver s.pcbs pcb ip inp p)

/-- Where `udp_sendto_if_src` has room for the header. -/
inductive HeaderRoom
  /-- `pbuf_header` makes room in the first pbuf. -/
  | inFront
  /-- `pbuf_alloc` makes a pbuf for it. -/
  | separate (addr : ℕ)
  | noMemory
deriving DecidableEq, Repr

/-- `q`, with the header in front of `p`. A `p` without data is not chained to a separate header. -/
def withHeader (header : List Byte) (p : List Stretch) : HeaderRoom → List Stretch
  | .inFront =>
    match p with
    | [] => [⟨0, header⟩]
    | q :: rest => ⟨q.addr - udpHlen, header ++ q.data⟩ :: rest
  | .separate addr => ⟨addr, header⟩ :: if chainLen p = 0 then [] else p
  | .noMemory => p

/-- A `u16_t` as `lwip_htons` leaves it in memory. -/
def htonsBytes (n : BitVec 16) : List Byte := [n.extractLsb' 8 8, n.extractLsb' 0 8]

/-- The header in memory; the checksum is stored as it is computed, in the order of the machine. -/
def UdpHdr.bytes (hdr : UdpHdr) : List Byte :=
  htonsBytes hdr.src ++ htonsBytes hdr.dest ++ htonsBytes hdr.len ++
    [hdr.chksum.extractLsb' 0 8, hdr.chksum.extractLsb' 8 8]

/-- A call of `ip_output_if_src`. -/
structure UdpPacket where
  q : List Stretch
  src : Ip4Addr
  dest : Ip4Addr
  ttl : Byte
  tos : Byte
deriving DecidableEq, Repr

/-- The checksum that `udp_sendto_if_src` stores. -/
def udpChksum (q : List Stretch) (srcIp dstIp : Ip4Addr) : BitVec 16 :=
  let udpchksum := inetChksumPseudo q ipProtoUdp (chainLen q) srcIp dstIp
  if udpchksum = 0 then 0xffff else .ofNat 16 udpchksum

/-- The packet that `udp_sendto_if_src` makes of `p`. -/
def udpPacket (pcb : StructUdpPcb) (p : List Stretch) (dstIp : Ip4Addr) (dstPort : BitVec 16) (srcIp : Ip4Addr)
    (room : HeaderRoom) : UdpPacket :=
  let header : UdpHdr := ⟨pcb.localPort, dstPort, chainLen (withHeader (List.replicate udpHlen 0) p room), 0⟩
  let chksum :=
    if pcb.flags &&& udpFlagsNochksum = 0 then udpChksum (withHeader header.bytes p room) srcIp dstIp else 0
  ⟨withHeader { header with chksum }.bytes p room, srcIp, dstIp, pcb.ttl, pcb.tos⟩

namespace UdpStore

/-- `udp_sendto_if_src`, up to its call of `ip_output_if_src`. -/
def udpSendtoIfSrc (s : UdpStore) (pcb : ℕ) (p : List Stretch) (dstIp : Ip4Addr) (dstPort : BitVec 16)
    (srcIp : Ip4Addr) (room : HeaderRoom) : Option (UdpStore × (ErrT ⊕ UdpPacket)) :=
  (s.bindFirst pcb).map fun (s, err) =>
  if err ≠ .ok then (s, .inl err)
  else if room = .noMemory then (s, .inl .mem)
  else (s, .inr (udpPacket (s.pcbs pcb) p dstIp dstPort srcIp room))

/-- `udp_sendto_if`. -/
def udpSendtoIf (s : UdpStore) (pcb : ℕ) (p : List Stretch) (dstIp : Ip4Addr) (dstPort : BitVec 16) (netif : Netif)
    (room : HeaderRoom) : Option (UdpStore × (ErrT ⊕ UdpPacket)) :=
  (s.read pcb).bind fun value =>
    if value.localIp = .any ∨ value.localIp.isMulticast then
      s.udpSendtoIfSrc pcb p dstIp dstPort netif.ipAddr room
    else if value.localIp ≠ netif.ipAddr then some (s, .inl .rte)
    else s.udpSendtoIfSrc pcb p dstIp dstPort value.localIp room

/-- `udp_sendto`, with the interface that `ip_route` finds. -/
def udpSendto (s : UdpStore) (pcb : ℕ) (p : List Stretch) (dstIp : Ip4Addr) (dstPort : BitVec 16)
    (ipRoute : Ip4Addr → Option Netif) (room : HeaderRoom) : Option (UdpStore × (ErrT ⊕ UdpPacket)) :=
  match ipRoute dstIp with
  | none => some (s, .inl .rte)
  | some netif => s.udpSendtoIf pcb p dstIp dstPort netif room

/-- `udp_send`. -/
def udpSend (s : UdpStore) (pcb : ℕ) (p : List Stretch) (ipRoute : Ip4Addr → Option Netif) (room : HeaderRoom) :
    Option (UdpStore × (ErrT ⊕ UdpPacket)) :=
  (s.read pcb).bind fun value => s.udpSendto pcb p value.remoteIp value.remotePort ipRoute room

end UdpStore

/-- A call of `udp.c`, with what the rest of the system decides about it. -/
inductive UdpCall
  | new
  | remove (pcb : ℕ)
  | bind (pcb : ℕ) (ipaddr : Option Ip4Addr) (port : BitVec 16)
  | connect (pcb : ℕ) (ipaddr : Ip4Addr) (port : BitVec 16)
  | disconnect (pcb : ℕ)
  | recv (pcb : ℕ) (recv : Option ℕ)
  | netifIpAddrChanged (oldAddr newAddr : Ip4Addr)
  | input (ip : IpData) (inp : Netif) (p : List Stretch)
  | send (pcb : ℕ) (p : List Stretch) (ipRoute : Ip4Addr → Option Netif) (room : HeaderRoom)
  | sendto (pcb : ℕ) (p : List Stretch) (dstIp : Ip4Addr) (dstPort : BitVec 16) (ipRoute : Ip4Addr → Option Netif)
      (room : HeaderRoom)

/-- The pcb that a call is about. -/
def UdpCall.pcb? : UdpCall → Option ℕ
  | .new => none
  | .remove pcb => some pcb
  | .bind pcb _ _ => some pcb
  | .connect pcb _ _ => some pcb
  | .disconnect pcb => some pcb
  | .recv pcb _ => some pcb
  | .netifIpAddrChanged _ _ => none
  | .input _ _ _ => none
  | .send pcb _ _ _ => some pcb
  | .sendto pcb _ _ _ _ _ => some pcb

/-- What a call does to the pcbs. -/
def UdpStore.call (s : UdpStore) : UdpCall → Option UdpStore
  | .new => some s.udpNew.1
  | .remove pcb => s.udpRemove pcb
  | .bind pcb ipaddr port => (s.udpBind pcb ipaddr port).map Prod.fst
  | .connect pcb ipaddr port => (s.udpConnect pcb ipaddr port).map Prod.fst
  | .disconnect pcb => s.udpDisconnect pcb
  | .recv pcb recv => s.udpRecv pcb recv
  | .netifIpAddrChanged oldAddr newAddr => s.udpNetifIpAddrChanged oldAddr newAddr
  | .input ip inp p => (s.udpInput ip inp p).map Prod.fst
  | .send pcb p ipRoute room => (s.udpSend pcb p ipRoute room).map Prod.fst
  | .sendto pcb p dstIp dstPort ipRoute room => (s.udpSendto pcb p dstIp dstPort ipRoute room).map Prod.fst

/-- All orders of calls, with pcbs that have not been removed. -/
def udpUse : TapeMachine UdpStore UdpCall where
  init := {}
  step s call := if ∀ pcb ∈ call.pcb?, pcb ∈ s.live then s.call call else none

end WirelessSpeakers.Model
