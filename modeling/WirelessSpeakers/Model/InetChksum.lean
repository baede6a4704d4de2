import WirelessSpeakers.Model.Netbuf

/-! # The Internet checksum of lwIP

`inet_chksum.c` on a little-endian machine. `LWIP_CHKSUM_ALGORITHM` is 2 here; the other two versions of
`lwip_standard_chksum` are there to be chosen instead. Data lies somewhere in memory, and only the alignment
of its address matters. Sums are 32 bits wide.
-/

namespace WirelessSpeakers.Model

/-- Bytes in memory from an address on. -/
structure Stretch where
  addr : ℕ
  data : List Byte
deriving DecidableEq, Repr

/-- A load of a `u16_t`. -/
def loadU16 (low high : Byte) : ℕ := low.toNat + 256 * high.toNat

/-- A load of a `u32_t`. -/
def loadU32 (b0 b1 b2 b3 : Byte) : ℕ := loadU16 b0 b1 + 65536 * loadU16 b2 b3

/-- `FOLD_U32T(u)`: `(u >> 16) + (u & 0xffff)`. -/
def foldU32T (u : ℕ) : ℕ := u / 65536 + u % 65536

/-- `SWAP_BYTES_IN_WORD(w)`: `((w & 0xff) << 8) | ((w & 0xff00) >> 8)`. -/
def swapBytesInWord (w : ℕ) : ℕ := w % 256 * 256 + w / 256 % 256

/-- `lwip_htons`, whose body is that of `SWAP_BYTES_IN_WORD`. -/
def lwipHtons (n : ℕ) : ℕ := swapBytesInWord n

/-- The loop of version 1, which makes big-endian words of the bytes; with what is left over. -/
def sumOctets : ℕ → List Byte → ℕ × List Byte
  | acc, first :: second :: rest => sumOctets ((acc + (first.toNat * 256 + second.toNat)) % 2 ^ 32) rest
  | acc, rest => (acc, rest)

/-- `lwip_standard_chksum`, version 1. -/
def lwipStandardChksum1 (s : Stretch) : ℕ :=
  let (acc, rest) := sumOctets 0 s.data
  let acc := if rest.isEmpty then acc else (acc + (rest.headD 0).toNat * 256) % 2 ^ 32
  let acc := foldU32T acc
  let acc := if 65536 ≤ acc then foldU32T acc else acc
  lwipHtons (acc % 65536)

/-- The loop that adds `*ps++`; with what is left over. -/
def sumWords : ℕ → List Byte → ℕ × List Byte
  | sum, low :: high :: rest => sumWords ((sum + loadU16 low high) % 2 ^ 32) rest
  | sum, rest => (sum, rest)

/-- The first byte at an odd address, which becomes the upper one of `t`, and the rest. -/
def alignToU16 (s : Stretch) : Byte × Stretch :=
  match s.data with
  | [] => (0, s)
  | first :: rest => if s.addr % 2 = 1 then (first, ⟨s.addr + 1, rest⟩) else (0, s)

/-- Behind the loops of versions 2 and 3: the end bytes are added, and the sum is folded and swapped. -/
def finishChksum (odd : Bool) (first : Byte) (sum : ℕ) (rest : List Byte) : ℕ :=
  let sum := (sum + loadU16 (rest.headD 0) first) % 2 ^ 32
  let sum := foldU32T (foldU32T sum)
  (if odd then swapBytesInWord sum else sum) % 65536

/-- `lwip_standard_chksum`, version 2. -/
def lwipStandardChksum (s : Stretch) : ℕ :=
  let (first, aligned) := alignToU16 s
  let (sum, rest) := sumWords 0 aligned.data
  finishChksum (s.addr % 2 = 1) first sum rest

/-- An addition that adds its carry back. -/
def addBackCarry (sum word : ℕ) : ℕ :=
  let tmp := (sum + word) % 2 ^ 32
  if tmp < sum then tmp + 1 else tmp

/-- The loop of version 3 over eight bytes at a time. -/
def sumLongs : ℕ → List Byte → ℕ × List Byte
  | sum, b0 :: b1 :: b2 :: b3 :: b4 :: b5 :: b6 :: b7 :: rest =>
    sumLongs (addBackCarry (addBackCarry sum (loadU32 b0 b1 b2 b3)) (loadU32 b4 b5 b6 b7)) rest
  | sum, rest => (sum, rest)

/-- The word at an address that is not a multiple of four. -/
def alignToU32 (s : Stretch) : ℕ × List Byte :=
  match s.data with
  | low :: high :: rest => if s.addr % 4 ≠ 0 then (loadU16 low high, rest) else (0, s.data)
  | _ => (0, s.data)

/-- `lwip_standard_chksum`, version 3. -/
def lwipStandardChksum3 (s : Stretch) : ℕ :=
  let (first, aligned) := alignToU16 s
  let (sum, data) := alignToU32 aligned
  let (sum, data) := sumLongs sum data
  let (sum, rest) := sumWords (foldU32T sum) data
  finishChksum (s.addr % 2 = 1) first sum rest

/-- `(u16_t)~x`. -/
def invert (x : ℕ) : ℕ := 65535 - x % 65536

/-- `inet_chksum(dataptr, len)`. -/
def inetChksum (s : Stretch) : ℕ := invert (lwipStandardChksum s)

/-- The loop over a chain, with `acc` and `swapped`. -/
def sumChain : ℕ → Bool → List Stretch → ℕ × Bool
  | acc, swapped, [] => (acc, swapped)
  | acc, swapped, q :: next =>
    let acc := foldU32T ((acc + lwipStandardChksum q) % 2 ^ 32)
    if q.data.length % 2 ≠ 0 then sumChain (swapBytesInWord acc) (!swapped) next else sumChain acc swapped next

/-- The sum of a chain that an `acc` starts with. -/
def chainSum (acc : ℕ) (p : List Stretch) : ℕ :=
  let (acc, swapped) := sumChain acc false p
  if swapped then swapBytesInWord acc else acc

/-- `inet_chksum_pbuf(p)`. -/
def inetChksumPbuf (p : List Stretch) : ℕ := invert (chainSum 0 p)

/-- `inet_cksum_pseudo_base(p, proto, proto_len, acc)`. -/
def inetCksumPseudoBase (p : List Stretch) (proto : Byte) (protoLen : BitVec 16) (acc : ℕ) : ℕ :=
  let acc := chainSum acc p
  let acc := (acc + lwipHtons proto.toNat) % 2 ^ 32
  let acc := (acc + lwipHtons protoLen.toNat) % 2 ^ 32
  invert (foldU32T (foldU32T acc))

/-- `ip4_addr_t`: four bytes in network order. -/
structure Ip4Addr where
  a : Byte
  b : Byte
  c : Byte
  d : Byte
deriving DecidableEq, Repr

namespace Ip4Addr

/-- `ip4_addr_get_u32`. -/
def getU32 (addr : Ip4Addr) : ℕ := loadU32 addr.a addr.b addr.c addr.d

def bytes (addr : Ip4Addr) : List Byte := [addr.a, addr.b, addr.c, addr.d]

end Ip4Addr

/-- `inet_chksum_pseudo(p, proto, proto_len, src, dest)`, and so `ip_chksum_pseudo`. -/
def inetChksumPseudo (p : List Stretch) (proto : Byte) (protoLen : BitVec 16) (src dest : Ip4Addr) : ℕ :=
  let acc := src.getU32 % 65536
  let acc := acc + src.getU32 / 65536
  let acc := acc + dest.getU32 % 65536
  let acc := acc + dest.getU32 / 65536
  inetCksumPseudoBase p proto protoLen (foldU32T (foldU32T acc))

end WirelessSpeakers.Model
