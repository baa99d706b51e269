import Mathlib.Data.List.GetD
import Utamo.Lib.OnesComplement

/-!
# Packets

The packet formats of `kernel/net`: Ethernet (`ethernet.c`), IPv4 (`ipv4.c`), UDP (`udp.c`) and ICMP
echo (`icmp.c`). A packet is the list of its bytes, so that a pointer and a length are one argument;
a builder returns the bytes that it stores. Numbers are natural numbers that fit into the type of
the source where the caller keeps them there; the builders cut them off as the source does.
-/

set_option autoImplicit false

namespace Utamo.Net

open Lib

/-! ## Bytes -/

/-- `p[i]` -/
def byteAt (p : List UInt8) (i : Nat) : UInt8 := p.getD i 0

/-- `net_get16` -/
def netGet16 (p : List UInt8) (i : Nat) : Nat := (byteAt p i).toNat * 256 + (byteAt p (i + 1)).toNat

/-- `net_get32` -/
def netGet32 (p : List UInt8) (i : Nat) : Nat := netGet16 p i * 65536 + netGet16 p (i + 2)

/-- `net_put16`: the bytes that are stored. -/
def netPut16 (value : Nat) : List UInt8 := [(value / 256).toUInt8, value.toUInt8]

/-- `net_put32` -/
def netPut32 (value : Nat) : List UInt8 := netPut16 (value / 65536) ++ netPut16 value

/-- `net_put16` into a message that has been stored. -/
def netStore16 (p : List UInt8) (i value : Nat) : List UInt8 :=
  p.take i ++ netPut16 value ++ p.drop (i + 2)

/-- `UTAMO_NET_FRAME_MAX` -/
def netFrameMax : Nat := 1514

/-! ## Addresses -/

/-- The six bytes of an Ethernet address. -/
abbrev Mac := List UInt8

/-- `net_mac_unicast` -/
def netMacUnicast (mac : Mac) : Bool :=
  byteAt mac 0 &&& 1 = 0 ∧ (mac.take 6).foldl (fun bits byte => bits ||| byte) 0 ≠ 0

/-- `net_ip_unicast` -/
def netIpUnicast (ip : Nat) : Bool :=
  let first := ip / 2 ^ 24
  first ≠ 0 ∧ first ≠ 127 ∧ first < 224

/-! ## The checksum -/

/-- `(sum & 0xffff) + (sum >> 16)` -/
def foldCarry (sum : Nat) : Nat := (sum &&& 0xffff) + sum >>> 16

/-- The first loop of `net_checksum` and the byte that may be left behind it. -/
def checksumLoop : List UInt8 → Nat → Nat
  | a :: b :: rest, sum => checksumLoop rest (foldCarry (sum + (a.toNat * 256 + b.toNat)))
  | [a], sum => sum + a.toNat * 256
  | [], sum => sum

/-- The second loop, for a number of rounds that it cannot exceed. -/
def foldAll : Nat → Nat → Nat
  | 0, sum => sum
  | rounds + 1, sum => if sum >>> 16 ≠ 0 then foldAll rounds (foldCarry sum) else sum

/-- `net_checksum`; a `uint32_t` is folded twice at most. -/
def netChecksum (p : List UInt8) : Nat := 65535 - foldAll 2 (checksumLoop p 0) % 65536

/-! ## Ethernet -/

/-- `struct ethernet_packet` -/
structure EthernetPacket where
  destination : Mac
  source : Mac
  type : Nat
  payload : List UInt8

/-- `ethernet_decode` -/
def ethernetDecode (p : List UInt8) : Option EthernetPacket :=
  if p.length < 14 ∨ netFrameMax < p.length then none
  else if ¬ netMacUnicast ((p.drop 6).take 6) then none
  else
    some { destination := p.take 6, source := (p.drop 6).take 6, type := netGet16 p 12
           payload := p.drop 14 }

/-- `ethernet_build` -/
def ethernetBuild (capacity : Nat) (source destination : Mac) (type : Nat) (payload : List UInt8) :
    Option (List UInt8) :=
  if ¬ netMacUnicast source ∨ 1500 < payload.length ∨ capacity < payload.length + 14 then none
  else some (destination ++ source ++ netPut16 type ++ payload)

/-! ## IPv4 -/

/-- `struct ipv4_packet` -/
structure Ipv4Packet where
  source : Nat
  destination : Nat
  protocol : Nat
  payload : List UInt8

/-- `ipv4_decode` -/
def ipv4Decode (p : List UInt8) : Option Ipv4Packet :=
  if p.length < 20 then none
  else
    let header := (byteAt p 0 &&& 15).toNat * 4
    let total := netGet16 p 2
    if byteAt p 0 >>> 4 ≠ 4 ∨ header ≠ 20 ∨ p.length < header ∨ total < header ∨ p.length < total ∨
        1500 < total ∨ byteAt p 8 = 0 ∨ netGet16 p 6 &&& 0xbfff ≠ 0 ∨
        netChecksum (p.take header) ≠ 0 then
      none
    else
      some { source := netGet32 p 12, destination := netGet32 p 16, protocol := (byteAt p 9).toNat
             payload := (p.drop header).take (total - header) }

/-- The header that `ipv4_build` stores, with a value for the checksum. -/
def ipv4Header (source destination protocol id bytes checksum : Nat) : List UInt8 :=
  [0x45, 0] ++ netPut16 (20 + bytes) ++ netPut16 id ++ netPut16 0x4000 ++ [64, protocol.toUInt8] ++
    netPut16 checksum ++ netPut32 source ++ netPut32 destination

/-- `ipv4_build` -/
def ipv4Build (capacity source destination protocol id : Nat) (payload : List UInt8) :
    Option (List UInt8) :=
  if 1480 < payload.length ∨ capacity < 20 + payload.length ∨ (source ≠ 0 ∧ ¬ netIpUnicast source) ∨
      (¬ netIpUnicast destination ∧ destination ≠ 0xffffffff) then
    none
  else
    let header := ipv4Header source destination protocol id payload.length
    some (header (netChecksum (header 0)) ++ payload)

/-! ## UDP -/

/-- `struct udp_packet` -/
structure UdpPacket where
  source : Nat
  destination : Nat
  payload : List UInt8

/-- `checksum` of `udp.c` -/
def udpChecksum (source destination : Nat) (data : List UInt8) : Nat :=
  netChecksum (netPut32 source ++ netPut32 destination ++ [0, 17] ++ netPut16 data.length ++ data)

/-- `udp_decode` -/
def udpDecode (ip : Ipv4Packet) : Option UdpPacket :=
  let p := ip.payload
  if ip.protocol ≠ 17 ∨ p.length < 8 ∨ 1480 < p.length then none
  else
    let bytes := netGet16 p 4
    if bytes ≠ p.length ∨ netGet16 p 0 = 0 ∨ netGet16 p 2 = 0 ∨
        (netGet16 p 6 ≠ 0 ∧ udpChecksum ip.source ip.destination (p.take bytes) ≠ 0) then
      none
    else
      some { source := netGet16 p 0, destination := netGet16 p 2
             payload := (p.drop 8).take (bytes - 8) }

/-- The datagram that `udp_build` stores, with a value for the checksum. -/
def udpDatagram (source destination checksum : Nat) (payload : List UInt8) : List UInt8 :=
  netPut16 source ++ netPut16 destination ++ netPut16 (payload.length + 8) ++
    netPut16 checksum ++ payload

/-- `udp_build` -/
def udpBuild (capacity sourceIp destinationIp source destination : Nat) (payload : List UInt8) :
    Option (List UInt8) :=
  if 1472 < payload.length ∨ capacity < payload.length + 8 ∨ source = 0 ∨ destination = 0 then none
  else
    let sum := udpChecksum sourceIp destinationIp (udpDatagram source destination 0 payload)
    let sum := if sum = 0 then 0xffff else sum
    some (udpDatagram source destination sum payload)

/-! ## ICMP -/

/-- What `icmp_echo_decode` reports. -/
structure IcmpEcho where
  reply : Bool
  id : Nat
  sequence : Nat
  deriving DecidableEq, Repr

/-- `icmp_echo_decode` -/
def icmpEchoDecode (p : List UInt8) : Option IcmpEcho :=
  if p.length < 8 ∨ 1480 < p.length then none
  else if (byteAt p 0 ≠ 0 ∧ byteAt p 0 ≠ 8) ∨ byteAt p 1 ≠ 0 ∨ netChecksum p ≠ 0 then none
  else some ⟨byteAt p 0 = 0, netGet16 p 4, netGet16 p 6⟩

/-! ## Reading what was stored -/

section Bytes

variable {value : Nat} {xs ys : List UInt8}

theorem byteAt_append_left {i : Nat} (h : i < xs.length) : byteAt (xs ++ ys) i = byteAt xs i :=
  List.getD_append _ _ _ _ h

theorem byteAt_append_right {i : Nat} (h : xs.length ≤ i) :
    byteAt (xs ++ ys) i = byteAt ys (i - xs.length) :=
  List.getD_append_right _ _ _ _ h

theorem length_netPut16 (value : Nat) : (netPut16 value).length = 2 := rfl

/-- The two bytes of a number. -/
theorem put16_value (value : Nat) :
    (value / 256).toUInt8.toNat * 256 + value.toUInt8.toNat = value % 2 ^ 16 := by
  simp only [Nat.toUInt8, UInt8.toNat_ofNat']
  omega

/-- A number behind a prefix is read at the length of the prefix. -/
theorem netGet16_put (xs ys : List UInt8) (value : Nat) :
    netGet16 (xs ++ (netPut16 value ++ ys)) xs.length = value % 2 ^ 16 := by
  rw [netGet16, byteAt_append_right (Nat.le_refl _), byteAt_append_right (Nat.le_add_right _ 1),
    Nat.sub_self, Nat.add_sub_cancel_left]
  exact put16_value value

theorem netGet32_put (xs ys : List UInt8) (value : Nat) :
    netGet32 (xs ++ (netPut32 value ++ ys)) xs.length = value % 2 ^ 32 := by
  have hlow := netGet16_put (xs ++ netPut16 (value / 65536)) ys value
  rw [List.length_append, length_netPut16, List.append_assoc] at hlow
  rw [netGet32, netPut32, List.append_assoc, netGet16_put, hlow]
  omega

end Bytes

/-! ## The checksum as a sum -/

section Checksum

theorem foldCarry_eq (sum : Nat) : foldCarry sum = sum % 65536 + sum / 65536 := by
  have hand : sum &&& (2 ^ 16 - 1) = sum % 2 ^ 16 := Nat.and_two_pow_sub_one_eq_mod sum 16
  have hshift : sum >>> 16 = sum / 2 ^ 16 := Nat.shiftRight_eq_div_pow sum 16
  rw [foldCarry, hshift]
  exact congrArg (· + sum / 2 ^ 16) hand

/-- The loop keeps the sum below a carry, up to the last byte. -/
theorem checksumLoop_spec (p : List UInt8) {sum : Nat} (h : sum ≤ 65535) :
    endAround (checksumLoop p sum) = endAround (sum + wordSum p) ∧
    checksumLoop p sum ≤ 2 * 65535 := by
  induction p, sum using checksumLoop.induct with
  | case1 a b rest sum ih =>
    have ha := a.toNat_lt
    have hb := b.toNat_lt
    rw [checksumLoop, wordSum]
    rw [foldCarry_eq] at ih ⊢
    obtain ⟨hsum, hle⟩ := ih (by omega)
    refine ⟨?_, hle⟩
    rw [hsum, ← endAround_add, endAround_carry, endAround_add, Nat.add_assoc]
  | case2 a sum =>
    have ha := a.toNat_lt
    rw [checksumLoop, wordSum]
    exact ⟨rfl, by omega⟩
  | case3 sum =>
    rw [checksumLoop, wordSum]
    exact ⟨rfl, by omega⟩

/-- The second loop has enough rounds for every `uint32_t`. -/
theorem foldAll_spec {sum : Nat} (h : sum < 2 ^ 32) : foldAll 2 sum = endAround sum := by
  have hshift : ∀ x : Nat, x >>> 16 = x / 65536 := fun x => Nat.shiftRight_eq_div_pow x 16
  -- a sum without a carry is as it is; a carry is added at the bottom
  rw [foldAll, hshift]
  by_cases hcarry : sum / 65536 = 0
  · rw [if_neg (not_not.2 hcarry), endAround_of_le (by omega)]
  rw [if_pos hcarry, foldAll, hshift, ← endAround_carry, ← foldCarry_eq]
  have hfirst := foldCarry_eq sum
  by_cases hcarry' : foldCarry sum / 65536 = 0
  · rw [if_neg (not_not.2 hcarry'), endAround_of_le (by omega)]
  rw [if_pos hcarry', foldAll, ← endAround_carry, ← foldCarry_eq]
  have hsecond := foldCarry_eq (foldCarry sum)
  rw [endAround_of_le (by omega)]

theorem netChecksum_eq (p : List UInt8) : netChecksum p = 65535 - endAround (wordSum p) := by
  obtain ⟨hsum, hle⟩ := checksumLoop_spec p (Nat.zero_le 65535)
  have hbound := endAround_le (wordSum p)
  rw [netChecksum, foldAll_spec (by omega), hsum, Nat.zero_add]
  omega

theorem netChecksum_eq_zero {p : List UInt8} :
    netChecksum p = 0 ↔ endAround (wordSum p) = 65535 := by
  have hbound := endAround_le (wordSum p)
  rw [netChecksum_eq]
  omega

end Checksum

end Utamo.Net
