import Utamo.Net.Packet

/-!
# Packets that are built can be decoded

Each builder of `kernel/net` against its decoder: what follows a packet (the padding of a short
Ethernet frame) does not get into what is decoded, and the checksums that the builders store are
those that the decoders accept. A UDP checksum of zero is stored as `0xffff`, since zero stands for
no checksum; the two are the same in one's complement arithmetic.
-/

set_option autoImplicit false

namespace Utamo.Net

open Lib

/-! ## Checksums -/

section Checksums

variable {xs : List UInt8} {value : Nat}

theorem wordSum_put16 (ys : List UInt8) (h : value < 2 ^ 16) :
    wordSum (netPut16 value ++ ys) = value + wordSum ys := by
  change (value / 256).toUInt8.toNat * 256 + value.toUInt8.toNat + wordSum ys = _
  rw [put16_value, Nat.mod_eq_of_lt h]

/-- The sum of a packet with a value at an even place. -/
theorem wordSum_field (hxs : xs.length % 2 = 0) (ys : List UInt8) (h : value < 2 ^ 16) :
    wordSum (xs ++ (netPut16 value ++ ys)) = wordSum (xs ++ (netPut16 0 ++ ys)) + value := by
  rw [wordSum_append _ hxs, wordSum_append _ hxs, wordSum_put16 ys h, wordSum_put16 ys (by omega)]
  omega

/-- A packet with the checksum that was computed with zero in its place. -/
theorem netChecksum_stored (hxs : xs.length % 2 = 0) (ys : List UInt8) :
    netChecksum (xs ++ (netPut16 (netChecksum (xs ++ (netPut16 0 ++ ys))) ++ ys)) = 0 := by
  have hsum := netChecksum_eq (xs ++ (netPut16 0 ++ ys))
  rw [netChecksum_eq_zero, wordSum_field hxs ys (by omega), hsum]
  exact endAround_complement _

/-- The same with `0xffff` for a checksum of zero. -/
theorem netChecksum_stored_max (hxs : xs.length % 2 = 0) (ys : List UInt8)
    (h : netChecksum (xs ++ (netPut16 0 ++ ys)) = 0) :
    netChecksum (xs ++ (netPut16 0xffff ++ ys)) = 0 := by
  rw [netChecksum_eq_zero] at h ⊢
  rw [wordSum_field hxs ys (by omega)]
  exact endAround_add_max h

end Checksums

/-! ## Builders and decoders -/

section Udp

variable {capacity source destination : Nat} {payload : List UInt8}

/-- The bytes that the checksum of a datagram is computed over. -/
def pseudoPrefix (sourceIp destinationIp source destination bytes : Nat) : List UInt8 :=
  netPut32 sourceIp ++ netPut32 destinationIp ++ [0, 17] ++ netPut16 bytes ++
    (netPut16 source ++ netPut16 destination ++ netPut16 bytes)

theorem length_pseudoPrefix (sourceIp destinationIp source destination bytes : Nat) :
    (pseudoPrefix sourceIp destinationIp source destination bytes).length = 18 := rfl

theorem udpChecksum_datagram (sourceIp destinationIp source destination checksum : Nat)
    (payload : List UInt8) :
    udpChecksum sourceIp destinationIp (udpDatagram source destination checksum payload) =
      netChecksum (pseudoPrefix sourceIp destinationIp source destination (payload.length + 8) ++
        (netPut16 checksum ++ payload)) := rfl

/-- The checksum that `udp_build` stores is not zero and verifies. -/
theorem udpChecksum_built {sourceIp destinationIp sum : Nat}
    (hsum : sum = udpChecksum sourceIp destinationIp (udpDatagram source destination 0 payload)) :
    let stored := if sum = 0 then 0xffff else sum
    0 < stored ∧ stored < 2 ^ 16 ∧
      udpChecksum sourceIp destinationIp (udpDatagram source destination stored payload) = 0 := by
  have heven : (pseudoPrefix sourceIp destinationIp source destination
      (payload.length + 8)).length % 2 = 0 := by
    rw [length_pseudoPrefix]
  rw [udpChecksum_datagram] at hsum
  simp only [udpChecksum_datagram]
  split
  · rename_i hzero
    refine ⟨by omega, by omega, ?_⟩
    apply netChecksum_stored_max heven
    rw [← hsum, hzero]
  · rename_i hne
    have hle := netChecksum_eq (pseudoPrefix sourceIp destinationIp source destination
      (payload.length + 8) ++ (netPut16 0 ++ payload))
    refine ⟨by omega, by omega, ?_⟩
    rw [hsum]
    exact netChecksum_stored heven payload

theorem udpBuild_decode (sourceIp destinationIp : Nat) (hlength : payload.length ≤ 1472)
    (hcapacity : payload.length + 8 ≤ capacity)
    (hsource : source ≠ 0) (hsource' : source < 2 ^ 16) (hdestination : destination ≠ 0)
    (hdestination' : destination < 2 ^ 16) :
    ∃ datagram, udpBuild capacity sourceIp destinationIp source destination payload =
      some datagram ∧
      datagram.length = payload.length + 8 ∧
      udpDecode ⟨sourceIp, destinationIp, 17, datagram⟩ = some ⟨source, destination, payload⟩ := by
  generalize hsum : udpChecksum sourceIp destinationIp
    (udpDatagram source destination 0 payload) = sum
  obtain ⟨hpos, hlt, hverifies⟩ := udpChecksum_built hsum.symm
  generalize hstored : (if sum = 0 then 0xffff else sum) = stored at hpos hlt hverifies
  refine ⟨udpDatagram source destination stored payload, ?_, rfl, ?_⟩
  · rw [udpBuild, if_neg (by omega), hsum]
    simp only [hstored]
  -- the fields of the header
  have hlen : (udpDatagram source destination stored payload).length = payload.length + 8 := rfl
  have hget0 : netGet16 (udpDatagram source destination stored payload) 0 = source :=
    (put16_value source).trans (Nat.mod_eq_of_lt hsource')
  have hget2 : netGet16 (udpDatagram source destination stored payload) 2 = destination :=
    (put16_value destination).trans (Nat.mod_eq_of_lt hdestination')
  have hget4 : netGet16 (udpDatagram source destination stored payload) 4 = payload.length + 8 :=
    (put16_value (payload.length + 8)).trans (Nat.mod_eq_of_lt (by omega))
  have hpayload : (udpDatagram source destination stored payload).drop 8 = payload := rfl
  have htake : (udpDatagram source destination stored payload).take (payload.length + 8) =
      udpDatagram source destination stored payload := List.take_of_length_le (Nat.le_of_eq hlen)
  rw [udpDecode]
  simp only [hlen, hget0, hget2, hget4, htake, hverifies, hpayload]
  rw [if_neg (by omega), if_neg]
  · rw [Nat.add_sub_cancel, List.take_length]
  · rintro (h | h | h | h)
    · exact h rfl
    · exact hsource h
    · exact hdestination h
    · exact h.2 rfl

end Udp

section Ipv4

variable {capacity source destination protocol id : Nat} {payload : List UInt8}

/-- The bytes of an IPv4 header before the checksum. -/
def ipv4Front (protocol id bytes : Nat) : List UInt8 :=
  [0x45, 0] ++ netPut16 (20 + bytes) ++ netPut16 id ++ netPut16 0x4000 ++ [64, protocol.toUInt8]

theorem ipv4Header_eq (source destination protocol id bytes checksum : Nat) :
    ipv4Header source destination protocol id bytes checksum =
      ipv4Front protocol id bytes ++
        (netPut16 checksum ++ (netPut32 source ++ netPut32 destination)) := by
  simp only [ipv4Header, ipv4Front, List.append_assoc]

theorem length_ipv4Front (protocol id bytes : Nat) :
    (ipv4Front protocol id bytes).length = 10 := rfl

theorem length_ipv4Header (source destination protocol id bytes checksum : Nat) :
    (ipv4Header source destination protocol id bytes checksum).length = 20 := rfl

/-- The header with the checksum of itself verifies. -/
theorem ipv4Header_verifies (source destination protocol id bytes : Nat) :
    netChecksum (ipv4Header source destination protocol id bytes
      (netChecksum (ipv4Header source destination protocol id bytes 0))) = 0 := by
  have heven : (ipv4Front protocol id bytes).length % 2 = 0 := by rw [length_ipv4Front]
  rw [ipv4Header_eq, ipv4Header_eq]
  exact netChecksum_stored heven _

/-- What the decoder reads from a packet that starts with a header. -/
theorem ipv4Header_fields {bytes checksum : Nat} {p rest : List UInt8}
    (hp : p = ipv4Header source destination protocol id bytes checksum ++ rest)
    (hbytes : 20 + bytes < 2 ^ 16) :
    byteAt p 0 = 0x45 ∧ byteAt p 8 = 64 ∧ byteAt p 9 = protocol.toUInt8 ∧
      netGet16 p 2 = 20 + bytes ∧ netGet16 p 6 = 0x4000 := by
  subst hp
  refine ⟨rfl, rfl, rfl, ?_, ?_⟩
  · exact (put16_value (20 + bytes)).trans (Nat.mod_eq_of_lt hbytes)
  · exact (put16_value 0x4000).trans (Nat.mod_eq_of_lt (by omega))

theorem ipv4Header_addresses {bytes checksum : Nat} {p rest : List UInt8}
    (hp : p = ipv4Header source destination protocol id bytes checksum ++ rest)
    (hsource : source < 2 ^ 32) (hdestination : destination < 2 ^ 32) :
    netGet32 p 12 = source ∧ netGet32 p 16 = destination := by
  have hfront : (ipv4Front protocol id bytes ++ netPut16 checksum).length = 12 := rfl
  have hfront' : (ipv4Front protocol id bytes ++ netPut16 checksum ++
    netPut32 source).length = 16 := rfl
  constructor
  · have hshape : p = ipv4Front protocol id bytes ++ netPut16 checksum ++
        (netPut32 source ++ (netPut32 destination ++ rest)) := by
      rw [hp, ipv4Header_eq]
      simp only [List.append_assoc]
    rw [hshape, ← hfront, netGet32_put, Nat.mod_eq_of_lt hsource]
  · have hshape : p = ipv4Front protocol id bytes ++ netPut16 checksum ++ netPut32 source ++
        (netPut32 destination ++ rest) := by
      rw [hp, ipv4Header_eq]
      simp only [List.append_assoc]
    rw [hshape, ← hfront', netGet32_put, Nat.mod_eq_of_lt hdestination]

theorem ipv4Build_decode (id : Nat) (payload : List UInt8) (hlength : payload.length ≤ 1480)
    (hcapacity : 20 + payload.length ≤ capacity)
    (hsource : netIpUnicast source = true) (hsource' : source < 2 ^ 32)
    (hdestination : netIpUnicast destination = true) (hdestination' : destination < 2 ^ 32)
    (hprotocol : protocol < 2 ^ 8) :
    ∃ packet, ipv4Build capacity source destination protocol id payload = some packet ∧
      packet.length = 20 + payload.length ∧
      ∀ tail : List UInt8,
        ipv4Decode (packet ++ tail) = some ⟨source, destination, protocol, payload⟩ := by
  have hverifies := ipv4Header_verifies source destination protocol id payload.length
  have hbuild : ipv4Build capacity source destination protocol id payload =
      some (ipv4Header source destination protocol id payload.length
        (netChecksum (ipv4Header source destination protocol id payload.length 0)) ++ payload) := by
    rw [ipv4Build, if_neg]
    rw [hsource, hdestination]
    rintro (h | h | h | h)
    · omega
    · omega
    · exact h.2 rfl
    · exact h.1 rfl
  generalize netChecksum (ipv4Header source destination protocol id payload.length 0) = sum
    at hverifies hbuild
  have hheaderLength := length_ipv4Header source destination protocol id payload.length sum
  refine ⟨_, hbuild, by rw [List.length_append, hheaderLength], ?_⟩
  intro tail
  rw [List.append_assoc]
  generalize hp : ipv4Header source destination protocol id payload.length sum ++
    (payload ++ tail) = p
  obtain ⟨hbyte0, hbyte8, hbyte9, hget2, hget6⟩ := ipv4Header_fields hp.symm (by omega)
  obtain ⟨hget12, hget16⟩ := ipv4Header_addresses hp.symm hsource' hdestination'
  have hlen : p.length = 20 + (payload.length + tail.length) := by
    rw [← hp, List.length_append, List.length_append, hheaderLength]
  have htake : p.take 20 = ipv4Header source destination protocol id payload.length sum := by
    rw [← hp, List.take_left' hheaderLength]
  have hdrop : p.drop 20 = payload ++ tail := by
    rw [← hp, List.drop_left' hheaderLength]
  have hprotocol' : protocol.toUInt8.toNat = protocol := by
    simp only [Nat.toUInt8, UInt8.toNat_ofNat']
    omega
  have hheader : (0x45 &&& 15 : UInt8).toNat * 4 = 20 := rfl
  have hversion : (0x45 : UInt8) >>> 4 = 4 := rfl
  have hflags : 0x4000 &&& 0xbfff = 0 := rfl
  have hlife : (64 : UInt8) ≠ 0 := by decide
  rw [ipv4Decode, if_neg (by omega)]
  simp only [hbyte0, hbyte8, hbyte9, hheader, hversion, hget2, hget6, hget12, hget16, htake, hdrop,
    hverifies, hlen, hflags, hprotocol']
  rw [if_neg]
  · rw [Nat.add_sub_cancel_left, List.take_left]
  · rintro (h | h | h | h | h | h | h | h | h)
    · exact h rfl
    · exact h rfl
    · omega
    · omega
    · omega
    · omega
    · exact hlife h
    · exact h rfl
    · exact h rfl

end Ipv4

section Ethernet

variable {capacity type : Nat} {source destination : Mac} {payload : List UInt8}

theorem ethernetBuild_decode (payload : List UInt8) (hlength : payload.length ≤ 1500)
    (hcapacity : payload.length + 14 ≤ capacity)
    (hsource : netMacUnicast source = true) (hsource' : source.length = 6)
    (hdestination : destination.length = 6) (htype : type < 2 ^ 16) :
    ∃ frame, ethernetBuild capacity source destination type payload = some frame ∧
      frame.length = payload.length + 14 ∧
      ∀ tail : List UInt8, frame.length + tail.length ≤ netFrameMax →
        ethernetDecode (frame ++ tail) = some ⟨destination, source, type, payload ++ tail⟩ := by
  have hlen : (destination ++ source ++ netPut16 type ++ payload).length = payload.length + 14 := by
    simp only [List.length_append, hdestination, hsource', length_netPut16]
    omega
  refine ⟨destination ++ source ++ netPut16 type ++ payload, ?_, hlen, ?_⟩
  · rw [ethernetBuild, if_neg]
    rw [hsource]
    rintro (h | h | h)
    · exact h rfl
    · omega
    · omega
  intro tail htail
  have htwelve : (destination ++ source).length = 12 := by
    rw [List.length_append]
    omega
  have htwelve' : netGet16 (destination ++ source ++
      (netPut16 type ++ (payload ++ tail))) 12 = type := by
    rw [← htwelve, netGet16_put, Nat.mod_eq_of_lt htype]
  have hframe : destination ++ source ++ netPut16 type ++ payload ++ tail =
      destination ++ source ++ (netPut16 type ++ (payload ++ tail)) := by
    simp only [List.append_assoc]
  have htake : (destination ++ source ++ (netPut16 type ++ (payload ++ tail))).take
      6 = destination := by
    rw [List.append_assoc, List.take_left' hdestination]
  have hdrop : (destination ++ source ++ (netPut16 type ++ (payload ++ tail))).drop 6 =
      source ++ (netPut16 type ++ (payload ++ tail)) := by
    rw [List.append_assoc, List.drop_left' hdestination]
  have hdrop' : (destination ++ source ++ (netPut16 type ++ (payload ++ tail))).drop 14 =
      payload ++ tail := by
    rw [show 14 = 12 + 2 from rfl, ← List.drop_drop, List.drop_left' htwelve]
    rfl
  have hsource6 : (source ++ (netPut16 type ++ (payload ++ tail))).take 6 = source :=
    List.take_left' hsource'
  have hlen' : (destination ++ source ++ (netPut16 type ++ (payload ++ tail))).length =
      payload.length + 14 + tail.length := by
    rw [← hframe, List.length_append, hlen]
  rw [hframe, ethernetDecode, if_neg (by omega), hdrop, hsource6, hsource, if_neg (by simp), htake,
    hdrop', htwelve']

end Ethernet

/-- A datagram through all three formats, with the padding of a short frame: for every payload that
fits, the decoders return what the builders got. -/
theorem packet_codec_round_trip {sourceMac destinationMac : Mac}
    {sourceIp destinationIp source destination
    id udpCapacity ipCapacity capacity : Nat} {payload : List UInt8}
    (hsourceMac : netMacUnicast sourceMac = true) (hsourceMac' : sourceMac.length = 6)
    (hdestinationMac : destinationMac.length = 6)
    (hsourceIp : netIpUnicast sourceIp = true) (hsourceIp' : sourceIp < 2 ^ 32)
    (hdestinationIp : netIpUnicast destinationIp = true) (hdestinationIp' : destinationIp < 2 ^ 32)
    (hsource : source ≠ 0) (hsource' : source < 2 ^ 16)
    (hdestination : destination ≠ 0) (hdestination' : destination < 2 ^ 16)
    (hlength : payload.length ≤ 1472) (hudp : payload.length + 8 ≤ udpCapacity)
    (hip : payload.length + 28 ≤ ipCapacity) (hcapacity : payload.length + 42 ≤ capacity) :
    ∃ datagram packet frame,
      udpBuild udpCapacity sourceIp destinationIp source destination payload = some datagram ∧
      ipv4Build ipCapacity sourceIp destinationIp 17 id datagram = some packet ∧
      ethernetBuild capacity sourceMac destinationMac 0x800 packet = some frame ∧
      ∀ padding, (padding = 0 ∨ frame.length + padding ≤ 60) →
        ∃ eth ip udp, ethernetDecode (frame ++ List.replicate padding 0) = some eth ∧
          ipv4Decode eth.payload = some ip ∧ udpDecode ip = some udp ∧
          eth.source = sourceMac ∧ eth.destination = destinationMac ∧ eth.type = 0x800 ∧
          ip.source = sourceIp ∧ ip.destination = destinationIp ∧ ip.protocol = 17 ∧
          udp.source = source ∧ udp.destination = destination ∧ udp.payload = payload := by
  obtain ⟨datagram, hdatagram, hdatagramLength, hudpDecode⟩ :=
    udpBuild_decode sourceIp destinationIp hlength hudp hsource hsource' hdestination hdestination'
  obtain ⟨packet, hpacket, hpacketLength, hipDecode⟩ :=
    ipv4Build_decode id datagram (by omega) (show 20 + datagram.length ≤ ipCapacity by omega)
      hsourceIp hsourceIp' hdestinationIp hdestinationIp' (show 17 < 2 ^ 8 by omega)
  obtain ⟨frame, hframe, hframeLength, hethDecode⟩ :=
    ethernetBuild_decode packet (by omega) (show packet.length + 14 ≤ capacity by omega) hsourceMac
      hsourceMac' hdestinationMac (show 0x800 < 2 ^ 16 by omega)
  refine ⟨datagram, packet, frame, hdatagram, hpacket, hframe, ?_⟩
  intro padding hpadding
  have hmax : netFrameMax = 1514 := rfl
  have hfits : frame.length + (List.replicate padding (0 : UInt8)).length ≤ netFrameMax := by
    rw [List.length_replicate]
    omega
  -- the padding is still behind the packet after the first decoder, and no longer after the second
  refine ⟨_, _, _, hethDecode _ hfits, hipDecode _, hudpDecode, ?_⟩
  exact ⟨rfl, rfl, rfl, rfl, rfl, rfl, rfl, rfl, rfl⟩

/-- A payload of three bytes in a frame of 45, padded by fifteen zero bytes. -/
theorem packet_codec_round_trip_short :
    ∃ datagram packet frame,
      udpBuild 1500 0x0a000002 0x0a000003 68 67 [1, 2, 3] = some datagram ∧
      ipv4Build 1500 0x0a000002 0x0a000003 17 7 datagram = some packet ∧
      ethernetBuild 1514 [2, 0, 0, 0, 0, 1] [2, 0, 0, 0, 0, 2] 0x800 packet = some frame ∧
      ∀ padding, (padding = 0 ∨ frame.length + padding ≤ 60) →
        ∃ eth ip udp, ethernetDecode (frame ++ List.replicate padding 0) = some eth ∧
          ipv4Decode eth.payload = some ip ∧ udpDecode ip = some udp ∧
          eth.source = [2, 0, 0, 0, 0, 1] ∧ eth.destination = [2, 0, 0, 0, 0, 2] ∧
          eth.type = 0x800 ∧
          ip.source = 0x0a000002 ∧ ip.destination = 0x0a000003 ∧ ip.protocol = 17 ∧
          udp.source = 68 ∧ udp.destination = 67 ∧ udp.payload = [1, 2, 3] :=
  packet_codec_round_trip (by decide) rfl rfl (by decide) (by decide) (by decide) (by decide)
    (by decide) (by decide) (by decide) (by decide) (by decide) (by decide) (by decide) (by decide)

end Utamo.Net
