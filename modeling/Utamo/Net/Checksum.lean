import Utamo.Net.Packet

/-!
# The Internet checksum

`net_checksum` adds the words of a packet in a `uint32_t` and takes the carries in as it goes. The
result is the complement of the one's complement sum of the words, whatever the length of the packet
and whenever the carries are taken in. A packet whose checksum field was zero when the checksum was
taken has the checksum 0 once it is stored (`netChecksum_store`), and a packet with the checksum 0
loses it when one of its words changes by anything but a multiple of 65535
(`netChecksum_corrupted`); the decoders of IPv4 and of ICMP then refuse it.
-/

set_option autoImplicit false

namespace Utamo.Net

open Lib

/-- `q` is `p` with another value in the word at `i`, and the two values are different in
one's complement arithmetic. The last word of a packet of odd length has the byte that is
there and a zero. -/
structure CorruptedWord (p q : List UInt8) (i : Nat) : Prop where
  length : q.length = p.length
  aligned : i % 2 = 0
  others : ∀ j, j ≠ i → j ≠ i + 1 → byteAt q j = byteAt p j
  value : netGet16 q i % 65535 ≠ netGet16 p i % 65535

variable {p q : List UInt8} {i : Nat}

theorem eq_of_byteAt (hlength : q.length = p.length) (h : ∀ j, byteAt q j = byteAt p j) :
    q = p := by
  refine List.ext_getElem hlength fun j hq hp => ?_
  have hj := h j
  rwa [byteAt, byteAt, List.getD_eq_getElem _ _ hq, List.getD_eq_getElem _ _ hp] at hj

/-- One word changes the sum by as much as it changes itself. -/
theorem wordSum_changed (hlength : q.length = p.length) (haligned : i % 2 = 0)
    (hothers : ∀ j, j ≠ i → j ≠ i + 1 → byteAt q j = byteAt p j) :
    wordSum q + netGet16 p i = wordSum p + netGet16 q i := by
  -- two bytes at a time, as the sum is taken; the word is the first one or one of the others
  induction p using wordSum.induct generalizing q i with
  | case1 a b rest ih =>
    obtain ⟨a', b', rest', rfl⟩ : ∃ a' b' rest', q = a' :: b' :: rest' := by
      obtain ⟨a', q', rfl⟩ := List.exists_cons_of_length_eq_add_one hlength
      obtain ⟨b', rest', rfl⟩ := List.exists_cons_of_length_eq_add_one (Nat.succ.inj hlength)
      exact ⟨a', b', rest', rfl⟩
    have hrest : rest'.length = rest.length := by simpa using hlength
    rw [wordSum, wordSum]
    rcases i with _ | _ | i
    · have htail : rest' = rest := eq_of_byteAt hrest fun j => hothers (j + 2) (by omega) (by omega)
      change _ + (a.toNat * 256 + b.toNat) = _ + (a'.toNat * 256 + b'.toNat)
      rw [htail]
      omega
    · cases haligned
    · have ha : a' = a := hothers 0 (by omega) (by omega)
      have hb : b' = b := hothers 1 (by omega) (by omega)
      have htail := ih hrest (by omega : i % 2 = 0) fun j h1 h2 =>
        hothers (j + 2) (by omega) (by omega)
      change _ + netGet16 rest i = _ + netGet16 rest' i
      rw [ha, hb]
      omega
  | case2 a =>
    obtain ⟨a', rfl⟩ := List.length_eq_one_iff.1 hlength
    rcases i with _ | _ | i
    · change wordSum [a'] + (a.toNat * 256 + 0) = wordSum [a] + (a'.toNat * 256 + 0)
      rw [wordSum, wordSum]
      omega
    · cases haligned
    · have ha : a' = a := hothers 0 (by omega) (by omega)
      rw [ha]
  | case3 =>
    rw [List.length_eq_zero_iff.1 hlength]

theorem byteAt_take {n j : Nat} (h : j < n) : byteAt (p.take n) j = byteAt p j := by
  rw [byteAt, byteAt, List.getD_eq_getElem?_getD, List.getD_eq_getElem?_getD,
    List.getElem?_take_of_lt h]

theorem byteAt_of_length_le {j : Nat} (h : p.length ≤ j) : byteAt p j = 0 :=
  List.getD_eq_default _ _ h

/-- A corrupted word of a packet is a corrupted word of the part in front of an even length. -/
theorem CorruptedWord.take {n : Nat} (h : CorruptedWord p q i) (hi : i < n) (hn : n % 2 = 0) :
    CorruptedWord (p.take n) (q.take n) i := by
  have hbyte : ∀ j, j < n → byteAt (p.take n) j = byteAt p j ∧ byteAt (q.take n) j = byteAt q j :=
    fun j hj => ⟨byteAt_take hj, byteAt_take hj⟩
  have haligned := h.aligned
  refine ⟨?_, haligned, fun j h1 h2 => ?_, ?_⟩
  · rw [List.length_take, List.length_take, h.length]
  · rcases Nat.lt_or_ge j n with hj | hj
    · rw [(hbyte j hj).1, (hbyte j hj).2, h.others j h1 h2]
    · have hcut : ∀ r : List UInt8, (r.take n).length ≤ j :=
        fun r => Nat.le_trans (List.length_take_le n r) hj
      rw [byteAt_of_length_le (hcut p), byteAt_of_length_le (hcut q)]
  · have hsecond := hbyte (i + 1) (by omega)
    rw [netGet16, netGet16, (hbyte i hi).1, (hbyte i hi).2, hsecond.1, hsecond.2]
    exact h.value

theorem netChecksum_corrupted (h : CorruptedWord p q i) (hp : netChecksum p = 0) :
    netChecksum q ≠ 0 := by
  intro hq
  have hpsum := mod_of_endAround (netChecksum_eq_zero.1 hp)
  have hqsum := mod_of_endAround (netChecksum_eq_zero.1 hq)
  have hchange := wordSum_changed h.length h.aligned h.others
  have hvalue := h.value
  omega

theorem length_netStore16 {value : Nat} (h : i + 2 ≤ p.length) :
    (netStore16 p i value).length = p.length := by
  rw [netStore16, List.length_append, List.length_append, List.length_take, List.length_drop,
    length_netPut16]
  omega

/-- Storing the checksum in the place of a zero. -/
theorem netChecksum_store (haligned : i % 2 = 0) (hroom : i + 2 ≤ p.length)
    (hzero : netGet16 p i = 0) :
    netChecksum (netStore16 p i (netChecksum p)) = 0 := by
  have htake : (p.take i).length = i := by
    rw [List.length_take]
    omega
  have hsame : ∀ j, j ≠ i → j ≠ i + 1 → byteAt (netStore16 p i (netChecksum p)) j = byteAt p j := by
    intro j h1 h2
    rcases Nat.lt_or_ge j i with hj | hj
    · rw [netStore16, List.append_assoc, byteAt_append_left (by omega), byteAt_take hj]
    · rw [netStore16, List.append_assoc, byteAt_append_right (by omega), htake,
        byteAt_append_right (by rw [length_netPut16]; omega), length_netPut16, byteAt, byteAt,
        List.getD_eq_getElem?_getD, List.getElem?_drop, ← List.getD_eq_getElem?_getD]
      congr 1
      omega
  have hvalue : netGet16 (netStore16 p i (netChecksum p)) i = netChecksum p := by
    have hput := netGet16_put (p.take i) (p.drop (i + 2)) (netChecksum p)
    rw [htake, netChecksum_eq, Nat.mod_eq_of_lt (by omega), ← netChecksum_eq] at hput
    rw [netStore16, List.append_assoc]
    exact hput
  have hsum := wordSum_changed (length_netStore16 hroom) haligned hsame
  rw [hzero, hvalue, Nat.add_zero] at hsum
  rw [netChecksum_eq_zero, hsum, netChecksum_eq p]
  exact endAround_complement (wordSum p)

theorem icmpEchoDecode_corrupted (h : CorruptedWord p q i) (hp : netChecksum p = 0) :
    icmpEchoDecode q = none := by
  rw [icmpEchoDecode]
  split
  · rfl
  · rw [if_pos (Or.inr (Or.inr (netChecksum_corrupted h hp)))]

/-- The header that is checked has 20 bytes: any other length is refused. -/
theorem ipv4Decode_corrupted (h : CorruptedWord p q i) (hi : i < 20)
    (hp : netChecksum (p.take 20) = 0) :
    ipv4Decode q = none := by
  have hbad := netChecksum_corrupted (h.take hi rfl) hp
  rw [ipv4Decode]
  split
  · rfl
  · simp only
    rw [if_pos]
    by_cases hheader : (byteAt q 0 &&& 15).toNat * 4 = 20
    · rw [hheader]
      simp only [hbad, ne_eq, not_false_eq_true, or_true]
    · exact Or.inr (Or.inl hheader)

/-- The Internet checksum: it is the complement of the one's complement sum of the words, and of
every running sum that ends with its carries taken in; storing it in a zero field gives the checksum
0; and one word that changes takes that away, so that the decoders refuse the packet. -/
theorem internet_checksum_law (p : List UInt8) :
    netChecksum p = 65535 - (bigEndianWords p).foldl onesAdd 0 ∧
    (∀ sum, RunningSum 0 (bigEndianWords p) sum → sum ≤ 65535 → netChecksum p = 65535 - sum) ∧
    (∀ i, i % 2 = 0 → i + 2 ≤ p.length → netGet16 p i = 0 →
      netChecksum (netStore16 p i (netChecksum p)) = 0) ∧
    (∀ q i, CorruptedWord p q i → netChecksum p = 0 → netChecksum q ≠ 0 ∧ icmpEchoDecode q = none) ∧
    (∀ q i, CorruptedWord p q i → i < 20 → netChecksum (p.take 20) = 0 → ipv4Decode q = none) := by
  refine ⟨?_, ?_, fun i => netChecksum_store, ?_, fun q i => ipv4Decode_corrupted⟩
  · rw [foldl_onesAdd (Nat.zero_le _) (bigEndianWords_le p), Nat.zero_add, sum_bigEndianWords,
      netChecksum_eq]
  · intro sum hrun hle
    rw [netChecksum_eq, ← sum_bigEndianWords, ← Nat.zero_add (List.sum _), ← hrun.endAround_eq,
      endAround_of_le hle]
  · intro q i h hp
    exact ⟨netChecksum_corrupted h hp, icmpEchoDecode_corrupted h hp⟩

/-- An echo request with its checksum stored, and the same request with its identifier changed. -/
theorem internet_checksum_law_echo :
    netChecksum (netStore16 [8, 0, 0, 0, 1, 2, 3, 4] 2 (netChecksum [8, 0, 0, 0, 1, 2, 3, 4])) = 0 ∧
      icmpEchoDecode [8, 0, 0xf3, 0xf9, 1, 3, 3, 4] = none :=
  ⟨(internet_checksum_law [8, 0, 0, 0, 1, 2, 3, 4]).2.2.1 2 rfl (by decide) rfl,
    ((internet_checksum_law [8, 0, 0xf3, 0xf9, 1, 2, 3, 4]).2.2.2.1 [8, 0, 0xf3, 0xf9, 1, 3, 3, 4] 4
      ⟨rfl, rfl, fun j h1 h2 => by
        match j with
        | 0 | 1 | 2 | 3 | 4 | 5 | 6 | 7 => first | rfl | exact absurd rfl h1 | exact absurd rfl h2
        | j + 8 => rfl, by decide⟩ (by decide +kernel)).2⟩

end Utamo.Net
