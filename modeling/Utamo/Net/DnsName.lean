import Utamo.Net.DnsReply

/-!
# Names of arbitrary messages

`dns_decode_name` on a message from the network. `dnsDecodeNameExact` is the function with its
output arguments, and with reads and stores that have no value outside of the message and outside of
the buffer on the stack. It always has a value, which is the one of `dnsDecodeName`
(`dnsDecodeNameExact_eq`): pointers, lengths and label characters are read inside the message, and
the arguments change with the last step only.

A name that is accepted is empty or one that `dns_name_valid` accepts (`NameState`), and the bytes
that it takes lie in the message: up to the first pointer they are the bytes that were read, and a
pointer ends the count.
-/

set_option autoImplicit false

namespace Utamo.Net

/-! ## The decoder with its reads and stores -/

/-- `result[used++] = c` in the buffer of `UTAMO_DNS_NAME_MAX` characters. -/
def push (result : List UInt8) (c : UInt8) : Option (List UInt8) :=
  if result.length < dnsNameMax then some (result ++ [c]) else none

/-- `if (used != 0) result[used++] = '.'` -/
def separate (result : List UInt8) : Option (List UInt8) :=
  if result.length ≠ 0 then push result dot else some result

/-- The inner loop of `dns_decode_name`, with the characters of the label that are left. -/
def copyLabelExact (p : List UInt8) :
    (left position : Nat) → List UInt8 → Option (Option (List UInt8))
  | 0, _, result => some (some result)
  | left + 1, position, result => do
      let c ← p[position]?
      if character c then copyLabelExact p left (position + 1) (← push result (lower c))
      else some none

/-- The loop of `dns_decode_name`. -/
def decodeNameLoopExact (p : List UInt8) :
    (hops position : Nat) → (result : List UInt8) → (encoded : Nat) → (jumped : Bool) →
    Option (Option (List UInt8 × Nat))
  | 0, _, _, _, _ => some none
  | hops + 1, position, result, encoded, jumped =>
    if p.length ≤ position then some none
    else do
      let length ← p[position]?
      if length &&& 0xc0 = 0xc0 then
        if p.length ≤ position + 1 then some none
        else do
          let second ← p[position + 1]?
          let target := (length &&& 63).toNat <<< 8 ||| second.toNat
          if target < 12 ∨ position ≤ target then some none
          else
            decodeNameLoopExact p hops target result (if jumped then encoded else encoded + 2) true
      else if length &&& 0xc0 ≠ 0 then some none
      else
        let encoded := if jumped then encoded else encoded + 1
        if length = 0 then (push result 0).map fun _ => some (result, encoded)
        else if p.length - (position + 1) < length.toNat ∨
            dnsNameMax ≤ result.length + (if result.length ≠ 0 then 1 else 0) + length.toNat then
          some none
        else do
          let result ← separate result
          match ← copyLabelExact p length.toNat (position + 1) result with
          | none => some none
          | some result =>
            decodeNameLoopExact p hops (position + 1 + length.toNat) result
              (if jumped then encoded else encoded + length.toNat) jumped

/-- `dns_decode_name` with what `out` and `*consumed` hold before and after. -/
def dnsDecodeNameExact (p : List UInt8) (offset : Nat) (out : List UInt8) (consumed : Nat) :
    Option (Bool × List UInt8 × Nat) :=
  if dnsMessageMax < p.length ∨ p.length ≤ offset then some (false, out, consumed)
  else do
    match ← decodeNameLoopExact p 128 offset [] 0 false with
    | none => some (false, out, consumed)
    | some (result, encoded) => some (true, result ++ 0 :: out.drop (result.length + 1), encoded)

section Exact

variable {p result : List UInt8}

theorem getElem?_eq_byteAt {i : Nat} (h : i < p.length) : p[i]? = some (byteAt p i) := by
  rw [List.getElem?_eq_getElem h, byteAt, List.getD_eq_getElem _ _ h]

theorem push_of_lt {c : UInt8} (h : result.length < dnsNameMax) :
    push result c = some (result ++ [c]) :=
  if_pos h

/-- The characters of a label are read inside the message and fit into the buffer. -/
theorem copyLabelExact_eq (left : Nat) : ∀ (position : Nat) (result : List UInt8),
    position + left ≤ p.length → result.length + left < dnsNameMax →
    copyLabelExact p left position result =
      some (if ((p.drop position).take left).all character then
        some (result ++ ((p.drop position).take left).map lower) else none) := by
  induction left with
  | zero =>
    intro position result _ _
    rw [List.take_zero, copyLabelExact, List.map_nil, List.append_nil]
    rfl
  | succ left ih =>
    intro position result hread hstore
    have hin : position < p.length := by omega
    have hcons : p.drop position = byteAt p position :: p.drop (position + 1) := by
      rw [byteAt, List.getD_eq_getElem _ _ hin]
      exact List.drop_eq_getElem_cons hin
    rw [copyLabelExact, getElem?_eq_byteAt hin, hcons, List.take_succ_cons, List.all_cons,
      List.map_cons]
    simp only [Option.bind_eq_bind, Option.bind_some]
    cases character (byteAt p position) with
    | false => rfl
    | true =>
      have hlength : (result ++ [lower (byteAt p position)]).length = result.length + 1 := by
        rw [List.length_append, List.length_singleton]
      rw [if_pos rfl, push_of_lt (by omega), Option.bind_some, ih _ _ (by omega) (by omega),
        Bool.true_and, List.append_assoc]
      rfl

/-- No read of the loop is outside of the message, and no store outside of the buffer. -/
theorem decodeNameLoopExact_eq (hops : Nat) :
    ∀ (position : Nat) (result : List UInt8) (encoded : Nat) (jumped : Bool),
      result.length < dnsNameMax →
      decodeNameLoopExact p hops position result encoded jumped =
        some (decodeNameLoop p hops position result encoded jumped) := by
  induction hops with
  | zero => intro position result encoded jumped _; rfl
  | succ hops ih =>
    intro position result encoded jumped hfits
    rw [decodeNameLoopExact, decodeNameLoop]
    by_cases hin : p.length ≤ position
    · rw [if_pos hin, if_pos hin]
    rw [if_neg hin, if_neg hin, getElem?_eq_byteAt (by omega)]
    simp only [Option.bind_eq_bind, Option.bind_some]
    generalize hlength : byteAt p position = length
    by_cases hpointer : length &&& 0xc0 = 0xc0
    · rw [if_pos hpointer, if_pos hpointer]
      by_cases hnext : p.length ≤ position + 1
      · rw [if_pos hnext, if_pos hnext]
      rw [if_neg hnext, if_neg hnext, getElem?_eq_byteAt (by omega)]
      simp only [Option.bind_some]
      split
      · rfl
      · exact ih _ _ _ _ hfits
    rw [if_neg hpointer, if_neg hpointer]
    by_cases hlabel : length &&& 0xc0 ≠ 0
    · rw [if_pos hlabel, if_pos hlabel]
    rw [if_neg hlabel, if_neg hlabel]
    by_cases hend : length = 0
    · rw [if_pos hend, if_pos hend, push_of_lt hfits]
      rfl
    rw [if_neg hend, if_neg hend]
    -- the separator is one character of the buffer
    obtain ⟨separator, hseparator⟩ : ∃ s, s = if result.length ≠ 0 then [dot] else [] := ⟨_, rfl⟩
    have hone : (if result.length ≠ 0 then 1 else 0) = separator.length := by
      rw [hseparator]
      split <;> rfl
    have hpush : separate result = some (result ++ separator) := by
      rw [hseparator, separate]
      split
      · exact push_of_lt hfits
      · rw [List.append_nil]
    rw [hone, ← hseparator, hpush]
    by_cases hroom : p.length - (position + 1) < length.toNat ∨
        dnsNameMax ≤ result.length + separator.length + length.toNat
    · rw [if_pos hroom, if_pos hroom]
    have hstore : (result ++ separator).length + length.toNat < dnsNameMax := by
      rw [List.length_append]
      omega
    rw [if_neg hroom, if_neg hroom, Option.bind_some, copyLabelExact_eq _ _ _ (by omega) hstore,
      Option.bind_some]
    split
    · rename_i hnone
      rw [if_neg fun hall => by rw [if_pos hall] at hnone; cases hnone]
    · rename_i name hsome
      split at hsome
      · rename_i hall
        cases hsome
        rw [if_pos hall]
        refine ih _ _ _ _ ?_
        rw [List.length_append, List.length_map]
        have htake := List.length_take_le length.toNat (p.drop (position + 1))
        omega
      · cases hsome

/-- The exact decoder has a value for every message, offset and argument. -/
theorem dnsDecodeNameExact_eq (p : List UInt8) (offset : Nat) (out : List UInt8) (consumed : Nat) :
    dnsDecodeNameExact p offset out consumed =
      some (match dnsDecodeName p offset with
        | none => (false, out, consumed)
        | some (name, used) => (true, name ++ 0 :: out.drop (name.length + 1), used)) := by
  rw [dnsDecodeNameExact, dnsDecodeName]
  split
  · rfl
  · rw [decodeNameLoopExact_eq 128 offset [] 0 false (by decide)]
    simp only [Option.bind_eq_bind, Option.bind_some]
    split <;> rfl

end Exact

/-! ## Names that are put together -/

theorem dot_not_character : character dot = false := by decide

theorem nameValidLoop_label {label : List UInt8} (hchars : label.all character = true) :
    ∀ i k : Nat, k ≤ i → 0 < k + label.length → k + label.length ≤ 63 →
    i + label.length < dnsNameMax →
    nameValidLoop i k label = true := by
  induction label with
  | nil =>
    intro i k hk hpos _ hmax
    simp only [List.length_nil, Nat.add_zero] at hpos hmax
    rw [nameValidLoop]
    exact decide_eq_true ⟨hmax, by omega, by omega⟩
  | cons c label ih =>
    intro i k hk _ hle hmax
    rw [List.all_cons, Bool.and_eq_true] at hchars
    rw [List.length_cons] at hle hmax
    have hdot : c ≠ dot := by
      rintro rfl
      rw [dot_not_character] at hchars
      cases hchars.1
    rw [nameValidLoop, if_neg (by omega), if_neg hdot, if_neg]
    · exact ih hchars.2 (i + 1) (k + 1) (by omega) (by omega) (by omega) (by omega)
    · rintro (hbad | hlong)
      · exact hbad hchars.1
      · omega

/-- A label behind a name. -/
theorem nameValidLoop_append {label : List UInt8} (hlabel : LabelValid label) (name : List UInt8) :
    ∀ i k : Nat, nameValidLoop i k name = true → i + name.length + 1 + label.length < dnsNameMax →
      nameValidLoop i k (name ++ dot :: label) = true := by
  have hpos := List.length_pos_iff.2 hlabel.nonempty
  have hle := hlabel.length_le
  induction name with
  | nil =>
    intro i k hname hmax
    rw [nameValidLoop] at hname
    obtain ⟨-, hi, hk⟩ := of_decide_eq_true hname
    rw [List.length_nil] at hmax
    rw [List.nil_append, nameValidLoop, if_neg (by omega), if_pos rfl, if_neg hk]
    exact nameValidLoop_label hlabel.characters _ _ (by omega) (by omega) (by omega) (by omega)
  | cons c name ih =>
    intro i k hname hmax
    rw [List.length_cons] at hmax
    rw [nameValidLoop] at hname
    rw [List.cons_append, nameValidLoop]
    split at hname
    · cases hname
    rename_i hin
    rw [if_neg hin]
    split at hname
    · rename_i hdot
      rw [if_pos hdot]
      split at hname
      · cases hname
      · rename_i hk
        rw [if_neg hk]
        exact ih _ _ hname (by omega)
    · rename_i hdot
      rw [if_neg hdot]
      split at hname
      · cases hname
      · rename_i hgood
        rw [if_neg hgood]
        exact ih _ _ hname (by omega)

/-- What the decoder may have put together: nothing, or a valid name without capitals. -/
def DecodedName (name : List UInt8) : Prop :=
  name = [] ∨ dnsNameValid name = true ∧ name.map lower = name

theorem DecodedName.append {name label : List UInt8} (hname : DecodedName name)
    (hlabel : LabelValid label)
    (hfits : (name ++ (if name.length ≠ 0 then [dot] else []) ++ label.map lower).length <
    dnsNameMax) :
    DecodedName (name ++ (if name.length ≠ 0 then [dot] else []) ++ label.map lower) := by
  have hlower : LabelValid (label.map lower) :=
    ⟨by simpa using hlabel.nonempty, by simpa using hlabel.length_le,
      all_character_lower hlabel.characters⟩
  have hpos := List.length_pos_iff.2 hlower.nonempty
  right
  rcases hname with rfl | ⟨hvalid, hsmall⟩
  · change (label.map lower).length < dnsNameMax at hfits
    refine ⟨?_, map_lower_lower label⟩
    exact nameValidLoop_label hlower.characters 0 0 (Nat.le_refl 0) (by omega)
      (by have := hlower.length_le; omega) (by omega)
  · have hne : name.length ≠ 0 := by
      intro hzero
      rw [List.length_eq_zero_iff.1 hzero] at hvalid
      cases hvalid
    rw [if_pos hne] at hfits ⊢
    rw [List.append_assoc, List.length_append, List.length_append, List.length_singleton] at hfits
    rw [List.append_assoc, List.singleton_append]
    refine ⟨nameValidLoop_append hlower name 0 0 hvalid (by omega), ?_⟩
    rw [List.map_append, List.map_cons, hsmall, map_lower_lower]
    rfl

/-! ## The bytes that a name takes -/

theorem labelLength_le {c : UInt8} (h : c &&& 0xc0 = 0) : c.toNat ≤ 63 := by
  have hall : ∀ k : Fin 256, k.val.toUInt8 &&& 0xc0 = 0 → k.val ≤ 63 := by decide +kernel
  have hc : c.toNat.toUInt8 = c := UInt8.ofNat_toNat
  exact hall ⟨c.toNat, c.toNat_lt⟩ (by rw [hc]; exact h)

section Steps

variable {p result : List UInt8} {hops position encoded offset : Nat} {jumped : Bool}
  {decoded : List UInt8 × Nat}

/-- One round of a decoder that succeeds: a pointer, the end of the name, or a label. -/
theorem decodeNameLoop_cases
    (h : decodeNameLoop p (hops + 1) position result encoded jumped = some decoded) :
    position < p.length ∧
    ((position + 1 < p.length ∧ ∃ target,
        decodeNameLoop p hops target result (if jumped then encoded else encoded + 2) true =
          some decoded) ∨
      decoded = (result, if jumped then encoded else encoded + 1) ∨
      ∃ label, LabelValid label ∧ position + 1 + label.length ≤ p.length ∧
        (result ++ (if result.length ≠ 0 then [dot] else []) ++ label.map lower).length <
        dnsNameMax ∧
        decodeNameLoop p hops (position + 1 + label.length)
          (result ++ (if result.length ≠ 0 then [dot] else []) ++ label.map lower)
          (if jumped then encoded else encoded + 1 + label.length) jumped = some decoded) := by
  rw [decodeNameLoop] at h
  split at h
  · cases h
  rename_i hin
  refine ⟨by omega, ?_⟩
  simp only at h
  split at h
  · split at h
    · cases h
    rename_i hnext
    split at h
    · cases h
    exact Or.inl ⟨by omega, _, h⟩
  rename_i hpointer
  split at h
  · cases h
  rename_i hflags
  split at h
  · cases h
    exact Or.inr (Or.inl rfl)
  rename_i hend
  generalize (if result.length ≠ 0 then [dot] else []) = separator at h ⊢
  split at h
  · cases h
  rename_i hroom
  split at h
  · rename_i hall
    have hlength : ((p.drop (position + 1)).take (byteAt p position).toNat).length =
        (byteAt p position).toNat := by
      rw [List.length_take, List.length_drop]
      omega
    have hpos : 0 < (byteAt p position).toNat :=
      Nat.pos_of_ne_zero fun hzero => hend (UInt8.toNat_inj.1 hzero)
    refine Or.inr (Or.inr ⟨(p.drop (position + 1)).take (byteAt p position).toNat,
      ⟨?_, ?_, hall⟩, ?_, ?_, ?_⟩)
    · exact List.length_pos_iff.1 (by omega)
    · rw [hlength]
      exact labelLength_le (not_not.1 hflags)
    · omega
    · rw [List.length_append, List.length_append, List.length_map]
      omega
    · rw [hlength]
      cases jumped <;> exact h
  · cases h

/-- A round of the decoder that began at the offset. The count stands at the position until there
has been a pointer. -/
structure NameState (p : List UInt8) (offset position : Nat) (result : List UInt8) (encoded : Nat)
    (jumped : Bool) : Prop where
  count : if jumped then 1 ≤ encoded ∧ offset + encoded ≤ p.length else offset + encoded = position
  name : DecodedName result

/-- From any round to the end. -/
theorem NameState.finish : ∀ {hops position encoded : Nat} {result : List UInt8} {jumped : Bool},
    NameState p offset position result encoded jumped →
    decodeNameLoop p hops position result encoded jumped = some decoded →
    1 ≤ decoded.2 ∧ offset + decoded.2 ≤ p.length ∧ DecodedName decoded.1 := by
  intro hops
  induction hops with
  | zero => intro position encoded result jumped _ h; cases h
  | succ hops ih =>
    intro position encoded result jumped hs h
    obtain ⟨hin, hcase⟩ := decodeNameLoop_cases h
    have hcount := hs.count
    rcases hcase with ⟨hnext, target, h⟩ | rfl | ⟨label, hlabel, hend, hfits, h⟩
    · refine ih ⟨?_, hs.name⟩ h
      cases jumped <;> simp only [Bool.false_eq_true, if_false, if_true] at hcount ⊢ <;> omega
    · cases jumped <;> simp only [Bool.false_eq_true, if_false, if_true] at hcount ⊢
      · exact ⟨by omega, by omega, hs.name⟩
      · exact ⟨hcount.1, hcount.2, hs.name⟩
    · refine ih ⟨?_, hs.name.append hlabel hfits⟩ h
      cases jumped <;> simp only [Bool.false_eq_true, if_false, if_true] at hcount ⊢ <;> omega

theorem dnsDecodeName_bounds (h : dnsDecodeName p offset = some decoded) :
    1 ≤ decoded.2 ∧ offset + decoded.2 ≤ p.length ∧ DecodedName decoded.1 := by
  rw [dnsDecodeName] at h
  split at h
  · cases h
  · have hstart : NameState p offset offset [] 0 false := ⟨rfl, Or.inl rfl⟩
    exact hstart.finish h

end Steps

/-- The question of a query. -/
theorem dnsDecodeName_query {name : List UInt8} {capacity : Nat} (hname : dnsNameValid name = true)
    (hcapacity : name.length + 18 ≤ capacity) (id : Nat) :
    ∃ query, dnsBuildQuery capacity name id = some query ∧ query.length = name.length + 18 ∧
      dnsDecodeName query 12 = some (name.map lower, name.length + 2) := by
  have hshort := (dnsNameValid_labels hname).1
  have hlabels := length_nameLabels_le hname
  have hmax : dnsNameMax = 254 := rfl
  have hmax' : dnsMessageMax = 512 := rfl
  refine ⟨_, by rw [dnsBuildQuery, if_neg (fun hn => hn hname), if_neg (by omega)], ?_⟩
  have hshape : queryLoop (queryHeader id) [] name ++ [0] ++ netPut16 1 ++ netPut16 1 =
      queryHeader id ++ (wireLabels (nameLabels [] name) ++ 0 :: (netPut16 1 ++ netPut16 1)) := by
    rw [queryLoop_eq]
    simp only [List.append_assoc, List.cons_append, List.nil_append]
  have hlength : (queryHeader id ++
      (wireLabels (nameLabels [] name) ++ 0 :: (netPut16 1 ++ netPut16 1))).length =
        name.length + 18 := by
    rw [List.length_append, List.length_append, length_wireLabels, List.length_nil]
    change 12 + (0 + name.length + 1 + 5) = _
    omega
  rw [hshape]
  refine ⟨hlength, ?_⟩
  rw [dnsDecodeName, if_neg (by omega), decodeNameLoop_question hname rfl, if_pos (by omega),
    Nat.zero_add]
  rfl

/-- `dns_decode_name` on any message: every read and store is in bounds, the arguments are as before
on a failure, and a success gives a part of the message and an empty or valid name without capitals.
On a query it gives the name of the query back. -/
theorem dns_decode_name_safe :
    (∀ (p : List UInt8) (offset : Nat) (out : List UInt8) (consumed : Nat),
      dnsDecodeNameExact p offset out consumed =
        some (match dnsDecodeName p offset with
          | none => (false, out, consumed)
          | some (name, used) => (true, name ++ 0 :: out.drop (name.length + 1), used))) ∧
    (∀ (p : List UInt8) (offset : Nat) (name : List UInt8) (used : Nat),
      dnsDecodeName p offset = some (name, used) →
        1 ≤ used ∧ offset + used ≤ p.length ∧
          (name = [] ∨ dnsNameValid name = true ∧ name.map lower = name)) ∧
    (∀ (name : List UInt8) (capacity id : Nat), dnsNameValid name = true →
      name.length + 18 ≤ capacity →
      ∃ query, dnsBuildQuery capacity name id = some query ∧ query.length = name.length + 18 ∧
        dnsDecodeName query 12 = some (name.map lower, name.length + 2)) :=
  ⟨dnsDecodeNameExact_eq, fun _ _ _ _ h => dnsDecodeName_bounds h,
    fun _ _ id hname hcapacity => dnsDecodeName_query hname hcapacity id⟩

/-- A name behind its first label, and the query for `A.b`. -/
theorem dns_decode_name_safe_pointer :
    (1 ≤ 4 ∧ 15 + 4 ≤ 19 ∧ (dnsNameValid [98, 46, 97] = true ∧
    [98, 46, 97].map lower = [98, 46, 97])) ∧
    ∃ query, dnsBuildQuery 512 [65, 46, 98] 7 = some query ∧ query.length = 21 ∧
      dnsDecodeName query 12 = some ([97, 46, 98], 5) := by
  have hpointer :=
    dns_decode_name_safe.2.1 (List.replicate 12 0 ++ [1, 65, 0, 1, 66, 0xc0, 12]) 15 [98, 46, 97] 4
    (by decide +kernel)
  exact ⟨⟨hpointer.1, hpointer.2.1, hpointer.2.2.resolve_left nofun⟩,
    dns_decode_name_safe.2.2 [65, 46, 98] 512 7 (by decide) (by decide)⟩

end Utamo.Net
