import Utamo.Net.Dns

/-!
# Names on the wire and the canonical reply

* `decodeNameLoop_wire`: the decoder on the labels of a name, for any number of hops that are
  left; it returns the name in lower case exactly if there is a hop for each label and one for
  the terminator.
* `dnsDecodeReply_canonical`: the reply that repeats the question and answers it with one
  address. The owner of the answer is a pointer to the question, which takes one more hop than
  the question itself.
-/

set_option autoImplicit false

namespace Utamo.Net

/-! ## Characters -/

theorem toNat_lower {c : UInt8} :
    (lower c).toNat = if 65 ≤ c.toNat ∧ c.toNat ≤ 90 then c.toNat + 32 else c.toNat := by
  rw [lower]
  split
  · rw [UInt8.toNat_add]
    change (c.toNat + 32) % 256 = c.toNat + 32
    omega
  · rfl

theorem lower_lower (c : UInt8) : lower (lower c) = lower c := by
  apply UInt8.toNat_inj.mp
  rw [toNat_lower, toNat_lower]
  by_cases h : 65 ≤ c.toNat ∧ c.toNat ≤ 90
  · rw [if_pos h, if_neg (by omega)]
  · rw [if_neg h, if_neg h]

theorem lower_dot : lower dot = dot := rfl

theorem character_lower {c : UInt8} (h : character c = true) : character (lower c) = true := by
  have hnum : ∀ x : UInt8, character x = true ↔ (97 ≤ x.toNat ∧ x.toNat ≤ 122) ∨
      (65 ≤ x.toNat ∧ x.toNat ≤ 90) ∨ (48 ≤ x.toNat ∧ x.toNat ≤ 57) ∨
      x.toNat = 45 ∨ x.toNat = 95 := by
    intro x
    rw [character, decide_eq_true_iff, ← UInt8.toNat_inj, ← UInt8.toNat_inj]
    rfl
  rw [hnum] at h ⊢
  rw [toNat_lower]
  split <;> omega

theorem map_lower_lower (label : List UInt8) : (label.map lower).map lower = label.map lower := by
  rw [List.map_map]
  apply List.map_congr_left
  intro c _
  exact lower_lower c

theorem all_character_lower {label : List UInt8} (h : label.all character = true) :
    (label.map lower).all character = true := by
  rw [List.all_eq_true] at h ⊢
  intro c hc
  obtain ⟨d, hd, rfl⟩ := List.mem_map.mp hc
  exact character_lower (h d hd)

/-- A length that is no pointer. -/
theorem labelLength_toUInt8 {n : Nat} (h : n ≤ 63) :
    n.toUInt8 &&& 0xc0 = 0 ∧ n.toUInt8.toNat = n := by
  have hall : ∀ k : Fin 64, k.val.toUInt8 &&& 0xc0 = 0 ∧ k.val.toUInt8.toNat = k.val := by decide
  exact hall ⟨n, by omega⟩

/-! ## Labels -/

/-- The labels of a name as `dns_build_query` cuts them, with one that has begun. -/
def nameLabels (label : List UInt8) : List UInt8 → List (List UInt8)
  | [] => [label]
  | c :: rest => if c = dot then label :: nameLabels [] rest else nameLabels (label ++ [c]) rest

/-- Labels as a query carries them. -/
def wireLabels (labels : List (List UInt8)) : List UInt8 :=
  labels.flatMap fun label => label.length.toUInt8 :: label.map lower

/-- The name that the decoder puts together, behind what it has so far. -/
def joinLabels (result : List UInt8) (labels : List (List UInt8)) : List UInt8 :=
  labels.foldl (fun result label =>
    result ++ (if result.length ≠ 0 then [dot] else []) ++ label.map lower) result

structure LabelValid (label : List UInt8) : Prop where
  nonempty : label ≠ []
  length_le : label.length ≤ 63
  characters : label.all character = true

theorem wireLabels_cons (label : List UInt8) (labels : List (List UInt8)) :
    wireLabels (label :: labels) = label.length.toUInt8 :: label.map lower ++
      wireLabels labels := rfl

theorem queryLoop_eq (rest : List UInt8) : ∀ out label : List UInt8,
    queryLoop out label rest = out ++ wireLabels (nameLabels label rest) := by
  induction rest with
  | nil =>
    intro out label
    rw [nameLabels, wireLabels_cons, wireLabels, List.flatMap_nil, List.append_nil]
    rfl
  | cons c rest ih =>
    intro out label
    rw [queryLoop, nameLabels]
    split
    · rw [ih, wireLabels_cons, List.append_assoc]
    · rw [ih]

/-- One label for each dot and one more. -/
theorem length_nameLabels (rest : List UInt8) : ∀ label : List UInt8,
    (nameLabels label rest).length = rest.count dot + 1 := by
  induction rest with
  | nil => intro label; rfl
  | cons c rest ih =>
    intro label
    rw [nameLabels]
    split
    · rename_i hdot
      rw [List.length_cons, ih, hdot, List.count_cons_self]
    · rename_i hdot
      rw [ih, List.count_cons_of_ne hdot]

theorem length_wireLabels (rest : List UInt8) : ∀ label : List UInt8,
    (wireLabels (nameLabels label rest)).length = label.length + rest.length + 1 := by
  induction rest with
  | nil =>
    intro label
    rw [nameLabels, wireLabels_cons, List.length_append, List.length_cons, List.length_map]
    rfl
  | cons c rest ih =>
    intro label
    rw [nameLabels]
    split
    · rw [wireLabels_cons, List.length_append, List.length_cons, List.length_map, ih]
      simp only [List.length_nil, List.length_cons]
      omega
    · rw [ih, List.length_append, List.length_cons, List.length_cons, List.length_nil]
      omega

/-- What `dns_name_valid` has checked, from any point of its loop. -/
theorem nameValidLoop_spec (rest : List UInt8) : ∀ (i : Nat) (label : List UInt8),
    nameValidLoop i label.length rest = true → label.length ≤ 63 → label.all character = true →
      i + rest.length < dnsNameMax ∧ ∀ l ∈ nameLabels label rest, LabelValid l := by
  induction rest with
  | nil =>
    intro i label h hle hall
    rw [nameValidLoop, decide_eq_true_iff] at h
    refine ⟨by simpa using h.1, ?_⟩
    intro l hl
    rw [nameLabels, List.mem_singleton] at hl
    subst hl
    exact ⟨fun hnil => h.2.2 (by rw [hnil]; rfl), hle, hall⟩
  | cons c rest ih =>
    intro i label h hle hall
    rw [nameValidLoop] at h
    rw [nameLabels, List.length_cons]
    by_cases hi : dnsNameMax ≤ i
    · rw [if_pos hi] at h
      cases h
    rw [if_neg hi] at h
    by_cases hdot : c = dot
    · rw [if_pos hdot] at h
      rw [if_pos hdot]
      by_cases hlabel : label.length = 0
      · rw [if_pos hlabel] at h
        cases h
      rw [if_neg hlabel] at h
      obtain ⟨hlen, hvalid⟩ := ih (i + 1) [] h (Nat.zero_le _) rfl
      refine ⟨by omega, ?_⟩
      exact List.forall_mem_cons.2 ⟨⟨fun hnil => hlabel (by rw [hnil]; rfl), hle, hall⟩, hvalid⟩
    · rw [if_neg hdot] at h
      rw [if_neg hdot]
      by_cases hbad : ¬ character c = true ∨ 63 < label.length + 1
      · rw [if_pos hbad] at h
        cases h
      rw [if_neg hbad] at h
      rw [not_or, not_not] at hbad
      have hlength : (label ++ [c]).length = label.length + 1 := by
        rw [List.length_append, List.length_singleton]
      have hall' : (label ++ [c]).all character = true := by
        rw [List.all_append, hall, Bool.true_and, List.all_cons, hbad.1, List.all_nil,
          Bool.true_and]
      rw [← hlength] at h
      obtain ⟨hlen, hvalid⟩ := ih (i + 1) (label ++ [c]) h (by omega) hall'
      exact ⟨by omega, hvalid⟩

theorem joinLabels_cons (result label : List UInt8) (labels : List (List UInt8)) :
    joinLabels result (label :: labels) =
      joinLabels (result ++ (if result.length ≠ 0 then [dot] else []) ++ label.map lower) labels :=
        rfl

theorem length_le_joinLabels (labels : List (List UInt8)) : ∀ result : List UInt8,
    result.length ≤ (joinLabels result labels).length := by
  induction labels with
  | nil => intro result; exact Nat.le_refl _
  | cons label labels ih =>
    intro result
    have hstep := ih (result ++ (if result.length ≠ 0 then [dot] else []) ++ label.map lower)
    rw [joinLabels_cons]
    rw [List.length_append, List.length_append] at hstep
    omega

/-- Joining the labels of a name gives the name back, in lower case. -/
theorem joinLabels_nameLabels (rest : List UInt8) : ∀ result label : List UInt8,
    (∀ l ∈ nameLabels label rest, LabelValid l) →
      joinLabels result (nameLabels label rest) =
        result ++ (if result.length ≠ 0 then [dot] else []) ++ (label ++ rest).map lower := by
  induction rest with
  | nil =>
    intro result label _
    rw [nameLabels, joinLabels_cons, List.append_nil]
    rfl
  | cons c rest ih =>
    intro result label hvalid
    rw [nameLabels] at hvalid ⊢
    by_cases hdot : c = dot
    · rw [if_pos hdot] at hvalid ⊢
      -- the label is not empty, so a dot goes behind it
      have hnonempty := (hvalid label List.mem_cons_self).nonempty
      have hlong : (result ++ (if result.length ≠ 0 then [dot] else []) ++
          label.map lower).length ≠ 0 := by
        intro hzero
        rw [List.length_append, List.length_map] at hzero
        exact hnonempty (List.eq_nil_of_length_eq_zero (by omega))
      rw [joinLabels_cons, ih _ _ fun l hl => hvalid l (List.mem_cons_of_mem _ hl),
        if_pos hlong, hdot]
      simp only [List.map_append, List.map_cons, List.nil_append, lower_dot, List.append_assoc,
        List.cons_append]
    · rw [if_neg hdot] at hvalid ⊢
      rw [ih _ _ hvalid, List.append_assoc label, List.singleton_append]

theorem two_mul_length_le_wireLabels {labels : List (List UInt8)} (h : ∀ l ∈ labels, LabelValid l) :
    2 * labels.length ≤ (wireLabels labels).length := by
  induction labels with
  | nil => exact Nat.le_refl _
  | cons label labels ih =>
    have hrest := ih fun l hl => h l (List.mem_cons_of_mem _ hl)
    have hpos := List.length_pos_iff.mpr (h label List.mem_cons_self).nonempty
    rw [wireLabels_cons, List.length_append, List.length_cons, List.length_cons, List.length_map]
    omega

/-! ## The decoder of names -/

/-- The two bytes of a number that fits. -/
theorem put16_small (value : Nat) (h : value < 2 ^ 16) :
    (value / 256).toUInt8.toNat * 256 + value.toUInt8.toNat = value :=
  (put16_value value).trans (Nat.mod_eq_of_lt h)

section Bytes

variable (pre ys : List UInt8)

theorem byteAt_shift (k : Nat) : byteAt (pre ++ ys) (pre.length + k) = byteAt ys k := by
  rw [byteAt_append_right (Nat.le_add_right _ _), Nat.add_sub_cancel_left]

theorem netGet16_shift (k : Nat) : netGet16 (pre ++ ys) (pre.length + k) = netGet16 ys k := by
  rw [netGet16, byteAt_shift, Nat.add_assoc, byteAt_shift]
  rfl

theorem netGet32_shift (k : Nat) : netGet32 (pre ++ ys) (pre.length + k) = netGet32 ys k := by
  rw [netGet32, netGet16_shift, Nat.add_assoc, netGet16_shift]
  rfl

end Bytes

/-- One label, with a hop for it. -/
theorem decodeNameLoop_label {label : List UInt8} (hvalid : LabelValid label) (hops : Nat)
    (pre rest result : List UInt8) (encoded : Nat) (jumped : Bool)
    (hfits : (result ++ (if result.length ≠ 0 then [dot] else []) ++ label.map lower).length <
    dnsNameMax) :
    decodeNameLoop (pre ++ (label.length.toUInt8 :: label.map lower ++ rest)) (hops + 1) pre.length
        result encoded jumped =
      decodeNameLoop (pre ++ (label.length.toUInt8 :: label.map lower) ++ rest) hops
        (pre ++ (label.length.toUInt8 :: label.map lower)).length
        (result ++ (if result.length ≠ 0 then [dot] else []) ++ label.map lower)
        (if jumped then encoded else encoded + 1 + label.length) jumped := by
  obtain ⟨hno, hnat⟩ := labelLength_toUInt8 hvalid.length_le
  have hpos := List.length_pos_iff.mpr hvalid.nonempty
  generalize hp : pre ++ (label.length.toUInt8 :: label.map lower ++ rest) = p
  have hp' : pre ++ (label.length.toUInt8 :: label.map lower) ++ rest = p := by
    rw [← hp, List.append_assoc]
  have hlen : p.length = pre.length + (label.length + 1 + rest.length) := by
    rw [← hp, List.length_append, List.length_append, List.length_cons, List.length_map]
  have hbyte : byteAt p pre.length = label.length.toUInt8 := by
    rw [← hp, ← Nat.add_zero pre.length, byteAt_shift]
    rfl
  have hdrop : p.drop (pre.length + 1) = label.map lower ++ rest := by
    rw [← hp, ← List.drop_drop, List.drop_left]
    rfl
  have htake : (label.map lower ++ rest).take label.length = label.map lower :=
    List.take_left' (List.length_map lower)
  have hzero : label.length.toUInt8 ≠ 0 := by
    intro h
    rw [h] at hnat
    exact absurd hnat (by change ¬ 0 = label.length; omega)
  rw [List.length_append, List.length_append, List.length_map] at hfits
  have hposition : (pre ++ (label.length.toUInt8 :: label.map lower)).length =
      pre.length + 1 + label.length := by
    rw [List.length_append, List.length_cons, List.length_map]
    omega
  rw [hp', hposition, decodeNameLoop, if_neg (by omega)]
  simp only [hbyte, hno, hnat, hdrop, htake, map_lower_lower, all_character_lower hvalid.characters]
  rw [if_neg (by decide), if_neg (fun h => h rfl), if_neg hzero, if_neg (by omega), if_pos trivial]
  cases jumped <;> rfl

/-- The decoder needs a hop for each label of a name and one for the terminator. -/
theorem decodeNameLoop_wire {labels : List (List UInt8)} (hvalid : ∀ l ∈ labels, LabelValid l)
    (rest : List UInt8) : ∀ (hops : Nat) (pre result : List UInt8) (encoded : Nat) (jumped : Bool),
      (joinLabels result labels).length < dnsNameMax →
      decodeNameLoop (pre ++ (wireLabels labels ++ 0 :: rest)) hops pre.length result encoded
        jumped = if labels.length < hops then
          some (joinLabels result labels,
            if jumped then encoded else encoded + (wireLabels labels).length + 1)
        else none := by
  induction labels with
  | nil =>
    intro hops pre result encoded jumped _
    cases hops with
    | zero => rfl
    | succ hops =>
      have hbyte : byteAt (pre ++ (wireLabels [] ++ 0 :: rest)) pre.length = 0 := by
        rw [← Nat.add_zero pre.length, byteAt_shift]
        rfl
      have hlen : (pre ++ (wireLabels [] ++ 0 :: rest)).length =
          pre.length + (rest.length + 1) := by
        rw [List.length_append]
        rfl
      rw [decodeNameLoop, if_neg (by omega)]
      simp only [hbyte]
      rw [if_neg (by decide), if_neg (by decide), if_pos trivial,
        if_pos (show [].length < hops + 1 from Nat.succ_pos hops)]
      rfl
  | cons label labels ih =>
    intro hops pre result encoded jumped hfits
    cases hops with
    | zero => rw [decodeNameLoop, if_neg (Nat.not_lt_zero _)]
    | succ hops =>
      rw [joinLabels_cons] at hfits
      have hfirst := Nat.lt_of_le_of_lt (length_le_joinLabels labels _) hfits
      rw [wireLabels_cons, List.append_assoc,
        decodeNameLoop_label (hvalid label List.mem_cons_self) hops pre _ result encoded jumped
        hfirst, ih (fun l hl => hvalid l (List.mem_cons_of_mem _ hl)) hops _ _ _ _ hfits,
        joinLabels_cons]
      have hlength : (label.length.toUInt8 :: label.map lower ++ wireLabels labels).length =
          1 + label.length + (wireLabels labels).length := by
        rw [List.length_append, List.length_cons, List.length_map]
        omega
      simp only [List.length_cons, Nat.add_lt_add_iff_right]
      cases jumped with
      | true => rfl
      | false =>
        simp only [Bool.false_eq_true, if_false, hlength]
        rw [Nat.add_assoc encoded, Nat.add_assoc encoded]

/-! ## The canonical reply -/

/-- One answer of type A and class IN whose owner is the name of the question. -/
def pointerAnswer (ttl address : Nat) : List UInt8 :=
  [0xc0, 0x0c] ++ netPut16 1 ++ netPut16 1 ++ netPut32 ttl ++ netPut16 4 ++ netPut32 address

/-- A query as a server answers it. -/
def canonicalReply (query : List UInt8) (ttl address : Nat) : List UInt8 :=
  netStore16 (netStore16 query 2 0x8180) 6 1 ++ pointerAnswer ttl address

/-- The header of the reply. -/
def replyHeader (id : Nat) : List UInt8 :=
  netPut16 id ++ netPut16 0x8180 ++ netPut16 1 ++ netPut16 1 ++ netPut16 0 ++ netPut16 0

section Reply

variable {name : List UInt8}

theorem canonicalReply_eq {capacity id : Nat} {query : List UInt8}
    (h : dnsBuildQuery capacity name id = some query) (ttl address : Nat) :
    canonicalReply query ttl address =
      replyHeader id ++ (wireLabels (nameLabels [] name) ++
        0 :: (netPut16 1 ++ netPut16 1 ++ pointerAnswer ttl address)) := by
  rw [dnsBuildQuery] at h
  split at h
  · cases h
  split at h
  · cases h
  cases h
  rw [queryLoop_eq]
  generalize wireLabels (nameLabels [] name) = wire
  have hheader : ∀ xs : List UInt8,
      netStore16 (netStore16 (queryHeader id ++ xs) 2 0x8180) 6 1 = replyHeader id ++
        xs := fun xs => rfl
  rw [List.append_assoc, List.append_assoc, List.append_assoc, canonicalReply, hheader]
  simp only [List.append_assoc]
  rfl

/-- What is known of a name that `dns_name_valid` accepts. -/
theorem dnsNameValid_labels (h : dnsNameValid name = true) :
    name.length < dnsNameMax ∧ ∀ l ∈ nameLabels [] name, LabelValid l := by
  obtain ⟨hlen, hvalid⟩ := nameValidLoop_spec name 0 [] h (Nat.zero_le _) rfl
  rw [Nat.zero_add] at hlen
  exact ⟨hlen, hvalid⟩

theorem joinLabels_name (h : dnsNameValid name = true) :
    joinLabels [] (nameLabels [] name) = name.map lower :=
  joinLabels_nameLabels name [] [] (dnsNameValid_labels h).2

/-- A name that fits has no more labels than the question has hops. -/
theorem length_nameLabels_le (h : dnsNameValid name = true) :
    (nameLabels [] name).length ≤ 127 := by
  obtain ⟨hlen, hvalid⟩ := dnsNameValid_labels h
  have htwo := two_mul_length_le_wireLabels hvalid
  have hmax : dnsNameMax = 254 := rfl
  rw [length_wireLabels, List.length_nil] at htwo
  omega

/-- The decoder at the question, which every reply and every query has at offset 12. -/
theorem decodeNameLoop_question (h : dnsNameValid name = true) {header : List UInt8}
    (hheader : header.length = 12) (rest : List UInt8) (hops encoded : Nat) (jumped : Bool) :
    decodeNameLoop (header ++ (wireLabels (nameLabels [] name) ++ 0 :: rest)) hops 12 [] encoded
      jumped = if (nameLabels [] name).length < hops then
        some (name.map lower, if jumped then encoded else encoded + (name.length + 2))
      else none := by
  have hjoin := joinLabels_name h
  have hfits : (joinLabels [] (nameLabels [] name)).length < dnsNameMax := by
    rw [hjoin, List.length_map]
    exact (dnsNameValid_labels h).1
  have hloop :=
    decodeNameLoop_wire (dnsNameValid_labels h).2 rest hops header [] encoded jumped hfits
  rw [hheader, hjoin, length_wireLabels, List.length_nil, Nat.zero_add] at hloop
  exact hloop

/-- The decoder at a pointer to the question. -/
theorem decodeNameLoop_pointer {p : List UInt8} {position : Nat} (hops : Nat)
    (hlen : position + 1 < p.length)
    (hposition : 12 < position) (hfirst : byteAt p position = 0xc0)
    (hsecond : byteAt p (position + 1) = 0x0c) :
    decodeNameLoop p (hops + 1) position [] 0 false = decodeNameLoop p hops 12 [] 2 true := by
  have htarget : ((0xc0 : UInt8) &&& 63).toNat <<< 8 ||| (0x0c : UInt8).toNat = 12 := rfl
  rw [decodeNameLoop, if_neg (by omega)]
  simp only [hfirst, hsecond, htarget]
  rw [if_pos (by decide), if_neg (by omega), if_neg (by omega)]
  rfl

/-- A reply with its parts: the question with its terminator, type and class, and the answer. -/
structure ReplyParts (p name : List UInt8) (id ttl address : Nat) : Prop where
  /-- The message around the question. -/
  shape : p = replyHeader id ++
    (wireLabels (nameLabels [] name) ++
      0 :: (netPut16 1 ++ netPut16 1 ++ pointerAnswer ttl address))

namespace ReplyParts

variable {p : List UInt8} {id ttl address : Nat}

theorem length (h : ReplyParts p name id ttl address) : p.length = name.length + 34 := by
  rw [h.shape, List.length_append, List.length_append, length_wireLabels]
  change 12 + (0 + name.length + 1 + 21) = name.length + 34
  omega

theorem header16 (h : ReplyParts p name id ttl address) {k : Nat} (hk : k + 1 < 12) :
    netGet16 p k = netGet16 (replyHeader id) k := by
  have hlen : (replyHeader id).length = 12 := rfl
  rw [h.shape, netGet16, netGet16, byteAt_append_left (by omega), byteAt_append_left (by omega)]

/-- Fields behind the name of the question. -/
theorem question16 (h : ReplyParts p name id ttl address) (k : Nat) :
    netGet16 p (name.length + 14 + k) = netGet16 (netPut16 1 ++ netPut16 1 ++
      pointerAnswer ttl address) k := by
  have hshape : p = (replyHeader id ++ (wireLabels (nameLabels [] name) ++ [0])) ++
      (netPut16 1 ++ netPut16 1 ++ pointerAnswer ttl address) := by
    rw [h.shape]
    simp only [List.append_assoc, List.singleton_append]
  have hlen : (replyHeader id ++ (wireLabels (nameLabels [] name) ++ [0])).length =
      name.length + 14 := by
    rw [List.length_append, List.length_append, length_wireLabels]
    change 12 + (0 + name.length + 1 + 1) = name.length + 14
    omega
  rw [hshape, ← hlen, netGet16_shift]

/-- The message as what stands before the answer, and the answer. -/
theorem answer (h : ReplyParts p name id ttl address) :
    ∃ pre : List UInt8, pre.length = name.length + 18 ∧ p = pre ++ pointerAnswer ttl address := by
  refine ⟨replyHeader id ++
    (wireLabels (nameLabels [] name) ++ 0 :: (netPut16 1 ++ netPut16 1)), ?_, ?_⟩
  · rw [List.length_append, List.length_append, length_wireLabels]
    change 12 + (0 + name.length + 1 + 5) = name.length + 18
    omega
  · rw [h.shape]
    simp only [List.append_assoc, List.cons_append]

end ReplyParts

variable {p : List UInt8} {id ttl address : Nat} (hname : dnsNameValid name = true)

include hname

/-- The name of the question, which has a hop for each label. -/
theorem dnsDecodeName_question
    (h : ReplyParts p name id ttl address) :
    dnsDecodeName p 12 = some (name.map lower, name.length + 2) := by
  have hlen := h.length
  have hshort := (dnsNameValid_labels hname).1
  have hlabels := length_nameLabels_le hname
  have hmax : dnsNameMax = 254 := rfl
  have hmax' : dnsMessageMax = 512 := rfl
  rw [dnsDecodeName, if_neg (by omega), h.shape, decodeNameLoop_question hname rfl,
    if_pos (by omega), Nat.zero_add]
  rfl

/-- The owner of the answer: the pointer takes a hop of its own. -/
theorem dnsDecodeName_owner
    (h : ReplyParts p name id ttl address) :
    dnsDecodeName p (name.length + 18) =
      if (nameLabels [] name).length < 127 then some (name.map lower, 2) else none := by
  have hlen := h.length
  have hshort := (dnsNameValid_labels hname).1
  have hmax : dnsNameMax = 254 := rfl
  have hmax' : dnsMessageMax = 512 := rfl
  obtain ⟨pre, hpre, hp⟩ := h.answer
  have hfirst : byteAt p (name.length + 18) = 0xc0 := by
    rw [hp, ← hpre, ← Nat.add_zero pre.length, byteAt_shift]
    rfl
  have hsecond : byteAt p (name.length + 18 + 1) = 0x0c := by
    rw [hp, ← hpre, byteAt_shift]
    rfl
  rw [dnsDecodeName, if_neg (by omega),
    decodeNameLoop_pointer 127 (by omega) (by omega) hfirst hsecond, h.shape,
    decodeNameLoop_question hname rfl]
  rfl

/-- The one record of the reply. -/
theorem recordLoop_canonical
    (haddress : address < 2 ^ 32) (h : ReplyParts p name id ttl address) (answer : List DnsRecord) :
    recordLoop p 1 1 0 (name.length + 18) answer =
      if (nameLabels [] name).length < 127 then
        some (p.length, answer.set 0 ⟨name.map lower, [], 1, address⟩)
      else none := by
  have hlen := h.length
  rw [recordLoop, dnsDecodeName_owner hname h]
  by_cases hlabels : (nameLabels [] name).length < 127
  · obtain ⟨pre, hpre, hp⟩ := h.answer
    have htype : netGet16 p (name.length + 18 + 2) = 1 := by
      rw [hp, ← hpre, netGet16_shift]
      exact put16_small 1 (by omega)
    have hclass : netGet16 p (name.length + 18 + 2 + 2) = 1 := by
      rw [hp, ← hpre, Nat.add_assoc, netGet16_shift]
      exact put16_small 1 (by omega)
    have hdata : netGet16 p (name.length + 18 + 2 + 8) = 4 := by
      rw [hp, ← hpre, Nat.add_assoc, netGet16_shift]
      exact put16_small 4 (by omega)
    have haddress' : netGet32 p (name.length + 18 + 2 + 10) = address := by
      have hput := netGet32_put ([0xc0, 0x0c] ++ netPut16 1 ++ netPut16 1 ++ netPut32 ttl ++
        netPut16 4) [] address
      rw [hp, ← hpre, Nat.add_assoc, netGet32_shift, pointerAnswer]
      rw [List.append_nil, Nat.mod_eq_of_lt haddress] at hput
      exact hput
    rw [if_pos hlabels, if_pos hlabels]
    simp only [htype, hclass, hdata]
    rw [if_neg (by omega), if_neg (by omega), if_pos ⟨Nat.one_pos, trivial⟩, decodeAnswer,
      if_pos rfl, if_neg (fun hne => hne rfl), haddress']
    simp only [recordLoop, hlen]
    rfl
  · rw [if_neg hlabels, if_neg hlabels]

/-- The canonical reply is accepted, with its address, exactly if there is a hop for the pointer
beside those for the labels of the name and the terminator. -/
theorem dnsDecodeReply_canonical
    (hid : id < 2 ^ 16) (haddress : address < 2 ^ 32) (h : ReplyParts p name id ttl address) :
    dnsDecodeReply p name id = if (nameLabels [] name).length < 127 then
      some address else none := by
  have hlen := h.length
  have hshort := (dnsNameValid_labels hname).1
  have hmax : dnsNameMax = 254 := rfl
  have hmax' : dnsMessageMax = 512 := rfl
  have h0 : netGet16 p 0 = id := by
    rw [h.header16 (by omega)]
    exact put16_small id hid
  have h2 : netGet16 p 2 = 0x8180 := (h.header16 (by omega)).trans (put16_small 0x8180 (by omega))
  have h4 : netGet16 p 4 = 1 := (h.header16 (by omega)).trans (put16_small 1 (by omega))
  have h6 : netGet16 p 6 = 1 := (h.header16 (by omega)).trans (put16_small 1 (by omega))
  have h8 : netGet16 p 8 = 0 := (h.header16 (by omega)).trans (put16_small 0 (by omega))
  have h10 : netGet16 p 10 = 0 := (h.header16 (by omega)).trans (put16_small 0 (by omega))
  have hheader : replyHeaderValid p id = true := by
    rw [replyHeaderValid, decide_eq_true_iff, h0, h2, h4, h6, h8, h10]
    exact ⟨rfl, by decide⟩
  have hqtype : netGet16 p (12 + (name.length + 2)) = 1 := by
    rw [show 12 + (name.length + 2) = name.length + 14 + 0 by omega, h.question16]
    exact put16_small 1 (by omega)
  have hqclass : netGet16 p (14 + (name.length + 2)) = 1 := by
    rw [show 14 + (name.length + 2) = name.length + 14 + 2 by omega, h.question16]
    exact put16_small 1 (by omega)
  rw [dnsDecodeReply, if_neg, if_neg (fun hn => hn hheader), dnsDecodeName_question hname h]
  · simp only [h6, h8, h10, hqtype, hqclass]
    rw [if_neg (by rintro (hne | hlt | hlt | hne | hne) <;> first | exact hne rfl | omega),
      show 16 + (name.length + 2) = name.length + 18 by omega,
      recordLoop_canonical hname haddress h]
    by_cases hlabels : (nameLabels [] name).length < 127
    · rw [if_pos hlabels, if_pos hlabels]
      simp only [ne_eq, not_true_eq_false, if_false]
      have hfind : ((List.replicate 16 DnsRecord.zero).set 0 ⟨name.map lower, [], 1, address⟩).take
          1 = [⟨name.map lower, [], 1, address⟩] := rfl
      rw [hfind, selectAddress, List.find?_cons_of_pos (by simp)]
    · rw [if_neg hlabels, if_neg hlabels]
  · rintro (hlt | hlt | hn)
    · omega
    · omega
    · exact hn hname

/-- The query for a name that is accepted, and the size of its canonical reply. -/
theorem dnsBuildQuery_some {capacity : Nat}
    (hcapacity : name.length + 18 ≤ capacity) (id ttl address : Nat) :
    ∃ query, dnsBuildQuery capacity name id = some query ∧
      ReplyParts (canonicalReply query ttl address) name id ttl address ∧
      (canonicalReply query ttl address).length ≤ dnsMessageMax := by
  have hshort := (dnsNameValid_labels hname).1
  have hmax : dnsNameMax = 254 := rfl
  have hmax' : dnsMessageMax = 512 := rfl
  have hquery : dnsBuildQuery capacity name id =
      some (queryLoop (queryHeader id) [] name ++ [0] ++ netPut16 1 ++ netPut16 1) := by
    rw [dnsBuildQuery, if_neg (fun hn => hn hname), if_neg (by omega)]
  have hparts : ReplyParts _ name id ttl address := ⟨canonicalReply_eq hquery ttl address⟩
  refine ⟨_, hquery, hparts, ?_⟩
  rw [hparts.length]
  omega

end Reply

/-- The reply to a query of `dns_build_query` with one address for the name of the question: it is
accepted with that address exactly for the names of at most 126 labels. -/
theorem dns_canonical_answer_iff {name : List UInt8} {capacity id address : Nat}
    (hname : dnsNameValid name = true) (hcapacity : name.length + 18 ≤ capacity) (hid : id < 2 ^ 16)
    (haddress : address < 2 ^ 32) (ttl : Nat) :
    ∃ query, dnsBuildQuery capacity name id = some query ∧
      (canonicalReply query ttl address).length ≤ dnsMessageMax ∧
      (dnsDecodeReply (canonicalReply query ttl address) name id = some address ↔
        name.count dot ≤ 125) := by
  obtain ⟨query, hquery, hparts, hlength⟩ := dnsBuildQuery_some hname hcapacity id ttl address
  refine ⟨query, hquery, hlength, ?_⟩
  rw [dnsDecodeReply_canonical hname hid haddress hparts, length_nameLabels]
  by_cases hdots : name.count dot ≤ 125
  · rw [if_pos (by omega)]
    exact iff_of_true rfl hdots
  · rw [if_neg (by omega)]
    exact iff_of_false nofun hdots

/-- `fixture.test` -/
def fixtureName : List UInt8 := [102, 105, 120, 116, 117, 114, 101, 46, 116, 101, 115, 116]

theorem dns_canonical_answer_fixture :
    ∃ query, dnsBuildQuery 512 fixtureName 0x4567 = some query ∧
      (canonicalReply query 60 0xc000027b).length ≤ dnsMessageMax ∧
      dnsDecodeReply (canonicalReply query 60 0xc000027b) fixtureName 0x4567 =
        some 0xc000027b := by
  have hvalid : dnsNameValid fixtureName = true := by decide
  obtain ⟨query, hquery, hlength, hiff⟩ :=
    dns_canonical_answer_iff hvalid (show fixtureName.length + 18 ≤ 512 by decide)
      (show 0x4567 < 2 ^ 16 by decide) (show 0xc000027b < 2 ^ 32 by decide) 60
  exact ⟨query, hquery, hlength, hiff.2 (by decide)⟩

/-- A name of 127 labels: 253 characters, the most that `dns_name_valid` accepts. -/
def longestName : List UInt8 := (List.replicate 126 [97, dot]).flatten ++ [97]

/-- Its query is built, and the canonical reply to it is not accepted: the pointer, the labels and
the terminator take 129 hops. -/
theorem dns_canonical_answer_refused :
    dnsNameValid longestName = true ∧
    ∃ query, dnsBuildQuery 512 longestName 7 = some query ∧
      (canonicalReply query 60 0x01020304).length ≤ dnsMessageMax ∧
      dnsDecodeReply (canonicalReply query 60 0x01020304) longestName 7 = none := by
  have hname : dnsNameValid longestName = true := by decide +kernel
  have hlabels : ¬ (nameLabels [] longestName).length < 127 := by decide +kernel
  obtain ⟨query, hquery, hparts, hlength⟩ :=
    dnsBuildQuery_some hname (show longestName.length + 18 ≤ 512 by decide +kernel) 7 60 0x01020304
  refine ⟨hname, query, hquery, hlength, ?_⟩
  rw [dnsDecodeReply_canonical hname (by omega) (by omega) hparts, if_neg hlabels]

end Utamo.Net
