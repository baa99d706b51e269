import Mathlib.Data.Finset.Dedup
import Mathlib.Data.List.Find
import Utamo.Lib.Chase
import Utamo.Net.DnsName

/-!
# The answer that is chosen

`dns_decode_reply` on any message. `RecordsAt` says what the records of a message are, without the
slots that the function keeps them in, and `ReplyTo` which messages are replies to a question: the
header, the question and the records, up to the last byte of the message.

The address is the one of the first answer of type A for the first name, on the way from the
question along the aliases, that has one (`chase_answers_iff`). The function takes one round more
than there are answers. This is enough: before the first address no name comes twice, and each of
them owns an alias.
-/

set_option autoImplicit false

namespace Utamo.Net

open Lib

/-! ## Records -/

/-- A record of a message, and where its data lies. -/
structure WireRecord where
  owner : List UInt8
  type : Nat
  class' : Nat
  data : Nat
  length : Nat

/-- The records from an offset on, and the offset behind the last of them. -/
inductive RecordsAt (p : List UInt8) : Nat → List WireRecord → Nat → Prop
  | done (offset : Nat) : RecordsAt p offset [] offset
  | next {offset used last : Nat} {owner : List UInt8} {rest : List WireRecord}
      (howner : dnsDecodeName p offset = some (owner, used))
      (hfixed : offset + used + 10 ≤ p.length)
      (hdata : offset + used + 10 + netGet16 p (offset + used + 8) ≤ p.length)
      (hrest : RecordsAt p (offset + used + 10 + netGet16 p (offset + used + 8)) rest last) :
      RecordsAt p offset
        (⟨owner, netGet16 p (offset + used), netGet16 p (offset + used + 2), offset + used + 10,
          netGet16 p (offset + used + 8)⟩ :: rest) last

/-- An address has four bytes, and an alias has a name that fills its data. -/
def AnswerParses (p : List UInt8) (r : WireRecord) : Prop :=
  r.class' = 1 → (r.type = 1 → r.length = 4) ∧
    (r.type = 5 → ∃ target, dnsDecodeName p r.data = some (target, r.length) ∧ target ≠ [])

/-- The number of answers. -/
def answerCount (p : List UInt8) : Nat := netGet16 p 6

/-- The number of records of all sections. -/
def recordCount (p : List UInt8) : Nat := netGet16 p 6 + netGet16 p 8 + netGet16 p 10

/-- A reply to the question for a name, with its records. -/
structure ReplyTo (p name : List UInt8) (id : Nat) (records : List WireRecord) : Prop where
  length : 12 ≤ p.length ∧ p.length ≤ dnsMessageMax
  valid : dnsNameValid name = true
  header : replyHeaderValid p id = true
  count : records.length = recordCount p
  question : ∃ used, dnsDecodeName p 12 = some (name.map lower, used) ∧ 16 + used ≤ p.length ∧
    netGet16 p (12 + used) = 1 ∧ netGet16 p (14 + used) = 1 ∧
    RecordsAt p (16 + used) records p.length
  answers : ∀ r ∈ records.take (answerCount p), AnswerParses p r

/-- The address of the first answer of type A and class IN that a name owns. -/
def addressOf (p : List UInt8) (answers : List WireRecord) (name : List UInt8) : Option Nat :=
  (answers.find? fun r => r.class' = 1 ∧ r.type = 1 ∧ r.owner = name).map fun r => netGet32 p r.data

/-- The target of the first answer of type CNAME and class IN that a name owns. -/
def aliasOf (p : List UInt8) (answers : List WireRecord) (name : List UInt8) :
    Option (List UInt8) :=
  (answers.find? fun r => r.class' = 1 ∧ r.type = 5 ∧ r.owner = name).bind fun r =>
    (dnsDecodeName p r.data).map Prod.fst

/-! ## The slots of the function -/

/-- What the function keeps of an answer. -/
def slot (p : List UInt8) (r : WireRecord) : DnsRecord :=
  if r.class' = 1 then (decodeAnswer p r.owner r.type r.length r.data).getD .zero else .zero

/-- The slots after some records, from record `i` on. -/
def fillSlots (p : List UInt8) (answers : Nat) :
    Nat → List DnsRecord → List WireRecord → List DnsRecord
  | _, answer, [] => answer
  | i, answer, r :: rest =>
    fillSlots p answers (i + 1)
      (if i < answers ∧ r.class' = 1 then answer.set i (slot p r) else answer) rest

section Slots

variable {p : List UInt8} {answers : Nat}

theorem decodeAnswer_some_iff {r : WireRecord} (hclass : r.class' = 1) :
    AnswerParses p r ↔ decodeAnswer p r.owner r.type r.length r.data = some (slot p r) := by
  rw [slot, if_pos hclass, decodeAnswer]
  constructor
  · intro h
    obtain ⟨haddress, halias⟩ := h hclass
    by_cases h1 : r.type = 1
    · rw [if_pos h1, if_neg (not_not.2 (haddress h1))]
      rfl
    rw [if_neg h1]
    by_cases h5 : r.type = 5
    · obtain ⟨target, htarget, hne⟩ := halias h5
      rw [if_pos h5, htarget]
      simp only [ne_eq, not_true_eq_false, hne, or_self, if_false]
      rfl
    · rw [if_neg h5]
      rfl
  · intro h _
    refine ⟨fun h1 => ?_, fun h5 => ?_⟩
    · rw [if_pos h1] at h
      by_contra hlength
      rw [if_pos hlength] at h
      cases h
    · rw [if_neg (by omega), if_pos h5] at h
      cases hdecode : dnsDecodeName p r.data with
      | none =>
        rw [hdecode] at h
        cases h
      | some decoded =>
        obtain ⟨target, used⟩ := decoded
        rw [hdecode] at h
        simp only at h
        split at h
        · cases h
        · rename_i hgood
          obtain ⟨hused, hne⟩ := not_or.1 hgood
          exact ⟨target, by rw [not_not.1 hused], hne⟩

/-- The answers among the records from record `i` on: the first of them, if there are any,
and the rest. -/
theorem forall_answers {P : WireRecord → Prop} {i : Nat} {r : WireRecord} {rest : List WireRecord} :
    (∀ x ∈ (r :: rest).take (answers - i), P x) ↔
      (i < answers → P r) ∧ ∀ x ∈ rest.take (answers - (i + 1)), P x := by
  by_cases hi : i < answers
  · rw [show answers - i = answers - (i + 1) + 1 by omega, List.take_succ_cons,
      List.forall_mem_cons]
    exact and_congr_left fun _ => ⟨fun h _ => h, fun h => h hi⟩
  · rw [Nat.sub_eq_zero_of_le (by omega), Nat.sub_eq_zero_of_le (by omega)]
    exact ⟨fun _ => ⟨fun h => absurd h hi, nofun⟩, fun _ => nofun⟩

/-- Records that parse are what the loop reads. -/
theorem recordLoop_of_records {offset last : Nat} {records : List WireRecord}
    (h : RecordsAt p offset records last) : ∀ (i : Nat) (answer : List DnsRecord),
    (∀ r ∈ records.take (answers - i), AnswerParses p r) →
    recordLoop p answers records.length i offset answer =
      some (last, fillSlots p answers i answer records) := by
  induction h with
  | done offset => intro i answer _; rfl
  | @next offset used last owner rest howner hfixed hdata _ ih =>
    intro i answer hparse
    obtain ⟨hfirst, hpast⟩ := forall_answers.1 hparse
    rw [List.length_cons, recordLoop, howner]
    simp only
    rw [if_neg (by omega), if_neg (by omega), fillSlots]
    by_cases hkept : i < answers ∧ netGet16 p (offset + used + 2) = 1
    · rw [if_pos hkept, if_pos hkept, (decodeAnswer_some_iff hkept.2).1 (hfirst hkept.1)]
      exact ih _ _ hpast
    · rw [if_neg hkept, if_neg hkept]
      exact ih _ _ hpast

/-- What the loop reads are records that parse. -/
theorem records_of_recordLoop (rounds : Nat) :
    ∀ {i offset last : Nat} {answer answer' : List DnsRecord},
    recordLoop p answers rounds i offset answer = some (last, answer') →
    ∃ records, records.length = rounds ∧ RecordsAt p offset records last ∧
      ∀ r ∈ records.take (answers - i), AnswerParses p r := by
  induction rounds with
  | zero =>
    intro i offset last answer answer' h
    cases h
    exact ⟨[], rfl, .done offset, by simp⟩
  | succ rounds ih =>
    intro i offset last answer answer' h
    rw [recordLoop] at h
    cases howner : dnsDecodeName p offset with
    | none =>
      rw [howner] at h
      cases h
    | some decoded =>
      obtain ⟨owner, used⟩ := decoded
      rw [howner] at h
      simp only at h
      have hbounds := (dnsDecodeName_bounds howner).2.1
      simp only at hbounds
      split at h
      · cases h
      rename_i hfixed
      split at h
      · cases h
      rename_i hdata
      obtain ⟨r, hr⟩ : ∃ r : WireRecord, r = ⟨owner, netGet16 p (offset + used),
        netGet16 p (offset + used + 2), offset + used + 10,
          netGet16 p (offset + used + 8)⟩ := ⟨_, rfl⟩
      -- the record at the offset parses if it is kept, and the rest of the loop is as before
      obtain ⟨answer'', hfirst, hrest⟩ : ∃ answer'', (i < answers → AnswerParses p r) ∧
          recordLoop p answers rounds (i + 1) (offset + used + 10 + netGet16 p (offset + used + 8))
            answer'' = some (last, answer') := by
        split at h
        · rename_i hkept
          split at h
          · cases h
          rename_i record hanswer
          refine ⟨_, fun _ => ?_, h⟩
          have hclass : r.class' = 1 := by rw [hr]; exact hkept.2
          rw [decodeAnswer_some_iff hclass, slot, if_pos hclass, hr]
          simp only [hanswer, Option.getD_some]
        · rename_i hkept
          refine ⟨_, fun hi hclass => ?_, h⟩
          rw [hr] at hclass
          exact absurd ⟨hi, hclass⟩ hkept
      obtain ⟨records, hlength, hrecords, hparse⟩ := ih hrest
      refine ⟨r :: records,
        by rw [List.length_cons, hlength], ?_, forall_answers.2 ⟨hfirst, hparse⟩⟩
      rw [hr]
      exact .next howner (by omega) (by omega) hrecords

theorem fillSlots_past (records : List WireRecord) :
    ∀ (i : Nat) (answer : List DnsRecord), answers ≤ i →
    fillSlots p answers i answer records = answer := by
  induction records with
  | nil => intro i answer _; rfl
  | cons r records ih =>
    intro i answer hi
    rw [fillSlots, if_neg (by omega)]
    exact ih _ _ (by omega)

/-- The first slots hold the answers in their order. -/
theorem take_fillSlots (records : List WireRecord) : ∀ (kept : List DnsRecord) (free : Nat),
    kept.length ≤ answers → answers ≤ kept.length + free → answers ≤ kept.length + records.length →
    (fillSlots p answers kept.length (kept ++ List.replicate free .zero) records).take answers =
      kept ++ (records.take (answers - kept.length)).map (slot p) := by
  induction records with
  | nil =>
    intro kept free hle _ hall
    rw [List.length_nil] at hall
    rw [fillSlots, List.take_left' (by omega), List.take_nil, List.map_nil, List.append_nil]
  | cons r records ih =>
    intro kept free hle hfree hall
    rw [List.length_cons] at hall
    rcases Nat.eq_or_lt_of_le hle with heq | hlt
    · rw [fillSlots_past _ _ _ (by omega), List.take_left' heq, heq, Nat.sub_self, List.take_zero,
        List.map_nil, List.append_nil]
    · obtain ⟨free, rfl⟩ : ∃ n, free = n + 1 := ⟨free - 1, by omega⟩
      have hstore : (if kept.length < answers ∧ r.class' = 1 then
          (kept ++ List.replicate (free + 1) DnsRecord.zero).set kept.length (slot p r)
          else kept ++ List.replicate (free + 1) DnsRecord.zero) =
          (kept ++ [slot p r]) ++ List.replicate free DnsRecord.zero := by
        rw [List.replicate_succ, List.append_assoc, List.singleton_append]
        split
        · rw [List.set_append_right _ _ (Nat.le_refl _), Nat.sub_self, List.set_cons_zero]
        · rename_i hother
          rw [slot, if_neg fun hclass => hother ⟨hlt, hclass⟩]
      have hnext := ih (kept ++ [slot p r]) free
      simp only [List.length_append, List.length_singleton] at hnext
      rw [fillSlots, hstore, hnext (by omega) (by omega) (by omega),
        show answers - kept.length = answers - (kept.length + 1) + 1 by omega, List.take_succ_cons,
        List.map_cons, List.append_assoc, List.singleton_append]

end Slots

/-! ## The selection -/

section Selection

variable {p : List UInt8} {answers : List WireRecord}

/-- The slots of answers that parse: only an answer of class IN is of a type that is looked for. -/
theorem slot_spec {r : WireRecord} (h : AnswerParses p r) :
    (∀ name, ((slot p r).type = 1 ∧ (slot p r).owner = name ↔
        r.class' = 1 ∧ r.type = 1 ∧ r.owner = name)) ∧
      (∀ name, ((slot p r).type = 5 ∧ (slot p r).owner = name ↔
        r.class' = 1 ∧ r.type = 5 ∧ r.owner = name)) ∧
      (r.class' = 1 → r.type = 1 → (slot p r).address = netGet32 p r.data) ∧
      (r.class' = 1 → r.type = 5 →
        dnsDecodeName p r.data = some ((slot p r).target, r.length)) := by
  by_cases hclass : r.class' = 1
  · have hslot := (decodeAnswer_some_iff hclass).1 h
    rw [decodeAnswer] at hslot
    by_cases h1 : r.type = 1
    · rw [if_pos h1, if_neg (not_not.2 ((h hclass).1 h1)), Option.some.injEq] at hslot
      simp [← hslot, hclass, h1]
    rw [if_neg h1] at hslot
    by_cases h5 : r.type = 5
    · obtain ⟨target, htarget, hne⟩ := (h hclass).2 h5
      rw [if_pos h5, htarget] at hslot
      simp only [ne_eq, not_true_eq_false, hne, or_self, if_false, Option.some.injEq] at hslot
      simp [← hslot, hclass, h5, htarget]
    · rw [if_neg h5, Option.some.injEq] at hslot
      simp [← hslot, h1, h5]
  · simp [slot, hclass, DnsRecord.zero]

/-- What a search finds has the property that was looked for. -/
theorem mem_of_find? {P : WireRecord → Prop} [DecidablePred P] {r : WireRecord}
    (h : answers.find? (fun r => decide (P r)) = some r) : r ∈ answers ∧ P r :=
  ⟨List.mem_of_find?_eq_some h, by simpa using List.find?_some h⟩

theorem find?_slots {match' : DnsRecord → Bool} {wire : WireRecord → Bool}
    (h : ∀ r ∈ answers, match' (slot p r) = wire r) :
    (answers.map (slot p)).find? match' = (answers.find? wire).map (slot p) := by
  rw [List.find?_map]
  exact congrArg (Option.map (slot p)) (List.find?_congr h)

/-- The loop over the slots follows the aliases of the answers. -/
theorem selectAddress_eq_chase (h : ∀ r ∈ answers, AnswerParses p r) (hops : Nat) :
    ∀ name : List UInt8, selectAddress (answers.map (slot p)) hops name = chase (aliasOf p answers)
    (addressOf p answers) hops name := by
  induction hops with
  | zero => intro name; rfl
  | succ hops ih =>
    intro name
    rw [selectAddress, chase, addressOf, aliasOf,
      find?_slots fun r hr => decide_eq_decide.2 ((slot_spec (h r hr)).1 name),
      find?_slots fun r hr => decide_eq_decide.2 ((slot_spec (h r hr)).2.1 name)]
    cases haddress : answers.find? fun r => r.class' = 1 ∧ r.type = 1 ∧ r.owner = name with
    | some r =>
      obtain ⟨hr, hclass, htype, -⟩ := mem_of_find? haddress
      have hvalue := (slot_spec (h r hr)).2.2.1 hclass htype
      simp only [Option.map_some, hvalue]
    | none =>
      simp only [Option.map_none]
      cases halias : answers.find? fun r => r.class' = 1 ∧ r.type = 5 ∧ r.owner = name with
      | none => simp only [Option.map_none, Option.bind_none]
      | some r =>
        obtain ⟨hr, hclass, htype, -⟩ := mem_of_find? halias
        have htarget := (slot_spec (h r hr)).2.2.2 hclass htype
        simp only [Option.map_some, Option.bind_some, htarget]
        exact ih _

/-- A name with an alias is the owner of an answer. -/
theorem mem_owners_of_aliasOf {name : List UInt8} (h : (aliasOf p answers name).isSome = true) :
    name ∈ (answers.map WireRecord.owner).toFinset := by
  rw [aliasOf] at h
  cases hfind : answers.find? fun r => r.class' = 1 ∧ r.type = 5 ∧ r.owner = name with
  | none =>
    rw [hfind] at h
    cases h
  | some r =>
    obtain ⟨hr, -, -, howner⟩ := mem_of_find? hfind
    rw [List.mem_toFinset, ← howner]
    exact List.mem_map_of_mem hr

/-- The rounds of the function are enough. -/
theorem chase_answers_iff {name : List UInt8} {address : Nat} :
    chase (aliasOf p answers) (addressOf p answers) (answers.length + 1) name = some address ↔
      ∃ k, FirstHit (aliasOf p answers) (addressOf p answers) name k address := by
  rw [chase_eq_some_iff]
  constructor
  · rintro ⟨k, -, h⟩
    exact ⟨k, h⟩
  · rintro ⟨k, h⟩
    refine ⟨k, Nat.lt_succ_of_le ?_, h⟩
    calc k ≤ (answers.map WireRecord.owner).toFinset.card :=
      h.le_card fun x => mem_owners_of_aliasOf
      _ ≤ (answers.map WireRecord.owner).length := List.toFinset_card_le _
      _ = answers.length := List.length_map _

end Selection

/-! ## Replies -/

section Replies

variable {p name : List UInt8} {id : Nat}

theorem replyHeader_bounds (h : replyHeaderValid p id = true) :
    netGet16 p 0 = id ∧ answerCount p ≤ 16 := by
  obtain ⟨hid, -, -, -, -, hle, -⟩ := of_decide_eq_true h
  exact ⟨hid, hle⟩

/-- The function on a reply: the chain of aliases from the name of the question. -/
theorem dnsDecodeReply_reply {records : List WireRecord} (h : ReplyTo p name id records) :
    dnsDecodeReply p name id =
      chase (aliasOf p (records.take (answerCount p))) (addressOf p (records.take (answerCount p)))
        (answerCount p + 1) (name.map lower) := by
  obtain ⟨used, hdecode, hroom, htype, hclass, hrecords⟩ := h.question
  have hlength := h.length
  have hle := (replyHeader_bounds h.header).2
  have hcount : answerCount p ≤ records.length := by
    rw [h.count, answerCount, recordCount]
    omega
  have hloop := @recordLoop_of_records p (answerCount p) _ _ _ hrecords 0 (List.replicate 16 .zero)
    (by rw [Nat.sub_zero]; exact h.answers)
  have hslots := @take_fillSlots p (answerCount p) records [] 16 (Nat.zero_le _)
    (by simpa using hle) (by simpa using hcount)
  rw [List.length_nil, List.nil_append, Nat.sub_zero, List.nil_append] at hslots
  rw [h.count, recordCount, answerCount] at hloop
  rw [dnsDecodeReply, if_neg, if_neg (not_not.2 h.header)]
  · simp only [hdecode]
    rw [if_neg]
    · rw [hloop]
      simp only [ne_eq, not_true_eq_false, if_false]
      exact hslots ▸ selectAddress_eq_chase h.answers _ _
    · rintro (hbad | hbad | hbad | hbad | hbad)
      · exact hbad rfl
      · omega
      · omega
      · exact hbad htype
      · exact hbad hclass
  · rintro (hbad | hbad | hbad)
    · omega
    · omega
    · exact hbad h.valid

/-- Nothing else is accepted. -/
theorem replyTo_of_dnsDecodeReply {address : Nat} (h : dnsDecodeReply p name id = some address) :
    ∃ records, ReplyTo p name id records := by
  rw [dnsDecodeReply] at h
  split at h
  · cases h
  rename_i hfirst
  obtain ⟨hshort, hlong, hname⟩ :
      12 ≤ p.length ∧ p.length ≤ dnsMessageMax ∧ dnsNameValid name = true := by
    simpa only [not_or, Nat.not_lt, not_not] using hfirst
  split at h
  · cases h
  rename_i hheader
  simp only at h
  cases hdecode : dnsDecodeName p 12 with
  | none =>
    rw [hdecode] at h
    cases h
  | some decoded =>
    obtain ⟨decoded, used⟩ := decoded
    rw [hdecode] at h
    simp only at h
    split at h
    · cases h
    rename_i hquestion
    obtain ⟨heq, hused, hroom, htype, hclass⟩ : decoded = name.map lower ∧ used ≤ p.length - 12 ∧
        4 ≤ p.length - 12 - used ∧ netGet16 p (12 + used) = 1 ∧ netGet16 p (14 + used) = 1 := by
      simpa only [not_or, Nat.not_lt, ne_eq, not_not] using hquestion
    split at h
    · cases h
    rename_i last answer hloop
    split at h
    · cases h
    rename_i hlast
    obtain ⟨records, hcount, hrecords, hparse⟩ := records_of_recordLoop _ hloop
    rw [not_not.1 hlast] at hrecords
    refine ⟨records, ⟨hshort, hlong⟩, hname, not_not.1 hheader, hcount, ⟨used, ?_⟩, hparse⟩
    exact ⟨by rw [hdecode, heq], by omega, htype, hclass, hrecords⟩

end Replies

/-- `dns_decode_reply` with what `*address` holds before and after: it is stored right before the
only return with success. -/
def dnsDecodeReplyInto (p name : List UInt8) (id address : Nat) : Bool × Nat :=
  match dnsDecodeReply p name id with
  | some found => (true, found)
  | none => (false, address)

/-- The choice of an address. On a reply to the question the function succeeds exactly if some
name on the way along the aliases owns an address, with the first address of the first such
name; a circle or a dead end fails. A failure leaves `*address` as it was, and no other message
is accepted. -/
theorem dns_answer_selection_exact (p name : List UInt8) (id before : Nat) :
    (∀ records, ReplyTo p name id records → ∀ address,
      dnsDecodeReplyInto p name id before = (true, address) ↔
        ∃ k, (link (aliasOf p (records.take (answerCount p))) k (name.map lower)).bind
            (addressOf p (records.take (answerCount p))) = some address ∧
          ∀ j, j < k → (link (aliasOf p (records.take (answerCount p))) j (name.map lower)).bind
            (addressOf p (records.take (answerCount p))) = none) ∧
    ((dnsDecodeReplyInto p name id before).1 = false →
      (dnsDecodeReplyInto p name id before).2 = before) ∧
    ((dnsDecodeReplyInto p name id before).1 = true →
      netGet16 p 0 = id ∧ ∃ records, ReplyTo p name id records) := by
  have hsuccess : ∀ address, dnsDecodeReplyInto p name id before = (true, address) ↔
      dnsDecodeReply p name id = some address := by
    intro address
    rw [dnsDecodeReplyInto]
    cases dnsDecodeReply p name id <;> simp
  refine ⟨fun records h address => ?_, ?_, ?_⟩
  · have hlength : (records.take (answerCount p)).length = answerCount p := by
      rw [List.length_take, h.count, recordCount, answerCount]
      omega
    have hrounds := @chase_answers_iff p (records.take (answerCount p)) (name.map lower) address
    rw [hlength, ← dnsDecodeReply_reply h] at hrounds
    rw [hsuccess, hrounds]
    exact exists_congr fun k => ⟨fun hfirst => ⟨hfirst.found, hfirst.before⟩,
      fun ⟨hhit, hbefore⟩ => ⟨hhit, hbefore⟩⟩
  · rw [dnsDecodeReplyInto]
    split
    · nofun
    · exact fun _ => rfl
  · rw [dnsDecodeReplyInto]
    split
    · rename_i found hfound
      intro _
      obtain ⟨records, h⟩ := replyTo_of_dnsDecodeReply hfound
      exact ⟨(replyHeader_bounds h.header).1, records, h⟩
    · nofun

/-- A reply to `a` with an alias to `b` and the address of `b`. -/
def aliasReply : List UInt8 :=
  [0, 7, 0x81, 0x80, 0, 1, 0, 2, 0, 0, 0, 0] ++ [1, 97, 0, 0, 1, 0, 1] ++
    [0xc0, 12, 0, 5, 0, 1, 0, 0, 0, 60, 0, 3, 1, 98, 0] ++
    [0xc0, 31, 0, 1, 0, 1, 0, 0, 0, 60, 0, 4, 1, 2, 3, 4]

theorem dns_answer_selection_alias :
    ∃ records, ReplyTo aliasReply [97] 7 records ∧
      ∃ k, (link (aliasOf aliasReply (records.take (answerCount aliasReply))) k
        ([97].map lower)).bind (addressOf aliasReply (records.take (answerCount aliasReply))) =
        some 0x01020304 := by
  have hreply : dnsDecodeReply aliasReply [97] 7 = some 0x01020304 := by decide +kernel
  obtain ⟨records, h⟩ := replyTo_of_dnsDecodeReply hreply
  obtain ⟨k, hk, -⟩ := ((dns_answer_selection_exact aliasReply [97] 7 0).1 records h 0x01020304).1
    (by rw [dnsDecodeReplyInto, hreply])
  exact ⟨records, h, k, hk⟩

end Utamo.Net
