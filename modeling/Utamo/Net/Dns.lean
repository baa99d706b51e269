import Utamo.Net.Packet

/-!
# DNS messages

`kernel/net/dns.c`: the names that a query may carry, the query itself, names on the wire with their
compression pointers, and the choice of an address from a reply. A C string is the list of its bytes
before the terminator; an output buffer is part of the result.
-/

set_option autoImplicit false

namespace Utamo.Net

/-- `UTAMO_DNS_NAME_MAX` -/
def dnsNameMax : Nat := 254

/-- `UTAMO_DNS_MESSAGE_MAX` -/
def dnsMessageMax : Nat := 512

/-- `'.'` -/
def dot : UInt8 := 46

/-- `character`: letters, digits, `-` and `_`. -/
def character (c : UInt8) : Bool :=
  (97 ≤ c.toNat ∧ c.toNat ≤ 122) ∨ (65 ≤ c.toNat ∧ c.toNat ≤ 90) ∨ (48 ≤ c.toNat ∧ c.toNat ≤ 57) ∨
    c = 45 ∨ c = 95

/-- `lower` -/
def lower (c : UInt8) : UInt8 := if 65 ≤ c.toNat ∧ c.toNat ≤ 90 then c + 32 else c

/-! ## Names -/

/-- The loop of `dns_name_valid` at character `i`, with `label` characters in the label so far. -/
def nameValidLoop (i label : Nat) : List UInt8 → Bool
  | [] => i < dnsNameMax ∧ i ≠ 0 ∧ label ≠ 0
  | c :: rest =>
    if dnsNameMax ≤ i then false
    else if c = dot then
      if label = 0 then false else nameValidLoop (i + 1) 0 rest
    else if ¬ character c ∨ 63 < label + 1 then false
    else nameValidLoop (i + 1) (label + 1) rest

/-- `dns_name_valid` -/
def dnsNameValid (name : List UInt8) : Bool := nameValidLoop 0 0 name

/-- The loop of `dns_decode_name`, with the hops that are left. The characters of a label are
checked and copied by an inner loop in the source. -/
def decodeNameLoop (p : List UInt8) :
    (hops position : Nat) → (result : List UInt8) → (encoded : Nat) → (jumped : Bool) →
    Option (List UInt8 × Nat)
  | 0, _, _, _, _ => none
  | hops + 1, position, result, encoded, jumped =>
    if p.length ≤ position then none
    else
      let length := byteAt p position
      if length &&& 0xc0 = 0xc0 then
        if p.length ≤ position + 1 then none
        else
          let target := (length &&& 63).toNat <<< 8 ||| (byteAt p (position + 1)).toNat
          -- a pointer refers to an earlier name, and not into the header
          if target < 12 ∨ position ≤ target then none
          else decodeNameLoop p hops target result (if jumped then encoded else encoded + 2) true
      else if length &&& 0xc0 ≠ 0 then none
      else
        let encoded := if jumped then encoded else encoded + 1
        if length = 0 then some (result, encoded)
        else
          let separator := if result.length ≠ 0 then [dot] else []
          if p.length - (position + 1) < length.toNat ∨
              dnsNameMax ≤ result.length + separator.length + length.toNat then
            none
          else
            let label := (p.drop (position + 1)).take length.toNat
            if label.all character then
              decodeNameLoop p hops (position + 1 + length.toNat) (result ++ separator ++
                label.map lower) (if jumped then encoded else encoded + length.toNat) jumped
            else none

/-- `dns_decode_name`: the name and the bytes that it takes at the offset. -/
def dnsDecodeName (p : List UInt8) (offset : Nat) : Option (List UInt8 × Nat) :=
  if dnsMessageMax < p.length ∨ p.length ≤ offset then none
  else decodeNameLoop p 128 offset [] 0 false

/-! ## Queries -/

/-- The loop of `dns_build_query`: `out` has been stored, `label` holds the characters
since `begin`. -/
def queryLoop (out label : List UInt8) : List UInt8 → List UInt8
  | [] => out ++ label.length.toUInt8 :: label.map lower
  | c :: rest =>
    if c = dot then queryLoop (out ++ label.length.toUInt8 :: label.map lower) [] rest
    else queryLoop out (label ++ [c]) rest

/-- The header that `dns_build_query` stores. -/
def queryHeader (id : Nat) : List UInt8 :=
  netPut16 id ++ netPut16 0x100 ++ netPut16 1 ++ [0, 0, 0, 0, 0, 0]

/-- `dns_build_query` -/
def dnsBuildQuery (capacity : Nat) (name : List UInt8) (id : Nat) : Option (List UInt8) :=
  if ¬ dnsNameValid name then none
  else if capacity < name.length + 18 ∨ dnsMessageMax < name.length + 18 then none
  else some (queryLoop (queryHeader id) [] name ++ [0] ++ netPut16 1 ++ netPut16 1)

/-! ## Replies -/

/-- `struct dns_record` -/
structure DnsRecord where
  owner : List UInt8
  target : List UInt8
  type : Nat
  address : Nat

/-- A record after `memset`. -/
def DnsRecord.zero : DnsRecord := ⟨[], [], 0, 0⟩

/-- An answer of class IN as it is kept; `length` bytes of data start at the offset. -/
def decodeAnswer (p owner : List UInt8) (type length offset : Nat) : Option DnsRecord :=
  if type = 1 then
    if length ≠ 4 then none
    else some { DnsRecord.zero with owner, type, address := netGet32 p offset }
  else if type = 5 then
    match dnsDecodeName p offset with
    | none => none
    | some (target, used) =>
      if used ≠ length ∨ target = [] then none else some { DnsRecord.zero with owner, type, target }
  else some { DnsRecord.zero with owner, type }

/-- The loop over the records: `rounds` are left, and record `i` starts at the offset. The result is
the offset behind the last one and the answers. -/
def recordLoop (p : List UInt8) (answers : Nat) :
    (rounds i offset : Nat) → List DnsRecord → Option (Nat × List DnsRecord)
  | 0, _, offset, answer => some (offset, answer)
  | rounds + 1, i, offset, answer =>
    match dnsDecodeName p offset with
    | none => none
    | some (decoded, used) =>
      if p.length - offset < used ∨ p.length - (offset + used) < 10 then none
      else
        let type := netGet16 p (offset + used)
        let class' := netGet16 p (offset + used + 2)
        let length := netGet16 p (offset + used + 8)
        let data := offset + used + 10
        if p.length - data < length then none
        else if i < answers ∧ class' = 1 then
          match decodeAnswer p decoded type length data with
          | none => none
          | some record => recordLoop p answers rounds (i + 1) (data + length) (answer.set i record)
        else recordLoop p answers rounds (i + 1) (data + length) answer

/-- The last loop of `dns_decode_reply`: an address of the expected name, or the first
alias of it. -/
def selectAddress (answer : List DnsRecord) : (hops : Nat) → (expected : List UInt8) → Option Nat
  | 0, _ => none
  | hops + 1, expected =>
    match answer.find? (fun record => record.type = 1 ∧ record.owner = expected) with
    | some record => some record.address
    | none =>
      match answer.find? (fun record => record.type = 5 ∧ record.owner = expected) with
      | some record => selectAddress answer hops record.target
      | none => none

/-- The checks of the header in `dns_decode_reply`. -/
def replyHeaderValid (p : List UInt8) (id : Nat) : Bool :=
  let flags := netGet16 p 2
  let answers := netGet16 p 6
  let records := answers + netGet16 p 8 + netGet16 p 10
  netGet16 p 0 = id ∧ flags &&& 0x8000 ≠ 0 ∧ flags &&& 0x7a4f = 0 ∧ netGet16 p 4 = 1 ∧ answers ≠ 0 ∧
    answers ≤ 16 ∧ records ≤ 32

/-- `dns_decode_reply` -/
def dnsDecodeReply (p name : List UInt8) (id : Nat) : Option Nat :=
  if p.length < 12 ∨ dnsMessageMax < p.length ∨ ¬ dnsNameValid name then none
  else if ¬ replyHeaderValid p id then none
  else
    let answers := netGet16 p 6
    let records := answers + netGet16 p 8 + netGet16 p 10
    let expected := name.map lower
    match dnsDecodeName p 12 with
    | none => none
    | some (decoded, used) =>
      if decoded ≠ expected ∨ p.length - 12 < used ∨ p.length - 12 - used < 4 ∨
          netGet16 p (12 + used) ≠ 1 ∨ netGet16 p (14 + used) ≠ 1 then
        none
      else
        match recordLoop p answers records 0 (16 + used) (List.replicate 16 DnsRecord.zero) with
        | none => none
        | some (offset, answer) =>
          if offset ≠ p.length then none
            else selectAddress (answer.take answers) (answers + 1) expected

end Utamo.Net
