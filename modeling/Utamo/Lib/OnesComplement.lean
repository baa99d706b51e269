import Mathlib.Algebra.Ring.Nat

/-!
# Sums with end-around carry

Sixteen-bit one's complement addition, on natural numbers: `endAround n` is what is left of a sum
`n` when the carries are added at the bottom, at whatever point that is done. It is the
representative of `n` modulo 65535 from 1 to 65535, and 0 for 0. `wordSum` is the sum of the
big-endian words of a list of bytes. `onesAdd` adds two words as the arithmetic does, and
`RunningSum` adds a list of words and takes its carries in at any point.
-/

set_option autoImplicit false

namespace Utamo.Lib

/-- A sum with its carries added at the bottom. -/
def endAround (n : Nat) : Nat := if n = 0 then 0 else (n - 1) % 65535 + 1

section EndAround

variable {n : Nat}

theorem endAround_le (n : Nat) : endAround n ≤ 65535 := by
  rw [endAround]
  split <;> omega

theorem endAround_of_le (h : n ≤ 65535) : endAround n = n := by
  rw [endAround]
  split <;> omega

/-- The carries of a part may be added first. -/
theorem endAround_add (a b : Nat) : endAround (endAround a + b) = endAround (a + b) := by
  simp only [endAround]
  split <;> split <;> split <;> omega

/-- Adding the upper half at the bottom changes nothing. -/
theorem endAround_carry (n : Nat) : endAround (n % 65536 + n / 65536) = endAround n := by
  simp only [endAround]
  split <;> split <;> omega

/-- A sum and its complement. -/
theorem endAround_complement (n : Nat) : endAround (n + (65535 - endAround n)) = 65535 := by
  simp only [endAround]
  split <;> split <;> omega

/-- A sum that is a zero of the arithmetic, and not 0 itself, is a multiple of 65535. -/
theorem mod_of_endAround (h : endAround n = 65535) : n % 65535 = 0 := by
  rw [endAround] at h
  split at h <;> omega

/-- 65535 is another zero for a sum that is not zero. -/
theorem endAround_add_max (h : endAround n = 65535) : endAround (n + 65535) = 65535 := by
  simp only [endAround] at h ⊢
  split at h <;> split <;> omega

end EndAround

/-- The sum of the words of a list of bytes; a last single byte is the upper half of a word. -/
def wordSum : List UInt8 → Nat
  | a :: b :: rest => a.toNat * 256 + b.toNat + wordSum rest
  | [a] => a.toNat * 256
  | [] => 0

theorem wordSum_append (ys : List UInt8) {xs : List UInt8} (h : xs.length % 2 = 0) :
    wordSum (xs ++ ys) = wordSum xs + wordSum ys := by
  induction xs using wordSum.induct with
  | case1 a b rest ih =>
    rw [List.length_cons, List.length_cons] at h
    rw [List.cons_append, List.cons_append, wordSum, wordSum, ih (by omega)]
    omega
  | case2 a => cases h
  | case3 => rw [List.nil_append, wordSum, Nat.zero_add]

/-! ## One word after the other -/

/-- One's complement addition of two words: a carry comes back at the bottom. -/
def onesAdd (a b : Nat) : Nat := if a + b ≤ 65535 then a + b else a + b - 65535

/-- The big-endian words of a list of bytes; a last single byte gets a zero behind it. -/
def bigEndianWords : List UInt8 → List Nat
  | a :: b :: rest => (a.toNat * 256 + b.toNat) :: bigEndianWords rest
  | [a] => [a.toNat * 256]
  | [] => []

/-- A running sum of words. Between two additions the upper half may be added at the bottom, or left
where it is. -/
inductive RunningSum : Nat → List Nat → Nat → Prop
  | done (sum : Nat) : RunningSum sum [] sum
  | add {sum w result : Nat} {ws : List Nat} :
      RunningSum (sum + w) ws result → RunningSum sum (w :: ws) result
  | fold {sum result : Nat} {ws : List Nat} :
      RunningSum (sum % 65536 + sum / 65536) ws result → RunningSum sum ws result

section Words

variable {sum result : Nat} {ws : List Nat}

theorem bigEndianWords_le (p : List UInt8) : ∀ w ∈ bigEndianWords p, w ≤ 65535 := by
  induction p using bigEndianWords.induct with
  | case1 a b rest ih =>
    have ha := a.toNat_lt
    have hb := b.toNat_lt
    refine List.forall_mem_cons.2 ⟨?_, ih⟩
    omega
  | case2 a =>
    have ha := a.toNat_lt
    intro w hw
    rw [List.mem_singleton.1 hw]
    omega
  | case3 => nofun

theorem sum_bigEndianWords (p : List UInt8) : (bigEndianWords p).sum = wordSum p := by
  induction p using bigEndianWords.induct with
  | case1 a b rest ih => rw [bigEndianWords, List.sum_cons, ih, wordSum]
  | case2 a => rw [bigEndianWords, List.sum_singleton, wordSum]
  | case3 => rfl

theorem foldl_onesAdd (hsum : sum ≤ 65535) (hws : ∀ w ∈ ws, w ≤ 65535) :
    ws.foldl onesAdd sum = endAround (sum + ws.sum) := by
  induction ws generalizing sum with
  | nil => exact (endAround_of_le hsum).symm
  | cons w ws ih =>
    have hw := hws w List.mem_cons_self
    have hadd : onesAdd sum w = endAround (sum + w) := by
      rw [onesAdd, endAround]
      split <;> split <;> omega
    rw [List.foldl_cons, hadd, ih (endAround_le _) fun x hx => hws x (List.mem_cons_of_mem w hx),
      endAround_add, List.sum_cons, Nat.add_assoc]

/-- It does not matter when the carries are taken in. -/
theorem RunningSum.endAround_eq (h : RunningSum sum ws result) :
    endAround result = endAround (sum + ws.sum) := by
  induction h with
  | done sum => rw [List.sum_nil, Nat.add_zero]
  | add _ ih => rw [ih, List.sum_cons, Nat.add_assoc]
  | fold _ ih => rw [ih, ← endAround_add, endAround_carry, endAround_add]

end Words

end Utamo.Lib
