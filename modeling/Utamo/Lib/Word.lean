import Mathlib.Tactic

/-!
# Machine words

Unsigned 64-bit values are natural numbers below `2 ^ 64`. `addU64` and `subU64` wrap, as the
unsigned operators of C do; `addU64_of_lt` and `subU64_of_le` remove the wrap where a bound is
known. `alignDown` clears low bits by arithmetic. Two facts relate the bit operators the programs
use on aligned values to addition and remainders (`or_one_of_even`, `or_and_fifteen_eq_zero_iff`).
-/

set_option autoImplicit false

namespace Utamo.Lib

/-- The largest unsigned 64-bit value, also `SIZE_MAX` and `UINTPTR_MAX`. -/
def uint64Max : Nat := 2 ^ 64 - 1

/-- Addition of unsigned 64-bit values. -/
def addU64 (a b : Nat) : Nat := (a + b) % 2 ^ 64

/-- Subtraction of unsigned 64-bit values. -/
def subU64 (a b : Nat) : Nat := (a + (2 ^ 64 - b % 2 ^ 64)) % 2 ^ 64

/-- A counter that stays at its maximum. -/
def increment (counter : Nat) : Nat := if counter ≠ uint64Max then counter + 1 else counter

theorem addU64_of_lt {a b : Nat} (h : a + b < 2 ^ 64) : addU64 a b = a + b :=
  Nat.mod_eq_of_lt h

theorem subU64_of_le {a b : Nat} (h : b ≤ a) (ha : a < 2 ^ 64) : subU64 a b = a - b := by
  unfold subU64
  omega

/-- Clear the remainder of `a` modulo `n`; for a power of two this is `a & ~(n - 1)`. -/
def alignDown (a n : Nat) : Nat := a - a % n

theorem or_one_of_even {a : Nat} (h : a % 2 = 0) : a ||| 1 = a + 1 := by
  obtain ⟨k, rfl⟩ : ∃ k, a = 2 ^ 1 * k := ⟨a / 2, by omega⟩
  rw [Nat.two_pow_add_eq_or_of_lt (by norm_num) k]

theorem and_fifteen (a : Nat) : a &&& 15 = a % 16 :=
  Nat.and_two_pow_sub_one_eq_mod a 4

theorem or_and_fifteen_eq_zero_iff (a b : Nat) :
    (a ||| b) &&& 15 = 0 ↔ a &&& 15 = 0 ∧ b &&& 15 = 0 := by
  rw [Nat.and_or_distrib_right]
  exact Nat.or_eq_zero_iff

end Utamo.Lib
