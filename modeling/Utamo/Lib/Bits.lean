import Mathlib.Data.Nat.Bitwise
import Utamo.Lib.Word

/-!
# Bit fields

`Within a m` says that all bits of `a` are in the mask `m`. With a few closure rules the usual
manipulations of packed words (set a field, read it back, test that nothing else is set) reduce to
facts about the masks, which are literals and are decided.
-/

set_option autoImplicit false

namespace Utamo.Lib

/-- `~m` on `uint64_t` -/
def notU64 (m : Nat) : Nat := uint64Max ^^^ m

/-- All bits of `a` are in `m`. -/
def Within (a m : Nat) : Prop := a &&& m = a

variable {a b m n : Nat}

theorem Within.trans (h1 : Within a m) (h2 : Within m n) : Within a n := by
  rw [Within] at *
  rw [← h1, Nat.and_assoc, h2]

theorem Within.le (h : Within a m) : a ≤ m := by
  rw [Within] at h
  rw [← h]
  exact Nat.and_le_right

/-- Disjoint masks. -/
theorem Within.and_eq_zero (h : Within a m) (hmn : m &&& n = 0) : a &&& n = 0 := by
  rw [Within] at h
  rw [← h, Nat.and_assoc, hmn, Nat.and_zero]

/-- Read a field of a packed word back. -/
theorem or_and_left (ha : Within a m) (hb : b &&& m = 0) : (a ||| b) &&& m = a := by
  rw [Within] at ha
  rw [Nat.and_or_distrib_right, ha, hb, Nat.or_zero]

theorem or_and_right (ha : a &&& m = 0) (hb : Within b m) : (a ||| b) &&& m = b := by
  rw [Within] at hb
  rw [Nat.and_or_distrib_right, ha, hb, Nat.zero_or]

theorem or_and_eq_zero (ha : a &&& m = 0) (hb : b &&& m = 0) : (a ||| b) &&& m = 0 := by
  rw [Nat.and_or_distrib_right, ha, hb, Nat.zero_or]

theorem testBit_uint64Max (i : Nat) : uint64Max.testBit i = decide (i < 64) :=
  Nat.testBit_two_pow_sub_one 64 i

theorem testBit_notU64 (m i : Nat) : (notU64 m).testBit i = (decide (i < 64) ^^ m.testBit i) := by
  rw [notU64, Nat.testBit_xor, testBit_uint64Max]

/-- Clear one bit of a word. -/
theorem testBit_and_not_bit (w n : Nat) {k : Nat} (hk : k < 64) :
    (w &&& notU64 (2 ^ n)).testBit k = (w.testBit k && decide (k ≠ n)) := by
  rw [Nat.testBit_and, testBit_notU64, Nat.testBit_two_pow]
  by_cases h : n = k
  · simp [h, hk]
  · simp [h, hk, Ne.symm h]

/-- Set one bit of a word. -/
theorem testBit_or_bit (w n k : Nat) :
    (w ||| 2 ^ n).testBit k = (w.testBit k || decide (k = n)) := by
  rw [Nat.testBit_or, Nat.testBit_two_pow]
  by_cases h : n = k
  · simp [h]
  · simp [h, Ne.symm h]

/-- Two words have a common bit. -/
theorem and_ne_zero_iff : a &&& m ≠ 0 ↔ ∃ k, a.testBit k = true ∧ m.testBit k = true := by
  constructor
  · intro h
    by_contra hnone
    apply h
    apply Nat.eq_of_testBit_eq
    intro k
    rw [Nat.testBit_and, Nat.zero_testBit, Bool.and_eq_false_iff]
    by_contra hboth
    rw [not_or, Bool.not_eq_false, Bool.not_eq_false] at hboth
    exact hnone ⟨k, hboth.1, hboth.2⟩
  · rintro ⟨k, ha, hm⟩ hzero
    have hbit : (a &&& m).testBit k = true := by rw [Nat.testBit_and, ha, hm]; rfl
    rw [hzero, Nat.zero_testBit] at hbit
    cases hbit

theorem within_of_and_not (ha : a < 2 ^ 64) (h : a &&& notU64 m = 0) : Within a m := by
  apply Nat.eq_of_testBit_eq
  intro i
  have hi : (a &&& notU64 m).testBit i = false := by
    rw [h]
    exact Nat.zero_testBit i
  rw [Nat.testBit_and, notU64, Nat.testBit_xor, testBit_uint64Max] at hi
  rw [Nat.testBit_and]
  by_cases hlt : i < 64
  · rw [decide_eq_true hlt] at hi
    cases ha' : a.testBit i with
    | false => rfl
    | true =>
      rw [ha'] at hi
      simpa using hi
  · have : a.testBit i = false :=
      Nat.testBit_lt_two_pow (ha.trans_le (Nat.pow_le_pow_right (by decide) (by omega)))
    rw [this]
    rfl

theorem Within.and_not (h : Within a m) (hm : m < 2 ^ 64) : a &&& notU64 m = 0 := by
  apply h.and_eq_zero
  apply Nat.eq_of_testBit_eq
  intro i
  rw [Nat.testBit_and, notU64, Nat.testBit_xor, testBit_uint64Max, Nat.zero_testBit]
  by_cases hlt : i < 64
  · simp [hlt]
  · have : m.testBit i = false :=
      Nat.testBit_lt_two_pow (hm.trans_le (Nat.pow_le_pow_right (by decide) (by omega)))
    simp [hlt, this]

/-- Clear the low bits of a word. -/
theorem and_not_low {x k : Nat} (hx : x < 2 ^ 64) :
    x &&& notU64 (2 ^ k - 1) = x / 2 ^ k * 2 ^ k := by
  apply Nat.eq_of_testBit_eq
  intro i
  rw [Nat.testBit_and, notU64, Nat.testBit_xor, testBit_uint64Max, Nat.testBit_two_pow_sub_one,
    Nat.testBit_mul_two_pow, Nat.testBit_div_two_pow]
  by_cases hlow : i < k
  · by_cases hi : i < 64
    · simp [hlow, hi, Nat.not_le.2 hlow]
    · have hbit : x.testBit i = false :=
        Nat.testBit_lt_two_pow (hx.trans_le (Nat.pow_le_pow_right (by decide) (by omega)))
      simp [hbit, Nat.not_le.2 hlow]
  · have hsub : i - k + k = i := by omega
    by_cases hi : i < 64
    · simp [hlow, hi, Nat.not_lt.1 hlow, hsub]
    · have hbit : x.testBit i = false :=
        Nat.testBit_lt_two_pow (hx.trans_le (Nat.pow_le_pow_right (by decide) (by omega)))
      simp [hbit, hsub]

/-! ## Single bits -/

/-- `(w & (1 << i)) != 0` -/
def hasBit (w i : Nat) : Bool := w &&& 1 <<< i ≠ 0

theorem hasBit_eq_testBit (w i : Nat) : hasBit w i = w.testBit i := by
  rw [hasBit, Nat.one_shiftLeft, Nat.and_two_pow]
  cases w.testBit i <;> simp

end Utamo.Lib
