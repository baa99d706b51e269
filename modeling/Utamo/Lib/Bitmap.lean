import Utamo.Lib.ByteMemory

/-!
# Bitmaps in a byte memory

Bit `i` of the bitmap at `base` is bit `i % 8` of the byte at `base + i / 8`. `set` writes one bit
and `setRange` a run of bits; both leave all other bits of the bitmap and all bytes outside it as
they were (`test_set_of_ne`, `test_setRange`, `setRange_of_outside`).
-/

set_option autoImplicit false

namespace Utamo.Lib.Bitmap

open Lib

variable {m m' : ByteMemory} {base base' i j first n : Nat} {v : Bool}

/-- The byte with the one bit `i % 8`. -/
def bitMask (i : Nat) : UInt8 := 1 <<< UInt8.ofNat (i % 8)

/-- Bit `i` of the bitmap at `base`. -/
def test (m : ByteMemory) (base i : Nat) : Bool := m (base + i / 8) &&& bitMask i ≠ 0

/-- Write bit `i` of the bitmap at `base`. -/
def set (m : ByteMemory) (base i : Nat) (v : Bool) : ByteMemory :=
  Function.update m (base + i / 8)
    (if v then m (base + i / 8) ||| bitMask i else m (base + i / 8) &&& ~~~bitMask i)

/-- Write the bits `first, …, first + n - 1`. -/
def setRange (m : ByteMemory) (base first n : Nat) (v : Bool) : ByteMemory :=
  (List.range' first n).foldl (fun m i => set m base i v) m

/-! ## Bits of a byte -/

theorem bitMask_ne_zero (i : Nat) : bitMask i ≠ 0 := by
  have h : ∀ k : Fin 8, (1 : UInt8) <<< UInt8.ofNat k ≠ 0 := by decide
  exact h ⟨i % 8, Nat.mod_lt _ (by decide)⟩

theorem bitMask_and (h : i % 8 ≠ j % 8) : bitMask i &&& bitMask j = 0 := by
  have hk : ∀ k l : Fin 8, k ≠ l →
      ((1 : UInt8) <<< UInt8.ofNat k) &&& ((1 : UInt8) <<< UInt8.ofNat l) = 0 := by decide
  exact hk ⟨i % 8, Nat.mod_lt _ (by decide)⟩ ⟨j % 8, Nat.mod_lt _ (by decide)⟩
    fun heq => h (congrArg Fin.val heq)

/-- A byte is the sum of its bits. -/
theorem byte_eq_of_bits {a b : UInt8}
    (h : ∀ k, k < 8 → (a &&& bitMask k ≠ 0 ↔ b &&& bitMask k ≠ 0)) : a = b := by
  have hall : ∀ x : Fin 256, UInt8.ofNat x = (List.range 8).foldl (fun sum k =>
      if UInt8.ofNat x &&& bitMask k ≠ 0 then sum ||| bitMask k else sum) 0 := by decide +kernel
  have hsum : ∀ x : UInt8, x = (List.range 8).foldl (fun sum k =>
      if x &&& bitMask k ≠ 0 then sum ||| bitMask k else sum) 0 := by
    intro x
    have hx := hall ⟨x.toNat, x.toNat_lt⟩
    rw [UInt8.ofNat_toNat] at hx
    exact hx
  have hfold : ∀ (ks : List Nat) (sum : UInt8), (∀ k ∈ ks, k < 8) →
      ks.foldl (fun sum k => if a &&& bitMask k ≠ 0 then sum ||| bitMask k else sum) sum =
        ks.foldl (fun sum k => if b &&& bitMask k ≠ 0 then sum ||| bitMask k else sum) sum := by
    intro ks
    induction ks with
    | nil => intro sum _; rfl
    | cons k ks ih =>
      intro sum hks
      rw [List.foldl_cons, List.foldl_cons, if_congr (h k (hks k List.mem_cons_self)) rfl rfl]
      exact ih _ fun l hl => hks l (List.mem_cons_of_mem _ hl)
  rw [hsum a, hsum b]
  exact hfold _ 0 fun k hk => List.mem_range.1 hk

/-! ## One bit -/

theorem test_set_self : test (set m base i v) base i = v := by
  rw [test, set, Function.update_self]
  cases v with
  | true =>
    have h : (m (base + i / 8) ||| bitMask i) &&& bitMask i = bitMask i := by
      apply UInt8.toBitVec_inj.1
      ext k hk
      simp
      exact Or.inr
    simp [h, bitMask_ne_zero]
  | false =>
    have h : (m (base + i / 8) &&& ~~~bitMask i) &&& bitMask i = 0 := by
      rw [UInt8.and_assoc, UInt8.not_and_self, UInt8.and_zero]
    simp [h]

theorem test_set_of_ne (h : i ≠ j) : test (set m base i v) base j = test m base j := by
  by_cases hbyte : i / 8 = j / 8
  · have hmask := bitMask_and (i := i) (j := j) (by omega)
    rw [test, test, set, hbyte, Function.update_self]
    cases v with
    | true =>
      have hor : (m (base + j / 8) ||| bitMask i) &&& bitMask j =
          m (base + j / 8) &&& bitMask j := by
        apply UInt8.toBitVec_inj.1
        ext k hk
        have hbit := congrArg (fun b => b.toBitVec.getLsbD k) hmask
        simp at hbit ⊢
        grind
      simp [hor]
    | false =>
      have hand : (m (base + j / 8) &&& ~~~bitMask i) &&& bitMask j =
          m (base + j / 8) &&& bitMask j := by
        apply UInt8.toBitVec_inj.1
        ext k hk
        have hbit := congrArg (fun b => b.toBitVec.getLsbD k) hmask
        simp at hbit ⊢
        grind
      simp [hand]
  · rw [test, test, set, Function.update_of_ne (by omega)]

theorem set_of_outside {x : Nat} (h : x ≠ base + i / 8) : set m base i v x = m x :=
  Function.update_of_ne h _ _

/-- A bit depends on its own byte only. -/
theorem test_congr (h : m' (base + i / 8) = m (base + i / 8)) : test m' base i = test m base i := by
  rw [test, test, h]

theorem test_of_zero (h : m (base + i / 8) = 0) : test m base i = false := by
  simp [test, h]

theorem test_of_ones (h : m (base + i / 8) = 0xff) : test m base i = true := by
  have hk : ∀ k : Fin 8, (0xff : UInt8) &&& (1 <<< UInt8.ofNat k) ≠ 0 := by decide
  rw [test, h, decide_eq_true_eq]
  exact hk ⟨i % 8, Nat.mod_lt _ (by decide)⟩

/-! ## Runs of bits -/

theorem setRange_succ : setRange m base first (n + 1) v =
    setRange (set m base first v) base (first + 1) n v := rfl

theorem test_setRange :
    test (setRange m base first n v) base j =
      if first ≤ j ∧ j < first + n then v else test m base j := by
  induction n generalizing m first with
  | zero =>
    rw [if_neg (by omega)]
    rfl
  | succ n ih =>
    rw [setRange_succ, ih]
    by_cases hj : first = j
    · subst hj
      rw [if_neg (by omega), if_pos (by omega), test_set_self]
    · rw [test_set_of_ne hj]
      by_cases hin : first + 1 ≤ j ∧ j < first + 1 + n
      · rw [if_pos hin, if_pos (by omega)]
      · rw [if_neg hin, if_neg (by omega)]

theorem setRange_of_outside {x : Nat}
    (h : ∀ i, first ≤ i → i < first + n → x ≠ base + i / 8) :
    setRange m base first n v x = m x := by
  induction n generalizing m first with
  | zero => rfl
  | succ n ih =>
    rw [setRange_succ, ih fun i h1 h2 => h i (by omega) (by omega),
      set_of_outside (h first (le_refl _) (by omega))]

/-- Clearing a run of bits that was set from zero restores every byte. -/
theorem setRange_undo (h : ∀ i, first ≤ i → i < first + n → test m base i = false) :
    setRange (setRange m base first n true) base first n false = m := by
  funext x
  by_cases hx : ∃ i, first ≤ i ∧ i < first + n ∧ x = base + i / 8
  · obtain ⟨i, -, -, rfl⟩ := hx
    apply byte_eq_of_bits
    intro k hk
    -- bit `k` of the byte is a bit of the bitmap
    have hbit : ∀ m' : ByteMemory, test m' base (8 * (i / 8) + k) = true ↔
        m' (base + i / 8) &&& bitMask k ≠ 0 := by
      intro m'
      have hdiv : (8 * (i / 8) + k) / 8 = i / 8 := by omega
      have hmask : bitMask (8 * (i / 8) + k) = bitMask k := by
        rw [bitMask, bitMask, show (8 * (i / 8) + k) % 8 = k % 8 by omega]
      rw [test, hdiv, hmask, decide_eq_true_iff]
    rw [← hbit, ← hbit, test_setRange, test_setRange]
    split
    · rename_i hin
      rw [h _ hin.1 hin.2]
    · rfl
  · have hout : ∀ i, first ≤ i → i < first + n → x ≠ base + i / 8 :=
      fun i h1 h2 heq => hx ⟨i, h1, h2, heq⟩
    rw [setRange_of_outside hout, setRange_of_outside hout]

end Utamo.Lib.Bitmap
