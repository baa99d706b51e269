import Mathlib.Data.List.GetD
import Utamo.Lib.ByteMemory

/-!
# Lists of bytes in a memory

`Stores m a bs` says that the bytes `bs` stand in `m` from the address `a` on. A list that is put
together from parts is stored exactly if its parts are, one behind the other.
-/

set_option autoImplicit false

namespace Utamo.Lib

open ByteMemory

/-- The bytes `bs` are in the memory from the address `a` on. -/
def Stores (m : ByteMemory) (a : Nat) (bs : List UInt8) : Prop :=
  ∀ i, ∀ h : i < bs.length, m (a + i) = bs[i]

variable {m : ByteMemory} {a : Nat} {bs xs ys : List UInt8}

theorem stores_iff_readBytes : Stores m a bs ↔ readBytes m a bs.length = bs := by
  constructor
  · intro h
    refine List.ext_getElem (length_readBytes _ _ _) fun i hi hi' => ?_
    rw [getElem_readBytes, h i hi']
  · intro h i hi
    have hlen : i < (readBytes m a bs.length).length := by
      rw [length_readBytes]
      exact hi
    rw [← getElem_readBytes hlen]
    simp only [h]

theorem Stores.readBytes (h : Stores m a bs) {n : Nat} (hn : n = bs.length) :
    readBytes m a n = bs := by
  rw [hn]
  exact stores_iff_readBytes.1 h

theorem stores_append :
    Stores m a (xs ++ ys) ↔ Stores m a xs ∧ Stores m (a + xs.length) ys := by
  constructor
  · intro h
    refine ⟨fun i hi => ?_, fun i hi => ?_⟩
    · rw [h i (by rw [List.length_append]; omega), List.getElem_append_left hi]
    · rw [Nat.add_assoc, h (xs.length + i) (by rw [List.length_append]; omega),
        List.getElem_append_right (Nat.le_add_right _ _)]
      simp only [Nat.add_sub_cancel_left]
  · rintro ⟨hx, hy⟩ i hi
    rw [List.length_append] at hi
    by_cases hcase : i < xs.length
    · rw [List.getElem_append_left hcase, hx i hcase]
    · rw [List.getElem_append_right (by omega), ← hy (i - xs.length) (by omega)]
      congr 1
      omega

/-- A list is stored in the memory that is made of it. -/
theorem stores_getD (bs : List UInt8) : Stores (fun i => bs.getD i 0) 0 bs := by
  intro i hi
  change bs.getD (0 + i) 0 = bs[i]
  rw [Nat.zero_add, List.getD_eq_getElem _ _ hi]

/-- Blocks of one length stand at multiples of it. -/
theorem Stores.flatMap {α : Type*} {f : α → List UInt8} {width : Nat} {items : List α}
    (hwidth : ∀ x ∈ items, (f x).length = width) (h : Stores m a (items.flatMap f)) {i : Nat}
    (hi : i < items.length) : Stores m (a + i * width) (f items[i]) := by
  induction items generalizing a i with
  | nil => cases hi
  | cons x items ih =>
    rw [List.flatMap_cons, stores_append] at h
    cases i with
    | zero =>
      rw [Nat.zero_mul]
      exact h.1
    | succ i =>
      rw [hwidth x List.mem_cons_self] at h
      rw [List.length_cons, Nat.succ_lt_succ_iff] at hi
      have hrest := ih (fun y hy => hwidth y (List.mem_cons_of_mem x hy)) h.2 hi
      rw [Nat.succ_mul, Nat.add_comm (i * width), ← Nat.add_assoc]
      exact hrest

end Utamo.Lib
