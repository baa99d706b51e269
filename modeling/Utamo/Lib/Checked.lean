import Mathlib.Data.List.GetD
import Utamo.Lib.ByteMemory
import Utamo.Lib.Loop
import Utamo.Lib.Word

/-!
# Checked computations

A computation over machine words and a block of bytes, with operators that have no value where the
machine's operators wrap or where a read leaves the block. A checked version of a function that
always has the value of the function shows that none of this happens in it.

The operators are lazy as in C: the right operand of `<||>` is evaluated only if the left one is
false, so that a subtraction may rely on the comparisons before it (`orM_eq_some`).
-/

set_option autoImplicit false

namespace Utamo.Lib

universe u

/-- A computation that has a value hands it on. -/
theorem some_bind {α β : Type u} (a : α) (f : α → Option β) : (some a >>= f) = f a := rfl

/-! ## Arithmetic -/

/-- A sum that the machine does not wrap. -/
def addExact (a b : Nat) : Option Nat := if a + b ≤ uint64Max then some (a + b) else none

/-- A difference that the machine does not wrap. -/
def subExact (a b : Nat) : Option Nat := if b ≤ a then some (a - b) else none

/-- A product that the machine does not wrap. -/
def mulExact (a b : Nat) : Option Nat := if a * b ≤ uint64Max then some (a * b) else none

/-- A shift that loses no bit and is by less than the width of a word. -/
def shlExact (a k : Nat) : Option Nat :=
  if k < 64 ∧ a <<< k ≤ uint64Max then some (a <<< k) else none

theorem addExact_of_le {a b : Nat} (h : a + b ≤ uint64Max) : addExact a b = some (a + b) := if_pos h

theorem subExact_of_le {a b : Nat} (h : b ≤ a) : subExact a b = some (a - b) := if_pos h

theorem mulExact_of_le {a b : Nat} (h : a * b ≤ uint64Max) : mulExact a b = some (a * b) := if_pos h

theorem shlExact_of_le {a k : Nat} (hk : k < 64) (h : a <<< k ≤ uint64Max) :
    shlExact a k = some (a <<< k) := if_pos ⟨hk, h⟩

/-! ## Reads -/

section Reads

variable {m : ByteMemory} {size a n i : Nat}

/-- A byte of a block of `size` bytes. -/
def fetch (m : ByteMemory) (size i : Nat) : Option UInt8 := if i < size then some (m i) else none

/-- `n` bytes of a block. -/
def fetchBytes (m : ByteMemory) (size a n : Nat) : Option (List UInt8) :=
  (List.range n).mapM fun i => fetch m size (a + i)

theorem fetch_of_lt (h : i < size) : fetch m size i = some (m i) := if_pos h

theorem mapM_eq_some {α β : Type u} {f : α → Option β} {g : α → β} {items : List α}
    (h : ∀ x ∈ items, f x = some (g x)) : items.mapM f = some (items.map g) := by
  induction items with
  | nil => rfl
  | cons x items ih =>
    rw [List.mapM_cons, h x List.mem_cons_self, ih fun y hy => h y (List.mem_cons_of_mem x hy)]
    rfl

/-- The results of a list of computations that all have one. -/
theorem mapM_forall₂ {α β : Type u} {f : α → Option β} {items : List α} {results : List β}
    (h : items.mapM f = some results) : List.Forall₂ (fun x y => f x = some y) items results := by
  induction items generalizing results with
  | nil =>
    cases h
    exact .nil
  | cons x items ih =>
    rw [List.mapM_cons] at h
    simp only [Option.bind_eq_bind, Option.bind_eq_some_iff, Option.pure_def,
      Option.some.injEq] at h
    obtain ⟨y, hy, rest, hrest, rfl⟩ := h
    exact .cons hy (ih hrest)

theorem mapM_range_getD {β : Type} {f : Nat → Option β} {results : List β} {n i : Nat} (d : β)
    (h : (List.range n).mapM f = some results) (hi : i < n) : f i = some (results.getD i d) := by
  obtain ⟨hlength, hall⟩ := List.forall₂_iff_get.1 (mapM_forall₂ h)
  rw [List.length_range] at hlength
  have hround := hall i (by rw [List.length_range]; exact hi) (by omega)
  rw [List.get_eq_getElem, List.get_eq_getElem, List.getElem_range] at hround
  rw [List.getD_eq_getElem _ _ (by omega)]
  exact hround

theorem fetchBytes_of_le (h : a + n ≤ size) :
    fetchBytes m size a n = some (ByteMemory.readBytes m a n) := by
  apply mapM_eq_some
  intro i hi
  rw [List.mem_range] at hi
  exact fetch_of_lt (by omega)

end Reads

/-! ## Conditions -/

section Conditions

variable {x y : Option Bool} {a b : Bool}

/-- `x || y`, where `y` may rely on `x` being false. -/
theorem orM_eq_some (hx : x = some a) (hy : a = false → y = some b) :
    (x <||> y) = some (a || b) := by
  rw [hx]
  cases a with
  | true => rfl
  | false =>
    rw [hy rfl]
    rfl

/-- `x && y`, where `y` may rely on `x` being true. -/
theorem andM_eq_some (hx : x = some a) (hy : a = true → y = some b) :
    (x <&&> y) = some (a && b) := by
  rw [hx]
  cases a with
  | true =>
    rw [hy rfl]
    rfl
  | false => rfl

end Conditions

/-! ## Loops -/

section Loops

variable {σ : Type u} {first last : Nat}

/-- `for (i = first; i < last; ++i) if (test) return true; return false;`, with a checked test. -/
def anyRangeExact (first last : Nat) (test : Nat → Option Bool) : Option Bool :=
  (List.range' first (last - first)).anyM test

/-- The loop with a checked body, which may leave the function: the inner `none`. -/
def forRangeExact (first last : Nat) (body : Nat → σ → Option (Option σ)) (s : σ) :
    Option (Option σ) :=
  (List.range' first (last - first)).foldlM
    (fun s i => match s with
      | none => some none
      | some s => body i s)
    (some s)

/-- One checked computation after the other; each of them may leave the function: the
inner `none`. -/
def mapMExact {α β : Type u} (f : α → Option (Option β)) : List α → Option (Option (List β))
  | [] => some (some [])
  | x :: items => do
      match ← f x with
      | none => return none
      | some y =>
        match ← mapMExact f items with
        | none => return none
        | some rest => return some (y :: rest)

theorem mapMExact_eq_some {α β : Type u} {f : α → Option (Option β)} {g : α → Option β}
    {items : List α} (h : ∀ x ∈ items, f x = some (g x)) :
    mapMExact f items = some (items.mapM g) := by
  induction items with
  | nil => rfl
  | cons x items ih =>
    rw [mapMExact, h x List.mem_cons_self, ih fun y hy => h y (List.mem_cons_of_mem x hy),
      List.mapM_cons]
    cases g x with
    | none => rfl
    | some y =>
      cases items.mapM g with
      | none => rfl
      | some rest => rfl

theorem anyRangeExact_eq_some {test : Nat → Option Bool} {test' : Nat → Bool}
    (h : ∀ i, first ≤ i → i < last → test i = some (test' i)) :
    anyRangeExact first last test = some (anyRange first last test') := by
  rw [anyRangeExact, anyRange]
  have hall : ∀ i ∈ List.range' first (last - first), test i = some (test' i) := by
    intro i hi
    rw [List.mem_range'_1] at hi
    exact h i hi.1 (by omega)
  generalize List.range' first (last - first) = items at hall
  induction items with
  | nil => rfl
  | cons i items ih =>
    rw [List.anyM, hall i List.mem_cons_self, List.any_cons]
    cases test' i with
    | true => rfl
    | false => exact ih fun j hj => hall j (List.mem_cons_of_mem i hj)

/-- A checked loop whose rounds have a value where an invariant holds has the value of the loop. -/
theorem forRangeExact_eq_some {body : Nat → σ → Option (Option σ)} {body' : Nat → σ → Option σ}
    {s : σ} {P : Nat → σ → Prop} (hstart : P first s)
    (hstep : ∀ i t, first ≤ i → i < last → P i t →
      body i t = some (body' i t) ∧ ∀ t', body' i t = some t' → P (i + 1) t') :
    forRangeExact first last body s = some (forRangeM first last body' s) := by
  have hleft : ∀ items : List Nat, items.foldlM (fun (s : Option σ) i => match s with
      | none => some none
      | some s => body i s) none = some none := by
    intro items
    induction items with
    | nil => rfl
    | cons i items ih =>
      rw [List.foldlM_cons]
      exact ih
  rw [forRangeExact, forRangeM]
  obtain ⟨n, hn⟩ : ∃ n, n = last - first := ⟨_, rfl⟩
  rw [← hn]
  -- The induction is on the rounds that are left; the invariant moves on with the index.
  induction n generalizing first s with
  | zero => rfl
  | succ n ih =>
    obtain ⟨hbody, hnext⟩ := hstep first s (le_refl _) (by omega) hstart
    rw [List.range'_succ, List.foldlM_cons, List.foldlM_cons]
    simp only [hbody, Option.bind_eq_bind, Option.bind_some]
    cases hround : body' first s with
    | none =>
      rw [Option.bind_none]
      exact hleft _
    | some t =>
      rw [Option.bind_some]
      exact ih (hnext t hround) (fun i t h1 h2 => hstep i t (by omega) h2) (by omega)

end Loops

end Utamo.Lib
