import Mathlib.Data.List.Range
import Mathlib.Tactic.Common

/-!
# Counting loops

`for (i = first; i < last; ++i)` over a state, the same loop with a body that may leave the
function, and the search loop that is left at the first index that passes a test.
`forRange_invariant` and `forRangeM_invariant` are the rules of the loop invariant.
-/

set_option autoImplicit false

namespace Utamo.Lib

universe u

variable {σ : Type u} {first last : Nat} {body : Nat → σ → σ} {s : σ} {test : Nat → Bool}

/-- `for (i = first; i < last; ++i) body` -/
def forRange (first last : Nat) (body : Nat → σ → σ) (s : σ) : σ :=
  (List.range' first (last - first)).foldl (fun s i => body i s) s

/-- `for (i = first; i < last; ++i) if (test) return true; return false;` -/
def anyRange (first last : Nat) (test : Nat → Bool) : Bool :=
  (List.range' first (last - first)).any test

/-- `for (i = first; i < last; ++i) body`, where the body may leave the function: `none`. -/
def forRangeM (first last : Nat) (body : Nat → σ → Option σ) (s : σ) : Option σ :=
  (List.range' first (last - first)).foldlM (fun s i => body i s) s

/-- `i = first; while (i < last && !test) ++i;` and the value of `i` then. -/
def firstIndex (first last : Nat) (test : Nat → Bool) : Nat :=
  ((List.range' first (last - first)).find? test).getD last

theorem forRange_of_le (h : last ≤ first) : forRange first last body s = s := by
  rw [forRange, Nat.sub_eq_zero_of_le h]
  rfl

theorem forRange_of_lt (h : first < last) :
    forRange first last body s = forRange (first + 1) last body (body first s) := by
  obtain ⟨n, rfl⟩ : ∃ n, last = first + 1 + n := ⟨last - (first + 1), by omega⟩
  rw [forRange, forRange, show first + 1 + n - first = n + 1 by omega,
    show first + 1 + n - (first + 1) = n by omega]
  rfl

theorem forRangeM_of_lt {body : Nat → σ → Option σ} (h : first < last) :
    forRangeM first last body s = (body first s).bind (forRangeM (first + 1) last body) := by
  obtain ⟨n, rfl⟩ : ∃ n, last = first + 1 + n := ⟨last - (first + 1), by omega⟩
  rw [forRangeM, show first + 1 + n - first = n + 1 by omega, List.range'_succ, List.foldlM_cons,
    Option.bind_eq_bind]
  refine congrArg (Option.bind _) (funext fun s => ?_)
  rw [forRangeM, Nat.add_sub_cancel_left]

/-- What holds before the first round, and what a round at index `i` carries on to `i + 1`, holds
after the last round. -/
theorem forRange_invariant {P : Nat → σ → Prop} (hle : first ≤ last) (hstart : P first s)
    (hstep : ∀ i t, first ≤ i → i < last → P i t → P (i + 1) (body i t)) :
    P last (forRange first last body s) := by
  obtain ⟨n, rfl⟩ : ∃ n, last = first + n := ⟨last - first, by omega⟩
  induction n generalizing first s with
  | zero =>
    rw [forRange_of_le (by omega)]
    exact hstart
  | succ n ih =>
    rw [forRange_of_lt (by omega)]
    have hnext := hstep first s (le_refl _) (by omega) hstart
    have hrest : P (first + 1 + n) (forRange (first + 1) (first + 1 + n) body (body first s)) := by
      apply ih hnext
      · omega
      · exact fun i t h1 h2 => hstep i t (by omega) (by omega)
    rw [show first + 1 + n = first + (n + 1) by omega] at hrest
    exact hrest

/-- The rule of the loop invariant for a body that does not leave. -/
theorem forRangeM_invariant {P : Nat → σ → Prop} {body : Nat → σ → Option σ} (hle : first ≤ last)
    (hstart : P first s)
    (hstep : ∀ i t, first ≤ i → i < last → P i t → ∃ t', body i t = some t' ∧ P (i + 1) t') :
    ∃ t, forRangeM first last body s = some t ∧ P last t := by
  obtain ⟨n, rfl⟩ : ∃ n, last = first + n := ⟨last - first, by omega⟩
  rw [forRangeM, Nat.add_sub_cancel_left]
  clear hle
  induction n generalizing first s with
  | zero => exact ⟨s, rfl, hstart⟩
  | succ n ih =>
    obtain ⟨t, ht, hP⟩ := hstep first s (le_refl _) (by omega) hstart
    rw [List.range'_succ, List.foldlM_cons, ht]
    rw [show first + (n + 1) = first + 1 + n by omega] at hstep ⊢
    exact ih hP fun i t h1 h2 => hstep i t (by omega) (by omega)

/-- The rule of the loop invariant for a loop that was not left. -/
theorem forRangeM_of_eq_some {P : Nat → σ → Prop} {body : Nat → σ → Option σ} {t : σ}
    (hle : first ≤ last) (hrun : forRangeM first last body s = some t) (hstart : P first s)
    (hstep : ∀ i t t', first ≤ i → i < last → P i t → body i t = some t' → P (i + 1) t') :
    P last t := by
  obtain ⟨n, rfl⟩ : ∃ n, last = first + n := ⟨last - first, by omega⟩
  rw [forRangeM, Nat.add_sub_cancel_left] at hrun
  clear hle
  induction n generalizing first s with
  | zero =>
    cases hrun
    exact hstart
  | succ n ih =>
    rw [List.range'_succ, List.foldlM_cons] at hrun
    obtain ⟨u, hu, hrest⟩ := Option.bind_eq_some_iff.1 hrun
    have hnext := hstep first s u (le_refl _) (by omega) hstart hu
    rw [show first + (n + 1) = first + 1 + n by omega] at hstep ⊢
    exact ih hnext hrest fun i t t' h1 h2 => hstep i t t' (by omega) (by omega)

/-- The search ends at an index that passes the test, or nothing passes it. -/
theorem firstIndex_cases (first last : Nat) (test : Nat → Bool) :
    (firstIndex first last test = last ∧ ∀ i, first ≤ i → i < last → test i = false) ∨
      ∃ i, firstIndex first last test = i ∧ first ≤ i ∧ i < last ∧ test i = true := by
  rw [firstIndex]
  cases hfind : (List.range' first (last - first)).find? test with
  | none =>
    left
    rw [List.find?_eq_none] at hfind
    refine ⟨rfl, fun i h1 h2 => ?_⟩
    exact Bool.eq_false_iff.2 (hfind i (List.mem_range'_1.2 ⟨h1, by omega⟩))
  | some i =>
    right
    have hmem := List.mem_range'_1.1 (List.mem_of_find?_eq_some hfind)
    exact ⟨i, rfl, hmem.1, by omega, List.find?_some hfind⟩

/-- The search passes no index that passes the test. -/
theorem firstIndex_before {i : Nat} (hfirst : first ≤ i) (h : i < firstIndex first last test) :
    test i = false := by
  obtain ⟨n, hn⟩ : ∃ n, n = last - first := ⟨_, rfl⟩
  rw [firstIndex, ← hn] at h
  induction n generalizing first with
  | zero =>
    rw [List.range'_zero, List.find?_nil, Option.getD_none] at h
    omega
  | succ n ih =>
    rw [List.range'_succ, List.find?_cons] at h
    cases htest : test first with
    | true =>
      rw [htest, Option.getD_some] at h
      omega
    | false =>
      rw [htest] at h
      by_cases hi : i = first
      · rw [hi]
        exact htest
      · exact ih (Nat.lt_of_le_of_ne hfirst (Ne.symm hi)) h (by omega)

/-- A test that only one index passes finds that index. -/
theorem firstIndex_unique {i : Nat} (hfirst : first ≤ i) (hlast : i < last) (htest : test i = true)
    (huniq : ∀ j, first ≤ j → j < last → test j = true → j = i) :
    firstIndex first last test = i := by
  rcases firstIndex_cases first last test with ⟨-, hnone⟩ | ⟨j, hj, h1, h2, h3⟩
  · rw [hnone i hfirst hlast] at htest
    cases htest
  · rw [hj, huniq j h1 h2 h3]

theorem anyRange_eq_false :
    anyRange first last test = false ↔ ∀ i, first ≤ i → i < last → test i = false := by
  rw [anyRange, List.any_eq_false]
  constructor
  · intro h i h1 h2
    exact Bool.eq_false_iff.2 (h i (List.mem_range'_1.2 ⟨h1, by omega⟩))
  · intro h i hi
    rw [List.mem_range'_1] at hi
    exact Bool.eq_false_iff.1 (h i hi.1 (by omega))

/-! ## Loops that change a function -/

section Pointwise

variable {ι κ α : Type u} {step : (ι → κ) → α → ι → κ} {items : List α} {x : ι}

/-- Rounds that miss a point leave the value there. -/
theorem foldl_of_miss (hmiss : ∀ a ∈ items, ∀ g, step g a x = g x) (g : ι → κ) :
    items.foldl step g x = g x := by
  induction items generalizing g with
  | nil => rfl
  | cons a items ih =>
    rw [List.foldl_cons, ih fun b hb => hmiss b (List.mem_cons_of_mem a hb)]
    exact hmiss a List.mem_cons_self g

/-- Rounds that all do the same to the value at a point, once and for all, or miss it: if one of
them does not miss it, that is what the loop does. -/
theorem foldl_of_hit (hit : α → Prop) (f : κ → κ) (hidem : ∀ v, f (f v) = f v)
    (hstep : ∀ a ∈ items, (hit a → ∀ g, step g a x = f (g x)) ∧ (¬ hit a → ∀ g, step g a x = g x))
    (hhit : ∃ a ∈ items, hit a) (g : ι → κ) : items.foldl step g x = f (g x) := by
  classical
  -- Whether or not the point was hit before, it has its new value from the first hit on.
  induction items generalizing g with
  | nil =>
    obtain ⟨a, ha, -⟩ := hhit
    cases ha
  | cons a items ih =>
    obtain ⟨hyes, hno⟩ := hstep a List.mem_cons_self
    have hrest := fun b hb => hstep b (List.mem_cons_of_mem a hb)
    rw [List.foldl_cons]
    by_cases hlater : ∃ b ∈ items, hit b
    · rw [ih hrest hlater]
      by_cases ha : hit a
      · rw [hyes ha, hidem]
      · rw [hno ha]
    · have hmiss : ∀ b ∈ items, ∀ g, step g b x = g x := by
        intro b hb
        exact (hrest b hb).2 fun h => hlater ⟨b, hb, h⟩
      obtain ⟨b, hb, hbhit⟩ := hhit
      rcases List.mem_cons.1 hb with rfl | hb
      · rw [foldl_of_miss hmiss, hyes hbhit]
      · exact absurd ⟨b, hb, hbhit⟩ hlater

end Pointwise

end Utamo.Lib
