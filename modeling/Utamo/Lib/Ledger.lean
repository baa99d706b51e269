import Mathlib.Data.Finset.Card
import Mathlib.Data.Set.Insert
import Mathlib.Logic.Function.Basic
import Mathlib.Tactic.Common

/-!
# Ledgers

A ledger is an array of entries of which some are in use; it has holes, and a count of the entries
in use is kept next to it. An entry has keys (an address, a frame), and no two entries in use have
the same key. Taking a hole for a new entry adds its keys and one to the count; dropping an entry
removes its keys and takes one off the count.
-/

set_option autoImplicit false

namespace Utamo.Lib.Ledger

universe u v

variable {α : Type u} {κ : Type v}

/-- The slots in use. -/
def occupied (used : α → Bool) (limit : Nat) (entries : Nat → α) : Finset Nat :=
  (Finset.range limit).filter fun i => used (entries i) = true

/-- The keys of the entries in use. -/
def keys (used : α → Bool) (limit : Nat) (key : α → κ) (entries : Nat → α) : Set κ :=
  {k | ∃ i, i < limit ∧ used (entries i) = true ∧ key (entries i) = k}

/-- No two entries in use share a key. -/
def Distinct (used : α → Bool) (limit : Nat) (key : α → κ) (entries : Nat → α) : Prop :=
  ∀ i j, i < limit → j < limit → used (entries i) = true → used (entries j) = true →
    key (entries i) = key (entries j) → i = j

variable {used : α → Bool} {limit i : Nat} {key : α → κ} {entries : Nat → α} {e : α}

theorem mem_occupied : i ∈ occupied used limit entries ↔ i < limit ∧ used (entries i) = true := by
  rw [occupied, Finset.mem_filter, Finset.mem_range]

/-- Counting slot by slot. -/
theorem card_occupied_succ (used : α → Bool) (i : Nat) (entries : Nat → α) :
    (occupied used (i + 1) entries).card =
      (occupied used i entries).card + if used (entries i) = true then 1 else 0 := by
  rw [occupied, Finset.range_add_one, Finset.filter_insert]
  split
  · refine Finset.card_insert_of_notMem fun h => ?_
    rw [Finset.mem_filter, Finset.mem_range] at h
    exact absurd h.1 (Nat.lt_irrefl i)
  · rfl

theorem card_occupied_le (used : α → Bool) (limit : Nat) (entries : Nat → α) :
    (occupied used limit entries).card ≤ limit :=
  (Finset.card_filter_le _ _).trans_eq (Finset.card_range limit)

/-- Fewer entries in use. -/
theorem Distinct.of_used {used' : α → Bool} (hdist : Distinct used limit key entries)
    (h : ∀ e, used' e = true → used e = true) : Distinct used' limit key entries :=
  fun i j hi hj hui huj => hdist i j hi hj (h _ hui) (h _ huj)

/-- A list of the keys in use is as long as the number of slots in use. -/
theorem card_occupied_eq_length [DecidableEq κ] (hdist : Distinct used limit key entries)
    {l : List κ} (hnodup : l.Nodup) (hmem : ∀ k, k ∈ l ↔ k ∈ keys used limit key entries) :
    (occupied used limit entries).card = l.length := by
  have himage : (occupied used limit entries).image (fun i => key (entries i)) = l.toFinset := by
    ext k
    rw [Finset.mem_image, List.mem_toFinset, hmem]
    constructor
    · rintro ⟨i, hi, hk⟩
      obtain ⟨hlt, hused⟩ := mem_occupied.1 hi
      exact ⟨i, hlt, hused, hk⟩
    · rintro ⟨i, hlt, hused, hk⟩
      exact ⟨i, mem_occupied.2 ⟨hlt, hused⟩, hk⟩
  rw [← List.toFinset_card_of_nodup hnodup, ← himage]
  refine (Finset.card_image_of_injOn fun i hi j hj hk => ?_).symm
  obtain ⟨hi, hui⟩ := mem_occupied.1 hi
  obtain ⟨hj, huj⟩ := mem_occupied.1 hj
  exact hdist i j hi hj hui huj hk

/-! ## Taking a hole -/

section Take

variable (hi : i < limit) (hfree : used (entries i) = false) (he : used e = true)

include hi hfree he

theorem card_take : (occupied used limit (Function.update entries i e)).card =
    (occupied used limit entries).card + 1 := by
  have heq : occupied used limit (Function.update entries i e) =
      insert i (occupied used limit entries) := by
    ext j
    rw [Finset.mem_insert, mem_occupied, mem_occupied]
    by_cases hj : j = i
    · rw [hj, Function.update_self]
      exact ⟨fun _ => Or.inl rfl, fun _ => ⟨hi, he⟩⟩
    · rw [Function.update_of_ne hj]
      exact ⟨Or.inr, fun h => h.resolve_left hj⟩
  have hnot : i ∉ occupied used limit entries := by
    rw [mem_occupied, hfree]
    rintro ⟨-, ⟨⟩⟩
  rw [heq, Finset.card_insert_of_notMem hnot]

theorem keys_take : keys used limit key (Function.update entries i e) =
    insert (key e) (keys used limit key entries) := by
  ext k
  rw [Set.mem_insert_iff]
  constructor
  · rintro ⟨j, hj, hused, hkey⟩
    by_cases hji : j = i
    · rw [hji, Function.update_self] at hkey
      exact Or.inl hkey.symm
    · rw [Function.update_of_ne hji] at hused hkey
      exact Or.inr ⟨j, hj, hused, hkey⟩
  · rintro (rfl | ⟨j, hj, hused, hkey⟩)
    · refine ⟨i, hi, ?_⟩
      rw [Function.update_self]
      exact ⟨he, rfl⟩
    · have hji : j ≠ i := by
        rintro rfl
        rw [hfree] at hused
        cases hused
      refine ⟨j, hj, ?_⟩
      rw [Function.update_of_ne hji]
      exact ⟨hused, hkey⟩

omit hi hfree he in
theorem Distinct.take (hdist : Distinct used limit key entries)
    (hnew : key e ∉ keys used limit key entries) :
    Distinct used limit key (Function.update entries i e) := by
  intro j k hj hk huj huk hkey
  by_cases hji : j = i
  · by_cases hki : k = i
    · rw [hji, hki]
    · rw [hji, Function.update_self, Function.update_of_ne hki] at hkey
      rw [Function.update_of_ne hki] at huk
      exact absurd ⟨k, hk, huk, hkey.symm⟩ hnew
  · rw [Function.update_of_ne hji] at hkey huj
    by_cases hki : k = i
    · rw [hki, Function.update_self] at hkey
      exact absurd ⟨j, hj, huj, hkey⟩ hnew
    · rw [Function.update_of_ne hki] at hkey huk
      exact hdist j k hj hk huj huk hkey

end Take

/-! ## Dropping an entry -/

section Drop

variable (hi : i < limit) (hused : used (entries i) = true) (he : used e = false)

include hi hused he

theorem card_drop : (occupied used limit (Function.update entries i e)).card + 1 =
    (occupied used limit entries).card := by
  have heq : occupied used limit (Function.update entries i e) =
      (occupied used limit entries).erase i := by
    ext j
    rw [Finset.mem_erase, mem_occupied, mem_occupied]
    by_cases hj : j = i
    · rw [hj, Function.update_self, he]
      constructor
      · rintro ⟨-, ⟨⟩⟩
      · rintro ⟨h, -⟩
        exact absurd rfl h
    · rw [Function.update_of_ne hj]
      exact ⟨fun h => ⟨hj, h⟩, fun h => h.2⟩
  rw [heq]
  exact Finset.card_erase_add_one (mem_occupied.2 ⟨hi, hused⟩)

theorem keys_drop (hdist : Distinct used limit key entries) :
    keys used limit key (Function.update entries i e) =
      keys used limit key entries \ {key (entries i)} := by
  ext k
  rw [Set.mem_sdiff, Set.mem_singleton_iff]
  constructor
  · rintro ⟨j, hj, huj, hkey⟩
    by_cases hji : j = i
    · rw [hji, Function.update_self, he] at huj
      cases huj
    · rw [Function.update_of_ne hji] at huj hkey
      refine ⟨⟨j, hj, huj, hkey⟩, fun hk => hji ?_⟩
      exact hdist j i hj hi huj hused (hkey.trans hk)
  · rintro ⟨⟨j, hj, huj, hkey⟩, hne⟩
    have hji : j ≠ i := by
      rintro rfl
      exact hne hkey.symm
    refine ⟨j, hj, ?_⟩
    rw [Function.update_of_ne hji]
    exact ⟨huj, hkey⟩

omit hi hused in
theorem Distinct.drop (hdist : Distinct used limit key entries) :
    Distinct used limit key (Function.update entries i e) := by
  have hne : ∀ j, used (Function.update entries i e j) = true → j ≠ i := by
    rintro j huj rfl
    rw [Function.update_self, he] at huj
    cases huj
  intro j k hj hk huj huk hkey
  have hji := hne j huj
  have hki := hne k huk
  rw [Function.update_of_ne hji] at huj hkey
  rw [Function.update_of_ne hki] at huk hkey
  exact hdist j k hj hk huj huk hkey

end Drop

/-- Changing an entry that is not in use into another one that is not. -/
theorem keys_skip (hold : used (entries i) = false) (he : used e = false) :
    keys used limit key (Function.update entries i e) = keys used limit key entries := by
  ext k
  have hsame : ∀ j, used (Function.update entries i e j) = true ↔
      used (entries j) = true ∧ j ≠ i := by
    intro j
    by_cases hj : j = i
    · rw [hj, Function.update_self, he, hold]
      simp
    · rw [Function.update_of_ne hj]
      simp [hj]
  constructor
  · rintro ⟨j, hj, huj, hkey⟩
    obtain ⟨hu, hji⟩ := (hsame j).1 huj
    rw [Function.update_of_ne hji] at hkey
    exact ⟨j, hj, hu, hkey⟩
  · rintro ⟨j, hj, huj, hkey⟩
    have hji : j ≠ i := by
      rintro rfl
      rw [hold] at huj
      cases huj
    refine ⟨j, hj, (hsame j).2 ⟨huj, hji⟩, ?_⟩
    rw [Function.update_of_ne hji]
    exact hkey

/-! ## Changing an entry in place -/

section Keep

variable (hused : used e = used (entries i)) (hkey : key e = key (entries i))

include hused

theorem occupied_keep :
    occupied used limit (Function.update entries i e) = occupied used limit entries := by
  ext j
  rw [mem_occupied, mem_occupied]
  by_cases hj : j = i
  · rw [hj, Function.update_self, hused]
  · rw [Function.update_of_ne hj]

include hkey

theorem Distinct.keep (hdist : Distinct used limit key entries) :
    Distinct used limit key (Function.update entries i e) := by
  have hsame : ∀ j, used (Function.update entries i e j) = used (entries j) ∧
      key (Function.update entries i e j) = key (entries j) := by
    intro j
    by_cases hj : j = i
    · rw [hj, Function.update_self]
      exact ⟨hused, hkey⟩
    · rw [Function.update_of_ne hj]
      exact ⟨rfl, rfl⟩
  intro j k hj hk huj huk h
  rw [(hsame j).1] at huj
  rw [(hsame k).1] at huk
  rw [(hsame j).2, (hsame k).2] at h
  exact hdist j k hj hk huj huk h

end Keep

end Utamo.Lib.Ledger
