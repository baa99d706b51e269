import Mathlib.Data.Finset.Card
import Mathlib.Data.Fintype.Basic
import Mathlib.Logic.Function.Iterate

/-!
# Following links to the first hit

`chase next hit` follows the links `next` from a start until `hit` has a value, for a number of
rounds. The first hit comes before a link is taken twice (`FirstHit.le_card`), so that one round
more than there are points with a link is enough, and a chain that runs in a circle has no hit.
-/

set_option autoImplicit false

namespace Utamo.Lib

universe u v

variable {α : Type u} {β : Type v}

/-- Follow the links for at most this many rounds. -/
def chase (next : α → Option α) (hit : α → Option β) : Nat → α → Option β
  | 0, _ => none
  | rounds + 1, a =>
    match hit a with
    | some b => some b
    | none =>
      match next a with
      | some a' => chase next hit rounds a'
      | none => none

/-- The point after a number of links, if there are so many. -/
def link (next : α → Option α) (k : Nat) (a : α) : Option α := (fun x => x.bind next)^[k] (some a)

/-- The first hit is after `k` links. -/
structure FirstHit (next : α → Option α) (hit : α → Option β) (a : α) (k : Nat) (b : β) : Prop where
  found : (link next k a).bind hit = some b
  before : ∀ j, j < k → (link next j a).bind hit = none

variable {next : α → Option α} {hit : α → Option β} {a : α} {b : β} {k : Nat}

theorem link_succ (k : Nat) (a : α) : link next (k + 1) a = (next a).bind (link next k) := by
  rw [link, Function.iterate_succ_apply, Option.bind_some]
  cases next a with
  | none =>
    rw [Option.bind_none]
    exact Function.iterate_fixed rfl k
  | some a' => rfl

theorem link_add (i j : Nat) (a : α) :
    link next (i + j) a = (fun x => x.bind next)^[i] (link next j a) :=
  Function.iterate_add_apply _ i j _

theorem firstHit_zero : FirstHit next hit a 0 b ↔ hit a = some b :=
  ⟨fun h => h.found, fun h => ⟨h, nofun⟩⟩

theorem firstHit_succ : FirstHit next hit a (k + 1) b ↔
    hit a = none ∧ ∃ a', next a = some a' ∧ FirstHit next hit a' k b := by
  constructor
  · intro h
    have hfound := h.found
    rw [link_succ] at hfound
    cases hnext : next a with
    | none =>
      rw [hnext] at hfound
      cases hfound
    | some a' =>
      rw [hnext] at hfound
      refine ⟨h.before 0 (Nat.succ_pos k), a', rfl, hfound, fun j hj => ?_⟩
      have hbefore := h.before (j + 1) (Nat.succ_lt_succ hj)
      rwa [link_succ, hnext] at hbefore
  · rintro ⟨hnone, a', hnext, h⟩
    refine ⟨by rw [link_succ, hnext]; exact h.found, fun j hj => ?_⟩
    cases j with
    | zero => exact hnone
    | succ j =>
      rw [link_succ, hnext]
      exact h.before j (Nat.lt_of_succ_lt_succ hj)

/-- What is found in a number of rounds. -/
theorem chase_eq_some_iff (rounds : Nat) : ∀ a : α,
    chase next hit rounds a = some b ↔ ∃ k, k < rounds ∧ FirstHit next hit a k b := by
  induction rounds with
  | zero => exact fun a => ⟨nofun, fun ⟨k, hk, _⟩ => absurd hk (Nat.not_lt_zero k)⟩
  | succ rounds ih =>
    intro a
    rw [chase]
    constructor
    · intro h
      cases hhit : hit a with
      | some b' =>
        rw [hhit] at h
        exact ⟨0, Nat.succ_pos rounds, firstHit_zero.2 (hhit.trans h)⟩
      | none =>
        rw [hhit] at h
        cases hnext : next a with
        | none =>
          rw [hnext] at h
          cases h
        | some a' =>
          rw [hnext] at h
          obtain ⟨k, hk, hfirst⟩ := (ih a').1 h
          exact ⟨k + 1, Nat.succ_lt_succ hk, firstHit_succ.2 ⟨hhit, a', hnext, hfirst⟩⟩
    · rintro ⟨k, hk, hfirst⟩
      cases k with
      | zero => rw [firstHit_zero.1 hfirst]
      | succ k =>
        obtain ⟨hnone, a', hnext, hfirst⟩ := firstHit_succ.1 hfirst
        rw [hnone, hnext]
        exact (ih a').2 ⟨k, Nat.lt_of_succ_lt_succ hk, hfirst⟩

/-- No point is met twice on the way to the first hit. -/
theorem FirstHit.link_ne (h : FirstHit next hit a k b) {i j : Nat} (hij : i < j) (hj : j ≤ k) :
    link next i a ≠ link next j a := by
  intro heq
  -- the rest of the way from the second visit is also the rest from the first one
  have hshort : link next (k - j + i) a = link next k a := by
    rw [link_add, heq, ← link_add, Nat.sub_add_cancel hj]
  have hbefore := h.before (k - j + i) (by omega)
  rw [hshort, h.found] at hbefore
  cases hbefore

/-- Before the first hit there is a point with a link after every number of links. -/
theorem FirstHit.link_eq_some (h : FirstHit next hit a k b) {j : Nat} (hj : j < k) :
    ∃ x, link next j a = some x ∧ (next x).isSome = true := by
  have hpast : (link next (j + 1) a).isSome = true := by
    by_contra hnone
    have hend : link next k a = none := by
      rw [← Nat.sub_add_cancel (Nat.succ_le_of_lt hj), link_add,
        Option.not_isSome_iff_eq_none.1 hnone]
      exact Function.iterate_fixed rfl _
    have hfound := h.found
    rw [hend] at hfound
    cases hfound
  rw [Nat.add_comm, link_add] at hpast
  cases hx : link next j a with
  | none =>
    rw [hx] at hpast
    cases hpast
  | some x =>
    rw [hx] at hpast
    exact ⟨x, rfl, hpast⟩

/-- There are no more links on the way than points with a link. -/
theorem FirstHit.le_card [DecidableEq α] (h : FirstHit next hit a k b) {s : Finset α}
    (hs : ∀ x, (next x).isSome = true → x ∈ s) : k ≤ s.card := by
  have hmaps : ∀ j ∈ Finset.range k, link next j a ∈ s.image some := by
    intro j hj
    obtain ⟨x, hx, hnext⟩ := h.link_eq_some (Finset.mem_range.1 hj)
    rw [hx]
    exact Finset.mem_image_of_mem some (hs x hnext)
  have hinj : Set.InjOn (fun j => link next j a) (Finset.range k) := by
    intro i hi j hj heq
    have hik := Finset.mem_range.1 hi
    have hjk := Finset.mem_range.1 hj
    rcases Nat.lt_trichotomy i j with hlt | heq' | hlt
    · exact absurd heq (h.link_ne hlt (Nat.le_of_lt hjk))
    · exact heq'
    · exact absurd heq.symm (h.link_ne hlt (Nat.le_of_lt hik))
  calc k = (Finset.range k).card := (Finset.card_range k).symm
    _ ≤ (s.image some).card := Finset.card_le_card_of_injOn _ hmaps hinj
    _ ≤ s.card := Finset.card_image_le

end Utamo.Lib
