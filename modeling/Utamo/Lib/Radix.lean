import Mathlib.Data.List.Infix
import Mathlib.Logic.Function.Basic

/-!
# Radix trees in a store of tables

A store assigns an entry to each slot of each table; `next` reads an entry as a reference to a
further table, or as none. `descend` follows a path of slots from a root. The tables of a tree are
those that `descend` reaches along the paths of a domain `D`; the tree is well formed when no table
is reached twice (`Separate`).

Two changes keep a tree well formed: writing a slot that refers to no table before and after
(`setSlot`), and hanging a fresh, cleared table into an empty slot (`graft`). Both are local: no
other path leads elsewhere than before. Facts about all slots of a tree are kept under both
(`Slots.setSlot`, `Slots.graft`).
-/

set_option autoImplicit false

namespace Utamo.Lib.Radix

universe u v w

variable {F : Type u} {ι : Type v} {ε : Type w} {next : ε → Option F} {E E' : F → ι → ε} {r f g : F}
  {p q : List ι} {i : ι} {e z : ε} {D : List ι → Prop}

/-- The table at the end of a path. -/
def descend (next : ε → Option F) (E : F → ι → ε) (f : F) : List ι → Option F
  | [] => some f
  | i :: p => (next (E f i)).bind fun g => descend next E g p

theorem descend_cons : descend next E f (i :: p) = (next (E f i)).bind fun g =>
    descend next E g p :=
  rfl

theorem descend_append :
    descend next E f (p ++ q) = (descend next E f p).bind fun g => descend next E g q := by
  induction p generalizing f with
  | nil => rfl
  | cons i p ih =>
    rw [List.cons_append, descend_cons, descend_cons, Option.bind_assoc]
    congr
    funext g
    exact ih

theorem descend_snoc :
    descend next E f (p ++ [i]) = (descend next E f p).bind fun g => next (E g i) := by
  rw [descend_append]
  congr
  funext g
  rw [descend_cons]
  cases next (E g i) <;> rfl

/-- Only the slots on the path matter. -/
theorem descend_congr
    (h : ∀ p' j rest, p = p' ++ j :: rest → ∀ g, descend next E f p' = some g →
      next (E' g j) = next (E g j)) :
    descend next E' f p = descend next E f p := by
  induction p generalizing f with
  | nil => rfl
  | cons i p ih =>
    have hhead : next (E' f i) = next (E f i) := h [] i p rfl f rfl
    rw [descend_cons, descend_cons, hhead]
    cases hn : next (E f i) with
    | none => rfl
    | some g =>
      refine ih fun p' j rest hp g' hg' => h (i :: p') j rest (by rw [hp]; rfl) g' ?_
      rw [descend_cons, hn]
      exact hg'

/-- A domain of paths with all their beginnings. -/
def PrefixClosed (D : List ι → Prop) : Prop := ∀ p q, D (p ++ q) → D p

/-- No table is reached along two paths. -/
def Separate (next : ε → Option F) (E : F → ι → ε) (r : F) (D : List ι → Prop) : Prop :=
  ∀ p q f, D p → D q → descend next E r p = some f → descend next E r q = some f → p = q

/-- A property of all slots of a tree, by path and slot. -/
def Slots (next : ε → Option F) (E : F → ι → ε) (r : F) (D : List ι → Prop)
    (P : List ι → ι → ε → Prop) : Prop :=
  ∀ p f i, D p → descend next E r p = some f → P p i (E f i)

/-- What it takes to hang the table `g` into slot `i` of the table at the end of `p`. -/
structure Graftable (next : ε → Option F) (E : F → ι → ε) (r : F) (D : List ι → Prop) (p : List ι)
    (f : F) (i : ι) (e : ε) (g : F) (z : ε) : Prop where
  closed : PrefixClosed D
  separate : Separate next E r D
  dom : D p
  table : descend next E r p = some f
  empty : next (E f i) = none
  fresh : ∀ q, D q → descend next E r q ≠ some g
  refers : next e = some g
  blank : next z = none

theorem Graftable.ne (hg : Graftable next E r D p f i e g z) : f ≠ g := by
  rintro rfl
  exact hg.fresh p hg.dom hg.table

section Writes

variable [DecidableEq F]

/-- Clear one table. -/
def clear (E : F → ι → ε) (f : F) (z : ε) : F → ι → ε := fun g j => if g = f then z else E g j

theorem clear_self {j : ι} : clear E f z f j = z := if_pos rfl

theorem clear_of_ne {j : ι} (h : g ≠ f) : clear E f z g j = E g j := if_neg h

variable [DecidableEq ι]

/-- Write one slot of one table. -/
def setSlot (E : F → ι → ε) (f : F) (i : ι) (e : ε) : F → ι → ε :=
  fun g j => if g = f ∧ j = i then e else E g j

theorem setSlot_self : setSlot E f i e f i = e := if_pos ⟨rfl, rfl⟩

theorem setSlot_of_ne {j : ι} (h : ¬ (g = f ∧ j = i)) : setSlot E f i e g j = E g j := if_neg h

/-- Writes to different tables commute. -/
theorem setSlot_comm {h : F} {j : ι} {e' : ε} (hne : f ≠ h) :
    setSlot (setSlot E f i e) h j e' = setSlot (setSlot E h j e') f i e := by
  funext g k
  by_cases hg : g = f ∧ k = i
  · have hh : ¬ (g = h ∧ k = j) := fun h' => hne (hg.1.symm.trans h'.1)
    rw [setSlot_of_ne hh, hg.1, hg.2, setSlot_self, setSlot_self]
  · rw [setSlot_of_ne hg]
    by_cases hh : g = h ∧ k = j
    · rw [hh.1, hh.2, setSlot_self, setSlot_self]
    · rw [setSlot_of_ne hh, setSlot_of_ne hh, setSlot_of_ne hg]

theorem clear_setSlot {h : F} (hne : f ≠ h) :
    clear (setSlot E f i e) h z = setSlot (clear E h z) f i e := by
  funext g k
  by_cases hg : g = f ∧ k = i
  · rw [hg.1, hg.2, setSlot_self, clear_of_ne hne, setSlot_self]
  · rw [setSlot_of_ne hg]
    by_cases hh : g = h
    · rw [hh, clear_self, clear_self]
    · rw [clear_of_ne hh, clear_of_ne hh, setSlot_of_ne hg]

/-! ## Writing a slot -/

/-- A path that does not lead through the slot is not affected by a write to it. -/
theorem descend_setSlot (hD : PrefixClosed D) (hsep : Separate next E r D) (hp : D p)
    (hf : descend next E r p = some f) (hq : D q) (hnot : ¬ p ++ [i] <+: q) :
    descend next (setSlot E f i e) r q = descend next E r q := by
  refine descend_congr fun p' j rest hsplit g hg => ?_
  rw [setSlot_of_ne]
  rintro ⟨rfl, rfl⟩
  have hp' : D p' := hD p' (j :: rest) (hsplit ▸ hq)
  have heq : p' = p := hsep p' p g hp' hp hg hf
  refine hnot ⟨rest, ?_⟩
  rw [hsplit, heq]
  simp

theorem Separate.setSlot (hsep : Separate next E r D)
    (hsame : ∀ q, D q → descend next (setSlot E f i e) r q = descend next E r q) :
    Separate next (setSlot E f i e) r D := by
  intro p q g hp hq hgp hgq
  rw [hsame p hp] at hgp
  rw [hsame q hq] at hgq
  exact hsep p q g hp hq hgp hgq

theorem Slots.setSlot {P : List ι → ι → ε → Prop} (hslots : Slots next E r D P)
    (hsep : Separate next E r D) (hp : D p) (hf : descend next E r p = some f)
    (hsame : ∀ q, D q → descend next (setSlot E f i e) r q = descend next E r q) (he : P p i e) :
    Slots next (setSlot E f i e) r D P := by
  intro q g j hq hg
  rw [hsame q hq] at hg
  by_cases h : g = f ∧ j = i
  · obtain ⟨rfl, rfl⟩ := h
    rw [setSlot_self, hsep q p g hq hp hg hf]
    exact he
  · rw [setSlot_of_ne h]
    exact hslots q g j hq hg

/-! ## Hanging in a table -/

/-- Clear the table `g` and refer to it from a slot of `f`. -/
def graft (E : F → ι → ε) (f : F) (i : ι) (e : ε) (g : F) (z : ε) : F → ι → ε :=
  setSlot (clear E g z) f i e

namespace Graftable

variable (hg : Graftable next E r D p f i e g z)

include hg

/-- Paths that do not lead through the slot. -/
theorem descend_of_not_prefix (hq : D q) (hnot : ¬ p ++ [i] <+: q) :
    descend next (graft E f i e g z) r q = descend next E r q := by
  refine descend_congr fun p' j rest hsplit h hh => ?_
  have hp' : D p' := hg.closed p' (j :: rest) (hsplit ▸ hq)
  have hne : h ≠ g := by
    rintro rfl
    exact hg.fresh p' hp' hh
  rw [graft, setSlot_of_ne, clear_of_ne hne]
  rintro ⟨rfl, rfl⟩
  have heq : p' = p := hg.separate p' p h hp' hg.dom hh hg.table
  refine hnot ⟨rest, ?_⟩
  rw [hsplit, heq]
  simp

theorem descend_self : descend next (graft E f i e g z) r (p ++ [i]) = some g := by
  have hself : ¬ p ++ [i] <+: p := by
    intro h
    have := h.length_le
    simp only [List.length_append, List.length_cons, List.length_nil] at this
    omega
  rw [descend_snoc, hg.descend_of_not_prefix hg.dom hself, hg.table, Option.bind_some, graft,
    setSlot_self, hg.refers]

/-- Every other path leads where it led before. -/
theorem descend_of_ne (hq : D q) (hne : q ≠ p ++ [i]) :
    descend next (graft E f i e g z) r q = descend next E r q := by
  by_cases hpre : p ++ [i] <+: q
  · -- Behind the slot there was nothing, and the new table is blank.
    obtain ⟨rest, rfl⟩ := hpre
    cases rest with
    | nil => exact absurd (List.append_nil _) hne
    | cons j rest =>
      have hold : descend next E r (p ++ [i]) = none := by
        rw [descend_snoc, hg.table, Option.bind_some, hg.empty]
      rw [descend_append (p := p ++ [i]), descend_append (p := p ++ [i]), hg.descend_self, hold,
        Option.bind_some, Option.bind_none, descend_cons]
      have hj : graft E f i e g z g j = z := by
        rw [graft, setSlot_of_ne fun h => hg.ne h.1.symm, clear_self]
      rw [hj, hg.blank, Option.bind_none]
  · exact hg.descend_of_not_prefix hq hpre

theorem separate_graft : Separate next (graft E f i e g z) r D := by
  have key : ∀ p' q', D p' → D q' → ∀ h, descend next (graft E f i e g z) r p' = some h →
      descend next (graft E f i e g z) r q' = some h → q' = p ++ [i] → p' = q' := by
    rintro p' q' hp' hq' h hh hh' rfl
    by_contra hne
    rw [hg.descend_self] at hh'
    cases hh'
    rw [hg.descend_of_ne hp' hne] at hh
    exact hg.fresh p' hp' hh
  intro p' q' h hp' hq' hh hh'
  by_cases h1 : q' = p ++ [i]
  · exact key p' q' hp' hq' h hh hh' h1
  by_cases h2 : p' = p ++ [i]
  · exact (key q' p' hq' hp' h hh' hh h2).symm
  rw [hg.descend_of_ne hp' h2] at hh
  rw [hg.descend_of_ne hq' h1] at hh'
  exact hg.separate p' q' h hp' hq' hh hh'

theorem slots_graft {P : List ι → ι → ε → Prop} (hslots : Slots next E r D P) (he : P p i e)
    (hz : ∀ j, P (p ++ [i]) j z) : Slots next (graft E f i e g z) r D P := by
  intro q h j hq hh
  by_cases hqp : q = p ++ [i]
  · subst hqp
    rw [hg.descend_self] at hh
    cases hh
    rw [graft, setSlot_of_ne fun h => hg.ne h.1.symm, clear_self]
    exact hz j
  · rw [hg.descend_of_ne hq hqp] at hh
    have hne : h ≠ g := by
      rintro rfl
      exact hg.fresh q hq hh
    by_cases hslot : h = f ∧ j = i
    · obtain ⟨rfl, rfl⟩ := hslot
      rw [graft, setSlot_self, hg.separate q p h hq hg.dom hh hg.table]
      exact he
    · rw [graft, setSlot_of_ne hslot, clear_of_ne hne]
      exact hslots q h j hq hh

end Graftable

end Writes

end Utamo.Lib.Radix
