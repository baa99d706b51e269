import Mathlib.Data.List.Basic
import Mathlib.Data.List.Nodup
import Mathlib.Logic.Function.Basic
import Mathlib.Tactic.Common

/-!
# Intrusive singly linked lists

Nodes with one `next` pointer each, and a head pointer. `Segment` says that the pointers lead from a
pointer `p` through the nodes of a list to a pointer `stop`; a list that ends in `null` is the whole
list.

A *link* is the address of a pointer: the head (`none`) or the pointer in a node (`some a`). Code
that edits such a list walks a link along it (`seek`) and then writes the link (`linkHead`,
`linkNext`). The link after the nodes `l` is `l.getLast?`; writing it redirects the end of the
segment `l` (`Segment.redirect`), and insertion, removal and appending are such redirections.
-/

set_option autoImplicit false

namespace Utamo.Lib

universe u

variable {α : Type u} {null : α} {next next' : α → α} {p q stop : α} {l l' : List α}

/-- The pointers lead from `p` through `l` to `stop`. -/
def Segment (null : α) (next : α → α) : α → List α → α → Prop
  | p, [], stop => p = stop
  | p, a :: l, stop => p = a ∧ a ≠ null ∧ Segment null next (next a) l stop

theorem segment_append : Segment null next p (l ++ l') stop ↔
    ∃ mid, Segment null next p l mid ∧ Segment null next mid l' stop := by
  induction l generalizing p with
  | nil => exact ⟨fun h => ⟨p, rfl, h⟩, fun ⟨_, hp, h⟩ => hp ▸ h⟩
  | cons a l ih =>
    rw [List.cons_append, Segment, ih]
    constructor
    · rintro ⟨hp, ha, mid, h, h'⟩
      exact ⟨mid, ⟨hp, ha, h⟩, h'⟩
    · rintro ⟨mid, ⟨hp, ha, h⟩, h'⟩
      exact ⟨hp, ha, mid, h, h'⟩

theorem Segment.congr (h : Segment null next p l stop) (hsame : ∀ a ∈ l, next' a = next a) :
    Segment null next' p l stop := by
  induction l generalizing p with
  | nil => exact h
  | cons a l ih =>
    obtain ⟨hp, ha, h⟩ := h
    refine ⟨hp, ha, ?_⟩
    rw [hsame a List.mem_cons_self]
    exact ih h fun b hb => hsame b (List.mem_cons_of_mem a hb)

theorem Segment.ne_null (h : Segment null next p l stop) {a : α} (ha : a ∈ l) : a ≠ null := by
  induction l generalizing p with
  | nil => cases ha
  | cons b l ih =>
    rcases List.mem_cons.1 ha with rfl | hmem
    · exact h.2.1
    · exact ih h.2.2 hmem

/-- A whole list is empty exactly when its head is `null`. -/
theorem Segment.eq_nil_iff (h : Segment null next p l null) : l = [] ↔ p = null := by
  cases l with
  | nil => exact ⟨fun _ => h, fun _ => rfl⟩
  | cons a l =>
    obtain ⟨hp, ha, -⟩ := h
    exact ⟨nofun, fun hnull => absurd (hp.symm.trans hnull) ha⟩

/-- The nodes that the pointers lead to, as far as `null` and at most so many. -/
def follow [DecidableEq α] (null : α) (next : α → α) : Nat → α → List α
  | 0, _ => []
  | count + 1, p => if p = null then [] else p :: follow null next count (next p)

theorem Segment.follow_eq [DecidableEq α] (h : Segment null next p l null) {count : Nat}
    (hcount : l.length ≤ count) : follow null next count p = l := by
  induction l generalizing p count with
  | nil =>
    obtain rfl : p = null := h
    cases count with
    | zero => rfl
    | succ count => rw [follow, if_pos rfl]
  | cons a l ih =>
    obtain ⟨rfl, ha, h⟩ := h
    cases count with
    | zero => cases hcount
    | succ count => rw [follow, if_neg ha, ih h (Nat.le_of_succ_le_succ hcount)]

/-! ## Links -/

/-- The pointer at a link. -/
def readLink (head : α) (next : α → α) : Option α → α
  | none => head
  | some a => next a

/-- The head after a write to a link. -/
def linkHead (head : α) : Option α → α → α
  | none, value => value
  | some _, _ => head

/-- The pointers of the nodes after a write to a link. -/
def linkNext [DecidableEq α] (next : α → α) : Option α → α → α → α
  | none, _ => next
  | some a, value => Function.update next a value

theorem linkNext_of_ne [DecidableEq α] {link : Option α} {value a : α} (h : link ≠ some a) :
    linkNext next link value a = next a := by
  cases link with
  | none => rfl
  | some b => exact Function.update_of_ne (fun heq => h (congrArg some heq.symm)) _ _

theorem Segment.readLink_eq (h : Segment null next p l stop) :
    readLink p next l.getLast? = stop := by
  rcases List.eq_nil_or_concat l with rfl | ⟨l, a, rfl⟩
  · exact h
  · rw [List.concat_eq_append] at h ⊢
    obtain ⟨mid, -, -, -, hstop⟩ := segment_append.1 h
    rw [List.getLast?_append_of_ne_nil _ (List.cons_ne_nil a []), List.getLast?_singleton]
    exact hstop

/-- Writing the link at the end of a segment makes the segment lead elsewhere. -/
theorem Segment.redirect [DecidableEq α] (h : Segment null next p l stop) (hnodup : l.Nodup)
    (value : α) :
    Segment null (linkNext next l.getLast? value) (linkHead p l.getLast? value) l value := by
  rcases List.eq_nil_or_concat l with rfl | ⟨l, a, rfl⟩
  · rfl
  · rw [List.concat_eq_append] at h hnodup ⊢
    obtain ⟨mid, hl, hmid, ha, -⟩ := segment_append.1 h
    rw [List.getLast?_append_of_ne_nil _ (List.cons_ne_nil a []), List.getLast?_singleton]
    have hfresh : a ∉ l := by
      rw [List.nodup_append] at hnodup
      exact fun hmem => hnodup.2.2 a hmem a (List.mem_singleton_self a) rfl
    refine segment_append.2 ⟨mid, hl.congr fun b hb => ?_, hmid, ha, ?_⟩
    · have hne : b ≠ a := by
        rintro rfl
        exact hfresh hb
      exact Function.update_of_ne hne _ _
    · exact Function.update_self ..

/-! ## Walking a link -/

/-- `while (go(*link)) link = &(*link)->next;`, where going on from `null` is an error: `none`. -/
def seek [DecidableEq α] (null : α) (head : α) (next : α → α) (go : α → Bool) :
    Nat → Option α → Option (Option α)
  | 0, _ => none
  | fuel + 1, link =>
    let here := readLink head next link
    if go here then
      if here = null then none else seek null head next go fuel (some here)
    else some link

/-- The walk passes the nodes where it is to go on, and stops behind them. -/
theorem seek_eq [DecidableEq α] {go : α → Bool} {mid : α} (h : Segment null next p (l ++ l') mid)
    (hgo : ∀ a ∈ l', go a = true) (hstop : go mid = false) {fuel : Nat} (hfuel : l'.length < fuel) :
    seek null p next go fuel l.getLast? = some (l ++ l').getLast? := by
  induction l' generalizing l fuel with
  | nil =>
    cases fuel with
    | zero => cases hfuel
    | succ fuel =>
      rw [List.append_nil] at h ⊢
      rw [seek, h.readLink_eq]
      simp only [hstop, Bool.false_eq_true, if_false]
  | cons a l' ih =>
    cases fuel with
    | zero => cases hfuel
    | succ fuel =>
      obtain ⟨q, hl, rfl, ha, -⟩ := segment_append.1 h
      have hsplit : l ++ q :: l' = (l ++ [q]) ++ l' := by
        rw [List.append_assoc, List.singleton_append]
      rw [hsplit] at h ⊢
      have hnext := ih h (fun b hb => hgo b (List.mem_cons_of_mem q hb))
        (Nat.lt_of_succ_lt_succ hfuel)
      rw [List.getLast?_append_of_ne_nil _ (List.cons_ne_nil q []),
        List.getLast?_singleton] at hnext
      rw [seek, hl.readLink_eq]
      simp only [hgo q List.mem_cons_self, if_true, ha, if_false]
      exact hnext

/-- A walk from the head. -/
theorem Segment.seek_head [DecidableEq α] {go : α → Bool} (h : Segment null next p l stop)
    (hgo : ∀ a ∈ l, go a = true) (hstop : go stop = false) {fuel : Nat} (hfuel : l.length < fuel) :
    seek null p next go fuel none = some l.getLast? :=
  seek_eq (l := []) h hgo hstop hfuel

end Utamo.Lib
