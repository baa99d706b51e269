import Mathlib.Data.List.Basic
import Mathlib.Data.List.Nodup
import Mathlib.Tactic.Common

/-!
# Queues and their history

The history of a queue is the sequence of its arrivals and departures. `FifoHistory log queue` holds
of the histories in which elements arrive at the end, only while they are not in the queue, and
leave from the front. Such a history has the departures in the order of the arrivals
(`FifoHistory.entered_eq`), and between two arrivals of an element there is a departure of it
(`FifoHistory.leave_between`).
-/

set_option autoImplicit false

namespace Utamo.Lib

universe u

/-- An arrival or a departure. -/
inductive QueueEvent (α : Type u)
  | enter (a : α)
  | leave (a : α)
  deriving DecidableEq, Repr

variable {α : Type u} {log log' : List (QueueEvent α)} {queue queue' : List α} {a : α}

/-- The arrivals of a history. -/
def entered (log : List (QueueEvent α)) : List α :=
  log.filterMap fun
    | .enter a => some a
    | .leave _ => none

/-- The departures of a history. -/
def departed (log : List (QueueEvent α)) : List α :=
  log.filterMap fun
    | .enter _ => none
    | .leave a => some a

theorem entered_append : entered (log ++ log') = entered log ++ entered log' :=
  List.filterMap_append

theorem departed_append : departed (log ++ log') = departed log ++ departed log' :=
  List.filterMap_append

theorem departed_map_enter (l : List α) : departed (l.map .enter) = [] := by
  rw [departed, List.filterMap_map]
  exact List.filterMap_eq_nil_iff.2 fun _ _ => rfl

/-- The history of a queue that elements enter at the end and leave from the front. -/
inductive FifoHistory : List (QueueEvent α) → List α → Prop
  | start : FifoHistory [] []
  | enter {log : List (QueueEvent α)} {queue : List α} {a : α} : FifoHistory log queue → a ∉ queue →
      FifoHistory (log ++ [.enter a]) (queue ++ [a])
  | leave {log : List (QueueEvent α)} {queue : List α} {a : α} : FifoHistory log (a :: queue) →
      FifoHistory (log ++ [.leave a]) queue

namespace FifoHistory

/-- The elements leave in the order in which they enter; the queue is what has entered
and not left. -/
theorem entered_eq (h : FifoHistory log queue) : entered log = departed log ++ queue := by
  induction h with
  | start => rfl
  | @enter log queue a _ _ ih =>
    have hone : entered [QueueEvent.enter a] = [a] ∧
        departed [QueueEvent.enter a] = [] := ⟨rfl, rfl⟩
    rw [entered_append, departed_append, hone.1, hone.2, ih, List.append_nil, List.append_assoc]
  | @leave log queue a _ ih =>
    have hone : entered [QueueEvent.leave a] = [] ∧
        departed [QueueEvent.leave a] = [a] := ⟨rfl, rfl⟩
    rw [entered_append, departed_append, hone.1, hone.2, ih, List.append_nil, List.append_assoc,
      List.singleton_append]

/-- An element that has entered and is no longer in the queue has left. -/
theorem leave_mem_of_enter {before after : List (QueueEvent α)}
    (h : FifoHistory log queue) (hlog : log = before ++ .enter a :: after) (hnot : a ∉ queue) :
    .leave a ∈ after := by
  induction h generalizing after with
  | start => simp at hlog
  | @enter log queue b _ _ ih =>
    have hne : b ≠ a := by
      rintro rfl
      exact hnot (by simp)
    rcases List.eq_nil_or_concat after with rfl | ⟨after, e, rfl⟩
    · have hlast := List.append_inj_right' hlog rfl
      simp only [List.cons.injEq, QueueEvent.enter.injEq] at hlast
      exact absurd hlast.1 hne
    · rw [List.concat_eq_append, ← List.cons_append, ← List.append_assoc] at hlog
      rw [List.concat_eq_append]
      have hinit := List.append_inj_left' hlog rfl
      exact List.mem_append_left _ (ih hinit fun hmem => hnot (List.mem_append_left _ hmem))
  | @leave log queue b _ ih =>
    rcases List.eq_nil_or_concat after with rfl | ⟨after, e, rfl⟩
    · have hlast := List.append_inj_right' hlog rfl
      cases hlast
    · rw [List.concat_eq_append, ← List.cons_append, ← List.append_assoc] at hlog
      have hinit := List.append_inj_left' hlog rfl
      have hlast := List.append_inj_right' hlog rfl
      rw [List.concat_eq_append]
      by_cases hab : a = b
      · refine List.mem_append_right _ ?_
        rw [← hlast, hab]
        exact List.mem_singleton_self _
      · refine List.mem_append_left _ (ih hinit fun hmem => ?_)
        rcases List.mem_cons.1 hmem with h | h
        · exact hab h
        · exact hnot h

/-- Every initial part of a history is the history of a queue. -/
theorem of_append (h : FifoHistory (log ++ log') queue) : ∃ queue', FifoHistory log queue' := by
  generalize hwhole : log ++ log' = whole at h
  induction h generalizing log' with
  | start =>
    obtain ⟨rfl, -⟩ := List.append_eq_nil_iff.1 hwhole
    exact ⟨[], .start⟩
  | @enter init queue b hinit hfresh ih =>
    rcases List.eq_nil_or_concat log' with rfl | ⟨log', e, rfl⟩
    · rw [List.append_nil] at hwhole
      exact ⟨_, hwhole ▸ hinit.enter hfresh⟩
    · rw [List.concat_eq_append, ← List.append_assoc] at hwhole
      exact ih (List.append_inj_left' hwhole rfl)
  | @leave init queue b hinit ih =>
    rcases List.eq_nil_or_concat log' with rfl | ⟨log', e, rfl⟩
    · rw [List.append_nil] at hwhole
      exact ⟨_, hwhole ▸ hinit.leave⟩
    · rw [List.concat_eq_append, ← List.append_assoc] at hwhole
      exact ih (List.append_inj_left' hwhole rfl)

/-- Between two arrivals of an element it departs. -/
theorem leave_between {before between after : List (QueueEvent α)} (h : FifoHistory log queue)
    (hlog : log = before ++ .enter a :: between ++ .enter a :: after) : .leave a ∈ between := by
  have hsplit : log = (before ++ .enter a :: between) ++ [.enter a] ++ after := by
    rw [hlog]
    simp
  rw [hsplit] at h
  obtain ⟨queue', hprefix⟩ := h.of_append
  generalize hinit : before ++ .enter a :: between ++ [.enter a] = init at hprefix
  cases hprefix with
  | start => simp at hinit
  | enter hbefore hfresh =>
    have hlast := List.append_inj_right' hinit rfl
    have hfirst := List.append_inj_left' hinit rfl
    cases hlast
    exact hbefore.leave_mem_of_enter hfirst.symm hfresh
  | leave _ => cases List.append_inj_right' hinit rfl

/-- Several elements enter. -/
theorem enterAll (h : FifoHistory log queue) (hnodup : (queue ++ queue').Nodup) :
    FifoHistory (log ++ queue'.map .enter) (queue ++ queue') := by
  induction queue' generalizing log queue with
  | nil =>
    rw [List.map_nil, List.append_nil, List.append_nil]
    exact h
  | cons b queue' ih =>
    have hsplit : queue ++ b :: queue' = (queue ++ [b]) ++ queue' := by simp
    rw [hsplit] at hnodup ⊢
    have hfresh : b ∉ queue := by
      rw [List.nodup_append, List.nodup_append] at hnodup
      exact fun hmem => hnodup.1.2.2 b hmem b (List.mem_singleton_self b) rfl
    have hlog : log ++ (b :: queue').map .enter = (log ++ [.enter b]) ++
      queue'.map .enter := by simp
    rw [hlog]
    exact ih (h.enter hfresh) hnodup

end FifoHistory

end Utamo.Lib
