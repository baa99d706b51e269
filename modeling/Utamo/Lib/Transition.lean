import Mathlib.Logic.Relation

/-!
# Runs of a state machine

A machine executes operations on a state; `exec s a = none` means that the operation does not
return (a loop without end, or a panic). `Reachable` collects the states that runs of enabled,
returning operations lead to. An invariant that holds initially and that every enabled operation
keeps holds in every reachable state (`Reachable.invariant`).
-/

set_option autoImplicit false

namespace Utamo.Lib

universe u v

variable {σ : Type u} {α : Type v}

/-- The states reached from `init` by enabled operations that return. -/
inductive Reachable (init : σ → Prop) (enabled : σ → α → Prop) (exec : σ → α → Option σ) :
    σ → Prop
  | start {s : σ} : init s → Reachable init enabled exec s
  | step {s t : σ} {a : α} : Reachable init enabled exec s → enabled s a → exec s a = some t →
      Reachable init enabled exec t

namespace Reachable

variable {init : σ → Prop} {enabled : σ → α → Prop} {exec : σ → α → Option σ}

/-- What one enabled operation keeps, every run keeps. -/
theorem invariant {inv : σ → Prop} (hinit : ∀ s, init s → inv s)
    (hstep : ∀ s a t, inv s → enabled s a → exec s a = some t → inv t) {s : σ}
    (h : Reachable init enabled exec s) : inv s := by
  induction h with
  | start hs => exact hinit _ hs
  | step _ hen hex ih => exact hstep _ _ _ ih hen hex

/-- A run of operations that are enabled in every state; it skips what does not return. -/
theorem foldl_getD {s : σ} (h : Reachable init enabled exec s) {operations : List α}
    (hen : ∀ a ∈ operations, ∀ s, enabled s a) :
    Reachable init enabled exec (operations.foldl (fun s a => (exec s a).getD s) s) := by
  induction operations generalizing s with
  | nil => exact h
  | cons a operations ih =>
    refine ih ?_ fun b hb => hen b (List.mem_cons_of_mem a hb)
    simp only
    cases hexec : exec s a with
    | none => exact h
    | some t => exact h.step (hen a List.mem_cons_self s) hexec

end Reachable

end Utamo.Lib
