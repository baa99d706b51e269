import Mathlib.Tactic.Common

/-!
# Computations that may fail

`EStateM ε σ` passes a state along and may stop with an error; the state at the error stays. What
such a computation guarantees is a pair of postconditions, one for a result and one for an error
(`Ends`), with a rule for each way to build a computation.
-/

set_option autoImplicit false

namespace Utamo.Lib

universe u

variable {ε σ α β : Type u} {x : EStateM ε σ α} {f : α → EStateM ε σ β} {s : σ}
  {ok ok' : α → σ → Prop} {err err' : ε → σ → Prop}

/-- The outcome is a result with `ok`, or an error with `err`. -/
inductive Ends : EStateM.Result ε σ α → (α → σ → Prop) → (ε → σ → Prop) → Prop
  | ok {a : α} {s : σ} {ok : α → σ → Prop} {err : ε → σ → Prop} : ok a s → Ends (.ok a s) ok err
  | error {e : ε} {s : σ} {ok : α → σ → Prop} {err : ε → σ → Prop} :
    err e s → Ends (.error e s) ok err

/-- Stop with the error `e` unless `p` holds. -/
def ensure (e : ε) (p : Prop) [Decidable p] : EStateM ε σ PUnit :=
  if p then pure ⟨⟩ else throw e

namespace Ends

theorem pure {a : α} (h : ok a s) : Ends ((Pure.pure a : EStateM ε σ α) s) ok err := .ok h

theorem throw {e : ε} (h : err e s) : Ends ((MonadExcept.throw e : EStateM ε σ α) s) ok err :=
  .error h

theorem mono {r : EStateM.Result ε σ α} (h : Ends r ok err) (hok : ∀ a s, ok a s → ok' a s)
    (herr : ∀ e s, err e s → err' e s) : Ends r ok' err' := by
  cases h with
  | ok h => exact .ok (hok _ _ h)
  | error h => exact .error (herr _ _ h)

/-- One computation after another. -/
theorem bind {ok : β → σ → Prop} (h : Ends (x s) (fun a t => Ends (f a t) ok err) err) :
    Ends ((x >>= f) s) ok err := by
  change Ends (EStateM.bind x f s) ok err
  rw [EStateM.bind]
  generalize x s = r at h
  cases h with
  | ok h => exact h
  | error h => exact .error h

/-- One computation after another, with the postcondition of the first. -/
theorem seq {mid : α → σ → Prop} {ok : β → σ → Prop} (h : Ends (x s) mid err)
    (hf : ∀ a t, mid a t → Ends (f a t) ok err) : Ends ((x >>= f) s) ok err :=
  .bind (h.mono hf fun _ _ he => he)

theorem ensure {e : ε} {p : Prop} [Decidable p] {ok : PUnit → σ → Prop} (hok : p → ok ⟨⟩ s)
    (herr : ¬ p → err e s) : Ends (Utamo.Lib.ensure e p s) ok err := by
  rw [Utamo.Lib.ensure]
  split
  · rename_i hp
    exact .ok (hok hp)
  · rename_i hp
    exact .error (herr hp)

/-- A check before the rest: the rest may use what was checked. -/
theorem check {e : ε} {p : Prop} [Decidable p] {g : PUnit → EStateM ε σ β} {ok : β → σ → Prop}
    (hok : p → Ends (g ⟨⟩ s) ok err) (herr : ¬ p → err e s) :
    Ends ((Utamo.Lib.ensure e p >>= g) s) ok err :=
  .bind (.ensure hok herr)

/-- The rest of a computation after it has looked at the state. -/
theorem read {g : σ → EStateM ε σ β} {ok : β → σ → Prop} (h : Ends (g s s) ok err) :
    Ends ((get >>= g) s) ok err := h

/-- The rest of a computation after a change of the state. -/
theorem write {change : σ → σ} {g : PUnit → EStateM ε σ β} {ok : β → σ → Prop}
    (h : Ends (g ⟨⟩ (change s)) ok err) : Ends ((modify change >>= g) s) ok err := h

/-- A loop over a list. What a round does to the state is described by what it does to a value that
the state stands for. -/
theorem forM {κ : Type u} {body : α → EStateM ε σ PUnit} (P : κ → σ → Prop) (next : κ → α → κ)
    (hstep : ∀ a k t, P k t → Ends (body a t) (fun _ => P (next k a)) err) (items : List α) (k : κ)
    (h : P k s) : Ends (items.forM body s) (fun _ => P (items.foldl next k)) err := by
  induction items generalizing k s with
  | nil => exact .pure h
  | cons a items ih =>
    refine .seq (hstep a k s h) ?_
    intro _ t ht
    exact ih (next k a) ht

theorem and {r : EStateM.Result ε σ α} (h : Ends r ok err) (h' : Ends r ok' err') :
    Ends r (fun a t => ok a t ∧ ok' a t) fun e t => err e t ∧ err' e t := by
  cases h with
  | ok h =>
    cases h' with
    | ok h' => exact .ok ⟨h, h'⟩
  | error h =>
    cases h' with
    | error h' => exact .error ⟨h, h'⟩

end Ends

/-! ## What holds whatever the outcome -/

/-- Whatever the outcome, the state before and the state after are related. -/
def EndsIn (R : σ → σ → Prop) (x : EStateM ε σ α) : Prop :=
  ∀ s, Ends (x s) (fun _ t => R s t) fun _ t => R s t

namespace EndsIn

variable {R : σ → σ → Prop}

theorem pure (hrefl : ∀ s, R s s) (a : α) : EndsIn R (Pure.pure a : EStateM ε σ α) :=
  fun s => .ok (hrefl s)

theorem throw (hrefl : ∀ s, R s s) (e : ε) : EndsIn R (MonadExcept.throw e : EStateM ε σ α) :=
  fun s => .error (hrefl s)

theorem get (hrefl : ∀ s, R s s) : EndsIn R (MonadState.get : EStateM ε σ σ) :=
  fun s => .ok (hrefl s)

theorem modify {change : σ → σ} (h : ∀ s, R s (change s)) :
    EndsIn R (modify change : EStateM ε σ PUnit) :=
  fun s => .ok (h s)

theorem ensure (hrefl : ∀ s, R s s) (e : ε) (p : Prop) [Decidable p] :
    EndsIn R (Utamo.Lib.ensure e p) :=
  fun s => .ensure (fun _ => hrefl s) fun _ => hrefl s

theorem bind (htrans : ∀ s t u, R s t → R t u → R s u) (hx : EndsIn R x)
    (hf : ∀ a, EndsIn R (f a)) : EndsIn R (x >>= f) := by
  intro s
  refine .bind ((hx s).mono (fun a t ht => ?_) fun _ _ ht => ht)
  exact (hf a t).mono (fun _ u hu => htrans s t u ht hu) fun _ u hu => htrans s t u ht hu

theorem ite {c : Prop} [Decidable c] {y : EStateM ε σ α} (hpos : c → EndsIn R x)
    (hneg : ¬ c → EndsIn R y) : EndsIn R (if c then x else y) := by
  split
  · rename_i hc
    exact hpos hc
  · rename_i hc
    exact hneg hc

end EndsIn

end Utamo.Lib
