import Mathlib.Data.List.GetD
import Utamo.Vfs.Core

/-!
# Canonical paths

The paths that `vfs_path_valid` accepts: the slash alone, or components each behind a slash. The
loop of the function runs over the characters with the place where the component began; what it has
read is a row of components and the beginning of one (`pathLoop_iff`).
-/

set_option autoImplicit false

namespace Utamo.Vfs

open Lib

/-- A component: printable characters without slashes, and not the name of this or the upper
directory. -/
structure Component (name : Path) : Prop where
  nonempty : name ≠ []
  chars : ∀ c ∈ name, 32 ≤ c ∧ c ≤ 126 ∧ c ≠ slash ∧ c ≠ backslash
  ne_dot : name ≠ [dot]
  ne_dots : name ≠ [dot, dot]

/-- The components of a path, each behind a slash. -/
def joinNames (names : List Path) : Path := names.flatMap fun name => slash :: name

/-- A path of at most 127 characters in the canonical form. -/
def Canonical (path : Path) : Prop :=
  path.length ≤ 127 ∧ (path = [slash] ∨
    ∃ names, names ≠ [] ∧ (∀ name ∈ names, Component name) ∧ path = joinNames names)

section Scan

variable {path front part rest : Path}

/-- The loop at the end of a part that it has read. -/
theorem pathChar_eq (front part rest : Path) :
    pathChar (front ++ (part ++ rest)) (front.length + part.length) front.length =
      if rest.headD 0 ≠ 0 ∧ (rest.headD 0 < 32 ∨ 126 < rest.headD 0 ∨ rest.headD 0 = backslash) then
        none
      else if rest.headD 0 = slash ∨ rest.headD 0 = 0 then
        if part = [] ∨ part = [dot] ∨ part = [dot, dot] then none
        else some (front.length + part.length + 1)
      else some front.length := by
  have hchar (k : Nat) : charAt (front ++ (part ++ rest)) (front.length + k) =
      charAt (part ++ rest) k := by
    rw [charAt, charAt, List.getD_append_right _ _ _ _ (Nat.le_add_right _ _),
      Nat.add_sub_cancel_left]
  have hc : charAt (part ++ rest) part.length = rest.headD 0 := by
    rw [charAt, List.getD_append_right _ _ _ _ (Nat.le_refl _), Nat.sub_self]
    cases rest <;> rfl
  have hpart : (part.length = 0 ∨ (part.length = 1 ∧ charAt (part ++ rest) 0 = dot) ∨
      (part.length = 2 ∧ charAt (part ++ rest) 0 = dot ∧ charAt (part ++ rest) 1 = dot)) ↔
      part = [] ∨ part = [dot] ∨ part = [dot, dot] := by
    rcases part with _ | ⟨c, _ | ⟨d, _ | ⟨e, part⟩⟩⟩ <;> simp [charAt]
  have hstart := hchar 0
  rw [Nat.add_zero] at hstart
  rw [pathChar]
  simp only [hchar, hstart, hc, Nat.add_sub_cancel_left, hpart]

/-- A part that the loop has read is a component unless it is empty or consists of dots. -/
theorem component_iff (hpart : ∀ c ∈ part, 32 ≤ c ∧ c ≤ 126 ∧ c ≠ slash ∧ c ≠ backslash) :
    Component part ↔ ¬ (part = [] ∨ part = [dot] ∨ part = [dot, dot]) := by
  rw [not_or, not_or]
  exact ⟨fun h => ⟨h.nonempty, h.ne_dot, h.ne_dots⟩, fun h => ⟨h.1, hpart, h.2.1, h.2.2⟩⟩

theorem mem_joinNames {names : List Path} (h : ∀ name ∈ names, Component name) {c : UInt8}
    (hc : c ∈ joinNames names) : c = slash ∨ 32 ≤ c ∧ c ≤ 126 ∧ c ≠ slash ∧ c ≠ backslash := by
  obtain ⟨name, hname, hmem⟩ := List.mem_flatMap.1 hc
  exact (List.mem_cons.1 hmem).imp_right ((h name hname).chars c)

theorem joinNames_eq_nil {names : List Path} (h : slash ∉ joinNames names) : names = [] := by
  cases names with
  | nil => rfl
  | cons name names => exact absurd List.mem_cons_self h

theorem takeWhile_name {name rest : Path} (h : slash ∉ name) :
    (name ++ slash :: rest).takeWhile (fun c => c ≠ slash) = name := by
  have hname : ∀ c ∈ name, decide (c ≠ slash) = true :=
    fun c hc => decide_eq_true fun heq => h (heq ▸ hc)
  rw [List.takeWhile_append_of_pos hname, List.takeWhile_cons_of_neg (by simp), List.append_nil]

/-- The rest of the loop accepts a row of components, the first of which it has begun to read. -/
theorem pathLoop_iff (hpath : path = front ++ (part ++ rest))
    (hpart : ∀ c ∈ part, 32 ≤ c ∧ c ≤ 126 ∧ c ≠ slash ∧ c ≠ backslash) (hrest : 0 ∉ rest) :
    (forRangeM (front.length + part.length) (path.length + 1) (pathChar path) front.length).isSome =
      true ↔
      ∃ name names, (∀ n ∈ name :: names, Component n) ∧ part ++ rest = name ++
        joinNames names := by
  induction rest generalizing front part with
  | nil =>
    have hlength : path.length = front.length + part.length := by rw [hpath]; simp
    rw [forRangeM_of_lt (by omega), hpath, pathChar_eq, ← hpath, ← hlength]
    simp only [List.headD_nil, ne_eq, not_true_eq_false, false_and, if_false, or_true, if_true,
      List.append_nil]
    constructor
    · intro h
      refine ⟨part, [], List.forall_mem_singleton.2 ((component_iff hpart).2 fun hdots => ?_),
        (List.append_nil part).symm⟩
      rw [if_pos hdots] at h
      cases h
    · rintro ⟨name, names, hnames, rfl⟩
      have hslash : slash ∉ name ++ joinNames names := fun hmem => (hpart slash hmem).2.2.1 rfl
      obtain rfl := joinNames_eq_nil fun hmem => hslash (List.mem_append_right _ hmem)
      have hname := hnames name List.mem_cons_self
      rw [show joinNames [] = [] from rfl, List.append_nil] at hpart ⊢
      rw [if_neg ((component_iff hpart).1 hname), Option.bind_some, forRangeM, Nat.sub_self]
      rfl
  | cons c rest ih =>
    obtain ⟨hc, hnul⟩ := not_or.1 (List.mem_cons.not.1 hrest)
    have hcne : c ≠ 0 := fun hzero => hc hzero.symm
    have hlength : path.length = front.length + part.length + (rest.length + 1) := by
      rw [hpath]
      simp [Nat.add_assoc]
    rw [forRangeM_of_lt (by omega), hpath, pathChar_eq, ← hpath, List.headD_cons]
    by_cases hbad : c < 32 ∨ 126 < c ∨ c = backslash
    · rw [if_pos ⟨hcne, hbad⟩]
      refine iff_of_false Bool.false_ne_true ?_
      rintro ⟨name, names, hnames, heq⟩
      have hmem : c ∈ joinNames (name :: names) := by
        rw [joinNames, List.flatMap_cons, List.cons_append, ← joinNames, ← heq]
        simp
      rcases mem_joinNames hnames hmem with rfl | ⟨h1, h2, -, h3⟩
      · exact absurd hbad (by decide)
      · rcases hbad with hbad | hbad | hbad
        · exact absurd h1 (UInt8.not_le.2 hbad)
        · exact absurd h2 (UInt8.not_le.2 hbad)
        · exact h3 hbad
    rw [if_neg fun h => hbad h.2]
    rw [not_or, not_or, UInt8.not_lt, UInt8.not_lt] at hbad
    by_cases hsep : c = slash
    · subst hsep
      have hnext := @ih (front ++ part ++ [slash]) [] (by simp [hpath])
        (fun _ h => absurd h List.not_mem_nil) hnul
      rw [List.length_append, List.length_append, List.length_singleton, List.length_nil,
        Nat.add_zero, List.nil_append] at hnext
      rw [if_pos (Or.inl rfl)]
      constructor
      · intro h
        split at h
        · cases h
        · rename_i hdots
          obtain ⟨name, names, hnames, rfl⟩ := hnext.1 h
          exact ⟨part, name :: names,
            List.forall_mem_cons.2 ⟨(component_iff hpart).2 hdots, hnames⟩, rfl⟩
      · rintro ⟨name, names, hnames, heq⟩
        obtain ⟨hname, hothers⟩ := List.forall_mem_cons.1 hnames
        have hslash : slash ∉ name := fun hmem => (hname.chars slash hmem).2.2.1 rfl
        cases names with
        | nil =>
          refine absurd ?_ hslash
          rw [← List.append_nil name, ← show joinNames [] = [] from rfl, ← heq]
          simp
        | cons name' names =>
          obtain rfl : part = name := by
            rw [← takeWhile_name (fun hmem => (hpart slash hmem).2.2.1 rfl), heq]
            exact takeWhile_name hslash
          rw [if_neg ((component_iff hpart).1 hname)]
          exact hnext.2 ⟨name', names, hothers, (List.cons.inj (List.append_cancel_left heq)).2⟩
    · rw [if_neg (not_or.2 ⟨hsep, hcne⟩), Option.bind_some]
      have hplain := List.forall_mem_append.2 ⟨hpart, List.forall_mem_singleton.2
        (⟨hbad.1, hbad.2.1, hsep, hbad.2.2⟩ : 32 ≤ c ∧ c ≤ 126 ∧ c ≠ slash ∧ c ≠ backslash)⟩
      have hnext := @ih front (part ++ [c]) (by simp [hpath]) hplain hnul
      rw [List.length_append, List.length_singleton, ← Nat.add_assoc, List.append_assoc] at hnext
      exact hnext

end Scan

/-- The length that `vfs_path_valid` finds. -/
theorem firstIndex_length {path : Path} (htext : 0 ∉ path) :
    firstIndex 0 vfsPathMax (fun i => decide (charAt path i = 0)) = min path.length vfsPathMax := by
  have hend (i : Nat) : charAt path i = 0 ↔ path.length ≤ i := by
    rcases Nat.lt_or_ge i path.length with hlt | hle
    · rw [charAt, List.getD_eq_getElem _ _ hlt]
      exact iff_of_false (fun hzero => htext (hzero ▸ List.getElem_mem hlt)) (Nat.not_le.2 hlt)
    · rw [charAt, List.getD_eq_default _ _ hle]
      exact iff_of_true rfl hle
  simp only [hend]
  rcases firstIndex_cases 0 vfsPathMax fun i => decide (path.length ≤ i) with
    ⟨heq, hnone⟩ | ⟨i, heq, -, hlt, htest⟩
  · rw [heq, Nat.min_eq_right]
    by_contra hlt
    exact absurd (hnone _ (Nat.zero_le _) (Nat.not_le.1 hlt)) (by simp)
  · have hle := of_decide_eq_true htest
    rw [heq, Nat.min_eq_left (hle.trans hlt.le)]
    by_contra hne
    have hbefore := @firstIndex_before _ _ (fun i => decide (path.length ≤ i)) path.length
      (Nat.zero_le _) (by rw [heq]; omega)
    exact absurd hbefore (by simp)

/-- `vfs_path_valid` accepts the canonical paths. -/
theorem vfsPathValid_iff {path : Path} (htext : 0 ∉ path) :
    vfsPathValid path = true ↔ Canonical path := by
  have hbound : vfsPathMax = 128 := rfl
  rw [vfsPathValid, firstIndex_length htext]
  dsimp only
  by_cases hc : charAt path 0 = slash
  · obtain ⟨body, rfl⟩ : ∃ body, path = slash :: body := by
      cases path with
      | nil => exact absurd hc (by decide)
      | cons c body => exact ⟨body, congrArg (· :: body) hc⟩
    have hloop := @pathLoop_iff (slash :: body) [slash] [] body rfl nofun
      fun hmem => htext (List.mem_cons_of_mem _ hmem)
    rw [if_neg (not_not.2 hc), Canonical, List.length_cons]
    by_cases hmax : 127 < body.length + 1
    · rw [if_pos (by omega)]
      exact iff_of_false nofun fun h => absurd h.1 (Nat.not_le.2 hmax)
    rw [if_neg (by omega), Nat.min_eq_left (by omega)]
    refine Iff.trans ?_ (and_iff_right (Nat.not_lt.1 hmax)).symm
    by_cases hlong : body.length + 1 = 1
    · obtain rfl := List.length_eq_zero_iff.1 (Nat.succ.inj hlong)
      exact iff_of_true rfl (Or.inl rfl)
    · rw [if_neg hlong]
      refine hloop.trans ⟨?_, ?_⟩
      · rintro ⟨name, names, hnames, rfl⟩
        exact Or.inr ⟨name :: names, List.cons_ne_nil _ _, hnames, rfl⟩
      · rintro (hroot | ⟨names, hne, hnames, heq⟩)
        · exact absurd (congrArg List.length hroot) hlong
        · obtain ⟨name, names, rfl⟩ := List.exists_cons_of_ne_nil hne
          exact ⟨name, names, hnames, (List.cons.inj heq).2⟩
  · rw [if_pos hc]
    refine iff_of_false nofun ?_
    rintro ⟨-, rfl | ⟨names, hne, -, rfl⟩⟩
    · exact hc rfl
    · obtain ⟨name, names, rfl⟩ := List.exists_cons_of_ne_nil hne
      exact hc rfl

end Utamo.Vfs
