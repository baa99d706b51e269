import Utamo.Pmm.Operations

/-!
# Single pages

`kernel/memory/pmm.c`: the calls that the rest of the kernel makes, one page at a time. The
interrupt flag they save and restore has no part in the results. The set of allocated pages is what
`pmm_is_allocated_page` reports; an allocation adds a new page to it, and every page in it can be
freed.
-/

set_option autoImplicit false

namespace Utamo.Pmm

open Lib Memory

variable {phys : Nat}

/-- `pmm_alloc_page` -/
def pmmAllocPage (state : PmmState) : PmmState × Option Nat := pmmCoreAllocPages state 1

/-- `pmm_free_page` -/
def pmmFreePage (state : PmmState) (phys : Nat) : PmmState × Bool := pmmCoreFreePages state phys 1

/-- `pmm_pin_page` -/
def pmmPinPage (state : PmmState) (phys : Nat) : PmmState × Bool := pmmCorePinPage state phys

/-- `pmm_is_allocated_page` -/
def pmmIsAllocatedPage (state : PmmState) (phys : Nat) : Bool := pmmCoreIsAllocatedPage state phys

/-- The pages that are allocated. -/
def allocatedPages (s : PmmState) : Set Nat := {phys | pmmIsAllocatedPage s phys = true}

/-- The pages that are permanently unavailable. -/
def reservedPages (s : PmmState) : Set Nat :=
  {phys | phys % 4096 = 0 ∧
    ¬ (phys / 4096 < s.plan.spanFrames ∧ s.isEligible (phys / 4096) = true)}

variable {map : MemoryMap} {s : PmmState}

theorem mem_allocatedPages (hinit : s.initialized = true) :
    phys ∈ allocatedPages s ↔ phys % 4096 = 0 ∧ phys / 4096 < s.plan.spanFrames ∧
      s.isEligible (phys / 4096) = true ∧ s.isOccupied (phys / 4096) = true := by
  have hsize : memoryPageSize = 4096 := rfl
  rw [allocatedPages, Set.mem_ofPred_eq, pmmIsAllocatedPage, pmmCoreIsAllocatedPage]
  cases hrange : rangeFrames s phys 1 with
  | none =>
    rw [rangeFrames, hsize] at hrange
    split at hrange
    · rename_i hargs
      constructor
      · rintro ⟨⟩
      · rintro ⟨halign, -⟩
        rcases hargs with h | h | h
        · exact absurd hinit h
        · cases h
        · exact absurd (memoryIsPageAligned_iff.2 halign) h
    · simp only at hrange
      split at hrange
      · constructor
        · rintro ⟨⟩
        · rintro ⟨-, hlt, -⟩
          omega
      · cases hrange
  | some range =>
    obtain ⟨first, last⟩ := range
    obtain ⟨hphys, rfl, -, hlast⟩ := rangeFrames_spec hrange
    have hfirst : phys / 4096 = first := by
      rw [hphys, Nat.mul_div_cancel_left _ (by decide)]
    rw [hfirst, Bool.and_eq_true]
    constructor
    · intro h
      exact ⟨by omega, by omega, h⟩
    · rintro ⟨-, -, h⟩
      exact h

/-- An allocated page is a frame of a usable region. -/
theorem PmmInv.page_usable (hinv : PmmInv map s) (h : phys ∈ allocatedPages s) :
    phys % 4096 = 0 ∧ phys < 2 ^ 64 ∧ phys / 4096 ∈ usableFrames map.regions := by
  obtain ⟨halign, hlt, hel, -⟩ := (mem_allocatedPages hinv.init).1 h
  have hspan := hinv.layout.span_le
  exact ⟨halign, by omega, hinv.usable _ hlt hel⟩

theorem pmmAllocPage_spec (hinv : PmmInv map s) :
    ∃ s' result, pmmAllocPage s = (s', result) ∧ PmmInv map s' ∧ SameSpan s s' ∧
      ((result = none ∧ s' = s) ∨ ∃ phys, result = some phys ∧ phys ∉ allocatedPages s ∧
        allocatedPages s' = insert phys (allocatedPages s)) := by
  obtain ⟨s', result, hcall, hinv', hsame, hout⟩ := pmmCoreAllocPages_spec hinv 1
  refine ⟨s', result, hcall, hinv', hsame, ?_⟩
  rcases hout with hnone | ⟨first, hsome, hrun⟩
  · exact Or.inl hnone
  · have hfirst : first < s.plan.spanFrames := by
      have := hrun.within
      omega
    refine Or.inr ⟨first * 4096, hsome, ?_, ?_⟩
    · intro h
      obtain ⟨-, -, -, hocc⟩ := (mem_allocatedPages hinv.init).1 h
      rw [Nat.mul_div_cancel _ (by decide), (hrun.free first (le_refl _) (by omega)).2] at hocc
      cases hocc
    · ext phys
      rw [Set.mem_insert_iff, mem_allocatedPages hinv'.init,
        mem_allocatedPages hinv.init, hsame.plan]
      constructor
      · rintro ⟨halign, hlt, hel, hocc⟩
        rw [hrun.eligible _ hlt] at hel
        rw [hrun.occupied _ hlt] at hocc
        by_cases hin : first ≤ phys / 4096 ∧ phys / 4096 < first + 1
        · exact Or.inl (by omega)
        · rw [if_neg hin] at hocc
          exact Or.inr ⟨halign, hlt, hel, hocc⟩
      · rintro (rfl | ⟨halign, hlt, hel, hocc⟩)
        · rw [Nat.mul_div_cancel _ (by decide), hrun.eligible _ hfirst, hrun.occupied _ hfirst,
            if_pos (by omega)]
          exact ⟨by omega, hfirst, (hrun.free first (le_refl _) (by omega)).1, rfl⟩
        · rw [hrun.eligible _ hlt, hrun.occupied _ hlt, hocc]
          exact ⟨halign, hlt, hel, ite_self _⟩

theorem pmmFreePage_spec (hinv : PmmInv map s) (h : phys ∈ allocatedPages s) :
    ∃ s', pmmFreePage s phys = (s', true) ∧ PmmInv map s' ∧ SameSpan s s' ∧
      allocatedPages s' = allocatedPages s \ {phys} := by
  obtain ⟨s', ok, hcall, hinv', hsame, hout⟩ := pmmCoreFreePages_spec hinv phys 1
  obtain ⟨halign, hlt, hel, hocc⟩ := (mem_allocatedPages hinv.init).1 h
  rcases hout with ⟨rfl, rfl, hwhy⟩ | ⟨rfl, first, hrun⟩
  · obtain ⟨g, hg1, hg2, hg3⟩ := hwhy halign (by decide) (by omega)
    obtain rfl : g = phys / 4096 := by omega
    exact absurd ⟨hel, hocc⟩ hg3
  · have hfirst : phys / 4096 = first := by
      rw [hrun.phys_eq, Nat.mul_div_cancel_left _ (by decide)]
    refine ⟨s', hcall, hinv', hsame, ?_⟩
    ext q
    rw [Set.mem_sdiff, Set.mem_singleton_iff, mem_allocatedPages hinv'.init,
      mem_allocatedPages hinv.init, hsame.plan]
    constructor
    · rintro ⟨hqa, hql, hqe, hqo⟩
      rw [hrun.eligible _ hql] at hqe
      rw [hrun.occupied _ hql] at hqo
      split at hqo
      · cases hqo
      · exact ⟨⟨hqa, hql, hqe, hqo⟩, by omega⟩
    · rintro ⟨⟨hqa, hql, hqe, hqo⟩, hne⟩
      rw [hrun.eligible _ hql, hrun.occupied _ hql, if_neg (by omega)]
      exact ⟨hqa, hql, hqe, hqo⟩

/-! ## Unavailable pages -/

/-- An unavailable page is not allocated. -/
theorem reserved_not_allocated (hinit : s.initialized = true) (h : phys ∈ reservedPages s) :
    phys ∉ allocatedPages s := by
  intro halloc
  obtain ⟨-, hlt, hel, -⟩ := (mem_allocatedPages hinit).1 halloc
  exact h.2 ⟨hlt, hel⟩

/-- A page outside the usable regions is unavailable. -/
theorem PmmInv.mem_reserved (hinv : PmmInv map s) (halign : phys % 4096 = 0)
    (hnot : phys / 4096 ∉ usableFrames map.regions) : phys ∈ reservedPages s :=
  ⟨halign, fun h => hnot (hinv.usable _ h.1 h.2)⟩

theorem reservedPages_congr {s' : PmmState} (hsame : SameSpan s s')
    (hel : ∀ g, g < s.plan.spanFrames → s'.isEligible g = s.isEligible g) :
    reservedPages s' = reservedPages s := by
  ext phys
  rw [reservedPages, reservedPages, Set.mem_ofPred_eq, Set.mem_ofPred_eq, hsame.plan]
  refine and_congr_right fun _ => not_congr (and_congr_right fun hlt => ?_)
  rw [hel _ hlt]

theorem pmmAllocPage_reserved (hinv : PmmInv map s) :
    reservedPages (pmmAllocPage s).1 = reservedPages s := by
  obtain ⟨s', result, hcall, -, hsame, hout⟩ := pmmCoreAllocPages_spec hinv 1
  rw [pmmAllocPage, hcall]
  rcases hout with ⟨-, rfl⟩ | ⟨first, -, hrun⟩
  · rfl
  · exact reservedPages_congr hsame hrun.eligible

theorem pmmFreePage_reserved (hinv : PmmInv map s) (phys : Nat) :
    reservedPages (pmmFreePage s phys).1 = reservedPages s := by
  obtain ⟨s', ok, hcall, -, hsame, hout⟩ := pmmCoreFreePages_spec hinv phys 1
  rw [pmmFreePage, hcall]
  rcases hout with ⟨-, rfl, -⟩ | ⟨-, first, hrun⟩
  · rfl
  · exact reservedPages_congr hsame hrun.eligible

/-- Pinning makes an allocated page unavailable. -/
theorem pmmPinPage_spec (hinv : PmmInv map s) (h : phys ∈ allocatedPages s) :
    ∃ s', pmmPinPage s phys = (s', true) ∧ PmmInv map s' ∧ SameSpan s s' ∧
      allocatedPages s' = allocatedPages s \ {phys} ∧
      reservedPages s' = insert phys (reservedPages s) := by
  obtain ⟨halign, hlt, hel, hocc⟩ := (mem_allocatedPages hinv.init).1 h
  obtain ⟨s', ok, hcall, hinv', hsame, hout⟩ := pmmCorePinPage_spec hinv phys
  rcases hout with ⟨rfl, -⟩ | ⟨rfl, first, hpin⟩
  · -- The pin of an allocated page is not refused.
    rw [pmmCorePinPage] at hcall
    cases hrange : rangeFrames s phys 1 with
    | none =>
      have hnot : pmmIsAllocatedPage s phys = false := by
        rw [pmmIsAllocatedPage, pmmCoreIsAllocatedPage, hrange]
      exact absurd (hnot.symm.trans h) Bool.false_ne_true
    | some range =>
      obtain ⟨first, last⟩ := range
      obtain ⟨hphys, -, -, -⟩ := rangeFrames_spec hrange
      have hfirst : phys / 4096 = first := by
        rw [hphys, Nat.mul_div_cancel_left _ (by decide)]
      rw [hfirst] at hel hocc
      rw [PmmState.isEligible] at hel
      rw [PmmState.isOccupied] at hocc
      rw [hrange] at hcall
      simp only [hel, hocc, not_true_eq_false, or_self, if_false] at hcall
      exact absurd (congrArg Prod.snd hcall) Bool.true_eq_false.mp
  · have hfirst : phys / 4096 = first := by
      rw [hpin.phys_eq, Nat.mul_div_cancel_left _ (by decide)]
    refine ⟨s', hcall, hinv', hsame, ?_, ?_⟩
    · ext q
      rw [Set.mem_sdiff, Set.mem_singleton_iff, mem_allocatedPages hinv'.init,
        mem_allocatedPages hinv.init, hsame.plan]
      constructor
      · rintro ⟨hqa, hql, hqe, hqo⟩
        rw [hpin.eligible _ hql] at hqe
        rw [hpin.occupied _ hql] at hqo
        split at hqe
        · cases hqe
        · exact ⟨⟨hqa, hql, hqe, hqo⟩, by omega⟩
      · rintro ⟨⟨hqa, hql, hqe, hqo⟩, hne⟩
        rw [hpin.eligible _ hql, hpin.occupied _ hql, if_neg (by omega)]
        exact ⟨hqa, hql, hqe, hqo⟩
    · ext q
      rw [Set.mem_insert_iff, reservedPages, reservedPages, Set.mem_ofPred_eq, Set.mem_ofPred_eq,
        hsame.plan]
      constructor
      · rintro ⟨hqa, hq⟩
        by_cases heq : q = phys
        · exact Or.inl heq
        · refine Or.inr ⟨hqa, fun hin => hq ⟨hin.1, ?_⟩⟩
          rw [hpin.eligible _ hin.1, if_neg (by omega)]
          exact hin.2
      · rintro (rfl | ⟨hqa, hq⟩)
        · refine ⟨halign, fun hin => ?_⟩
          rw [hpin.eligible _ hin.1, if_pos hfirst] at hin
          exact absurd hin.2 Bool.false_ne_true
        · refine ⟨hqa, fun hin => hq ⟨hin.1, ?_⟩⟩
          have hin2 := hin.2
          rw [hpin.eligible _ hin.1] at hin2
          split at hin2
          · cases hin2
          · exact hin2

/-- A release, whether it succeeds or not, affects at most the page it was asked about. -/
theorem pmmFreePage_any (hinv : PmmInv map s) (phys : Nat) :
    ∃ s' ok, pmmFreePage s phys = (s', ok) ∧ PmmInv map s' ∧
      allocatedPages s \ {phys} ⊆ allocatedPages s' := by
  by_cases h : phys ∈ allocatedPages s
  · obtain ⟨s', hcall, hinv', -, hset⟩ := pmmFreePage_spec hinv h
    exact ⟨s', true, hcall, hinv', hset.ge⟩
  · obtain ⟨s', ok, hcall, hinv', -, hout⟩ := pmmCoreFreePages_spec hinv phys 1
    refine ⟨s', ok, hcall, hinv', ?_⟩
    rcases hout with ⟨-, rfl, -⟩ | ⟨-, first, hrun⟩
    · exact Set.sdiff_subset
    · refine absurd ((mem_allocatedPages hinv.init).2 ?_) h
      have hfirst : phys / 4096 = first := by
        rw [hrun.phys_eq, Nat.mul_div_cancel_left _ (by decide)]
      have hphys := hrun.phys_eq
      have hwithin := hrun.within
      obtain ⟨hel, hocc⟩ := hrun.allocated first (le_refl _) (by omega)
      rw [hfirst]
      exact ⟨by omega, by omega, hel, hocc⟩

end Utamo.Pmm
