import Utamo.Pmm.Invariant

/-!
# The operations of the frame allocator

What `pmm_core_reserve_range`, `pmm_core_alloc_pages`, `pmm_core_free_pages` and `pmm_core_pin_page`
do, with arbitrary arguments, to an allocator in order: a call that fails changes nothing, and one
that succeeds changes the bits of the frames it is about. Every one of them keeps `PmmInv`.
-/

set_option autoImplicit false

namespace Utamo.Pmm

open Lib Memory

variable {map : MemoryMap} {s s' : PmmState}

/-! ## Reserving a range -/

/-- A frame with a byte in the range. -/
def Touches (phys bytes frame : Nat) : Prop :=
  4096 * frame < phys + bytes ∧ phys < 4096 * frame + 4096

instance (phys bytes frame : Nat) : Decidable (Touches phys bytes frame) :=
  inferInstanceAs (Decidable (_ ∧ _))

/-- What a successful reservation does: the frames of the range are unavailable afterwards. -/
structure RangeReserved (s : PmmState) (phys bytes : Nat) (s' : PmmState) : Prop where
  unallocated : ∀ g, g < s.plan.spanFrames → Touches phys bytes g →
    ¬ (s.isEligible g = true ∧ s.isOccupied g = true)
  eligible : ∀ g, g < s.plan.spanFrames →
    s'.isEligible g = if Touches phys bytes g then false else s.isEligible g
  occupied : ∀ g, g < s.plan.spanFrames →
    s'.isOccupied g = if Touches phys bytes g then true else s.isOccupied g

/-- Why a reservation may fail: the range is empty or too high, or a frame of it is allocated. -/
def ReserveRefused (s : PmmState) (phys bytes : Nat) : Prop :=
  bytes = 0 ∨ uint64Max < phys + bytes + 4095 ∨ ∃ g, g < s.plan.spanFrames ∧ Touches phys bytes g ∧
    s.isEligible g = true ∧ s.isOccupied g = true

theorem pmmCoreReserveRange_spec (hinv : PmmInv map s) (phys bytes : Nat) :
    ∃ s' ok, pmmCoreReserveRange s phys bytes = (s', ok) ∧ PmmInv map s' ∧ SameSpan s s' ∧
      ((ok = false ∧ s' = s ∧ ReserveRefused s phys bytes) ∨
        (ok = true ∧ RangeReserved s phys bytes s')) := by
  have hsize : memoryPageSize = 4096 := rfl
  have hmax : uint64Max = 2 ^ 64 - 1 := rfl
  have hfail : ReserveRefused s phys bytes → ∃ s' ok, (s, false) = (s', ok) ∧ PmmInv map s' ∧
      SameSpan s s' ∧ ((ok = false ∧ s' = s ∧ ReserveRefused s phys bytes) ∨
        (ok = true ∧ RangeReserved s phys bytes s')) :=
    fun h => ⟨s, false, rfl, hinv, SameSpan.refl s, Or.inl ⟨rfl, rfl, h⟩⟩
  rw [pmmCoreReserveRange]
  split
  · rename_i hargs
    refine hfail ?_
    rcases hargs with h | h | h
    · exact absurd hinv.init h
    · exact Or.inl h
    · exact Or.inr (Or.inl (by omega))
  rename_i hargs
  simp only [not_or, not_not] at hargs
  cases halign : memoryAlignUp (phys + bytes) with
  | none =>
    refine hfail (Or.inr (Or.inl ?_))
    rw [memoryAlignUp, hsize] at halign
    split at halign
    · omega
    · cases halign
  | some endAddress =>
    obtain ⟨h1, h2, h3, -⟩ := memoryAlignUp_eq halign
    simp only [hsize]
    obtain ⟨last, hlast⟩ : ∃ last, last = if s.plan.spanFrames < endAddress / 4096 then
      s.plan.spanFrames else endAddress / 4096 := ⟨_, rfl⟩
    have hle : last ≤ s.plan.spanFrames := by
      rw [hlast]
      split <;> omega
    -- Below the span, the frames of the loop are those with a byte in the range.
    have hiff : ∀ g, g < s.plan.spanFrames →
        (phys / 4096 ≤ g ∧ g < last ↔ Touches phys bytes g) := by
      intro g hg
      rw [hlast, Touches]
      split <;> omega
    rw [← hlast]
    split
    · rename_i hany
      refine hfail (Or.inr (Or.inr ?_))
      by_contra hno
      have hnone : anyRange (phys / 4096) last (fun frame =>
          bitmapTest s.memory s.eligible frame &&
            bitmapTest s.memory s.occupied frame) = false := by
        rw [anyRange_eq_false]
        intro g hg1 hg2
        by_contra hbits
        rw [Bool.not_eq_false, Bool.and_eq_true] at hbits
        exact hno ⟨g, by omega, (hiff g (by omega)).1 ⟨hg1, hg2⟩, hbits⟩
      rw [hnone] at hany
      cases hany
    · rename_i hany
      rw [Bool.not_eq_true, anyRange_eq_false] at hany
      have hnot : ∀ g, phys / 4096 ≤ g → g < last →
          ¬ (s.isEligible g = true ∧ s.isOccupied g = true) := by
        rintro g hg1 hg2 ⟨he, ho⟩
        have h := hany g hg1 hg2
        rw [PmmState.isEligible] at he
        rw [PmmState.isOccupied] at ho
        rw [he, ho] at h
        cases h
      have hres := reserveFrames_spec hinv hle hnot
      refine ⟨_, true, rfl, hres.inv, hres.same, Or.inr ⟨rfl, ⟨?_, ?_, ?_⟩⟩⟩
      · intro g hg htouch
        obtain ⟨hg1, hg2⟩ := (hiff g hg).2 htouch
        exact hnot g hg1 hg2
      · intro g hg
        rw [hres.eligible g hg]
        exact if_congr (hiff g hg) rfl rfl
      · intro g hg
        rw [hres.occupied g hg]
        exact if_congr (hiff g hg) rfl rfl

/-! ## Allocating -/

theorem findRunLoop_succ (count remaining frame run : Nat) :
    findRunLoop s count (remaining + 1) frame run =
      if ¬ s.isOccupied frame = true then
        if run + 1 = count then some (frame - (count - 1))
        else findRunLoop s count remaining (frame + 1) (run + 1)
      else findRunLoop s count remaining (frame + 1) 0 := rfl

/-- `find_run` returns a run of unoccupied frames of the span. -/
theorem findRunLoop_spec {count : Nat} (remaining frame run first : Nat)
    (hspan : frame + remaining = s.plan.spanFrames) (hrun : run < count) (hframe : run ≤ frame)
    (hfree : ∀ g, frame - run ≤ g → g < frame → s.isOccupied g = false)
    (h : findRunLoop s count remaining frame run = some first) :
    first + count ≤ s.plan.spanFrames ∧
      ∀ g, first ≤ g → g < first + count → s.isOccupied g = false := by
  induction remaining generalizing frame run with
  | zero => cases h
  | succ remaining ih =>
    rw [findRunLoop_succ] at h
    by_cases hocc : s.isOccupied frame = true
    · rw [if_neg (not_not.2 hocc)] at h
      exact ih (frame + 1) 0 (by omega) (by omega) (by omega) (by omega) h
    · have hcur : s.isOccupied frame = false := by simpa using hocc
      have hfree' : ∀ g, frame - run ≤ g → g < frame + 1 → s.isOccupied g = false := by
        intro g hg1 hg2
        by_cases hg : g = frame
        · rw [hg]
          exact hcur
        · exact hfree g hg1 (by omega)
      rw [if_pos hocc] at h
      split at h
      · cases h
        refine ⟨by omega, fun g hg1 hg2 => hfree' g (by omega) (by omega)⟩
      · refine ih (frame + 1) (run + 1) (by omega) (by omega) (by omega) ?_ h
        exact fun g hg1 hg2 => hfree' g (by omega) (by omega)

theorem findFrames_spec {count first : Nat} (hcount : 0 < count)
    (hcursor : s.cursor ≤ s.plan.spanFrames) (h : findFrames s count = some first) :
    first + count ≤ s.plan.spanFrames ∧
      ∀ g, first ≤ g → g < first + count → s.isOccupied g = false := by
  have hrun : ∀ start, start ≤ s.plan.spanFrames → findRun s start count = some first →
      first + count ≤ s.plan.spanFrames ∧
        ∀ g, first ≤ g → g < first + count → s.isOccupied g = false := by
    intro start hstart hfind
    exact findRunLoop_spec (s.plan.spanFrames - start) start 0 first (by omega) hcount (by omega)
      (by omega) hfind
  rw [findFrames] at h
  split at h
  · rename_i found hfind
    cases h
    exact hrun s.cursor hcursor hfind
  · split at h
    · cases h
    · exact hrun 0 (by omega) h

/-- What it means for the frames that a range of the bitmap of occupied frames is set. -/
theorem PmmInv.setOccupied (hinv : PmmInv map s) {first count freeFrames cursor : Nat}
    {value : Bool} {t : PmmState} (ht : t = { s with
      memory := Bitmap.setRange s.memory s.occupied first (first + count - first) value
      freeFrames, cursor }) :
    SameSpan s t ∧ (∀ g, g < s.plan.spanFrames → t.isEligible g = s.isEligible g) ∧
      (∀ g, t.isOccupied g = if first ≤ g ∧ g < first + count then value else s.isOccupied g) ∧
      ∀ g, g ∈ freeSet t ↔ g < s.plan.spanFrames ∧ s.isEligible g = true ∧
        (if first ≤ g ∧ g < first + count then value else s.isOccupied g) = false := by
  have hel : ∀ g, g < s.plan.spanFrames → t.isEligible g = s.isEligible g := by
    rw [ht]
    exact fun g hg => hinv.layout.eligible_setRange_occupied hg
  have hocc : ∀ g, t.isOccupied g =
      if first ≤ g ∧ g < first + count then value else s.isOccupied g := by
    rw [ht]
    exact fun g => (bitmapTest_setRange _ _ _ _ _ _).trans (if_congr (by omega) rfl rfl)
  have hsame : SameSpan s t := by
    rw [ht]
    exact ⟨rfl, rfl, rfl, rfl, rfl⟩
  refine ⟨hsame, hel, hocc, fun g => ?_⟩
  rw [freeSet, Finset.mem_filter, Finset.mem_range, hsame.plan, ← hocc g]
  exact and_congr_right fun hg => by rw [hel g hg]

/-- What a successful allocation does: a run of free frames is occupied. -/
structure RunAllocated (s : PmmState) (count first : Nat) (s' : PmmState) : Prop where
  count_pos : 0 < count
  within : first + count ≤ s.plan.spanFrames
  free : ∀ g, first ≤ g → g < first + count → s.isEligible g = true ∧ s.isOccupied g = false
  eligible : ∀ g, g < s.plan.spanFrames → s'.isEligible g = s.isEligible g
  occupied : ∀ g, g < s.plan.spanFrames →
    s'.isOccupied g = if first ≤ g ∧ g < first + count then true else s.isOccupied g

theorem pmmCoreAllocPages_spec (hinv : PmmInv map s) (count : Nat) :
    ∃ s' result, pmmCoreAllocPages s count = (s', result) ∧ PmmInv map s' ∧ SameSpan s s' ∧
      ((result = none ∧ s' = s) ∨
        ∃ first, result = some (first * 4096) ∧ RunAllocated s count first s') := by
  have hsize : memoryPageSize = 4096 := rfl
  rw [pmmCoreAllocPages]
  split
  · exact ⟨s, none, rfl, hinv, SameSpan.refl s, Or.inl ⟨rfl, rfl⟩⟩
  rename_i hargs
  simp only [not_or, not_not] at hargs
  cases hfind : findFrames s count with
  | none => exact ⟨s, none, rfl, hinv, SameSpan.refl s, Or.inl ⟨rfl, rfl⟩⟩
  | some first =>
    have hcount : 0 < count := by omega
    obtain ⟨hwithin, hunocc⟩ := findFrames_spec hcount hinv.cursor_lt.le hfind
    have hfree : ∀ g, first ≤ g → g < first + count → g ∈ freeSet s := fun g h1 h2 =>
      hinv.mem_freeSet (by omega) (hunocc g h1 h2)
    obtain ⟨t, ht⟩ : ∃ t, t = { s with
        memory := Bitmap.setRange s.memory s.occupied first (first + count - first) true
        freeFrames := subU64 s.freeFrames count
        cursor := if first + count = s.plan.spanFrames then 0 else first + count } := ⟨_, rfl⟩
    obtain ⟨hsame, hel, hocc, hmem⟩ := hinv.setOccupied ht
    have hset : freeSet t = freeSet s \ Finset.Ico first (first + count) := by
      ext g
      rw [Finset.mem_sdiff, hmem, freeSet, Finset.mem_filter, Finset.mem_range, Finset.mem_Ico]
      by_cases hin : first ≤ g ∧ g < first + count
      · simp [hin]
      · rw [if_neg hin, and_iff_left hin]
    have hsub : Finset.Ico first (first + count) ⊆ freeSet s := by
      intro g hg
      rw [Finset.mem_Ico] at hg
      exact hfree g hg.1 hg.2
    refine ⟨t, some (first * 4096), ?_, hinv.of_bits hsame ?_ ?_ ?_ ?_, hsame,
      Or.inr ⟨first, rfl, ⟨hcount, hwithin, ?_, hel, fun g _ => hocc g⟩⟩⟩
    · rw [ht]
      rfl
    · intro g hg h
      rw [← hel g hg]
      exact h
    · intro g hg h
      rw [hel g hg] at h
      rw [hocc g]
      split
      · rfl
      · exact hinv.occupied_of g hg h
    · rw [hset, Finset.card_sdiff_of_subset hsub, Nat.card_Ico, ← hinv.free_eq, ht]
      refine (subU64_of_le (by omega) hinv.free_lt).trans ?_
      omega
    · rw [ht]
      show (if first + count = s.plan.spanFrames then 0 else first + count) < s.plan.spanFrames
      have := hinv.cursor_lt
      split <;> omega
    · intro g h1 h2
      have := hfree g h1 h2
      rw [freeSet, Finset.mem_filter] at this
      exact this.2

/-! ## Freeing and pinning -/

theorem rangeFrames_spec {phys count first last : Nat}
    (h : rangeFrames s phys count = some (first, last)) :
    phys = 4096 * first ∧ last = first + count ∧ 0 < count ∧ last ≤ s.plan.spanFrames := by
  have hsize : memoryPageSize = 4096 := rfl
  rw [rangeFrames] at h
  split at h
  · cases h
  · rename_i hargs
    simp only [not_or, not_not] at hargs
    have halign := memoryIsPageAligned_iff.1 hargs.2.2
    simp only [hsize] at h
    split at h
    · cases h
    · cases h
      omega

theorem rangeFrames_eq (hinit : s.initialized = true) {phys count : Nat} (halign : phys % 4096 = 0)
    (hcount : 0 < count) (hwithin : phys / 4096 + count ≤ s.plan.spanFrames) :
    rangeFrames s phys count = some (phys / 4096, phys / 4096 + count) := by
  have hsize : memoryPageSize = 4096 := rfl
  have hargs : ¬ (¬ s.initialized = true ∨ count = 0 ∨ ¬ memoryIsPageAligned phys = true) := by
    rintro (h | h | h)
    · exact h hinit
    · omega
    · exact h (memoryIsPageAligned_iff.2 halign)
  rw [rangeFrames, if_neg hargs, hsize]
  exact if_neg (by omega)

/-- What a successful release does: a run of allocated frames is free. -/
structure RunFreed (s : PmmState) (phys count first : Nat) (s' : PmmState) : Prop where
  phys_eq : phys = 4096 * first
  count_pos : 0 < count
  within : first + count ≤ s.plan.spanFrames
  allocated : ∀ g, first ≤ g → g < first + count → s.isEligible g = true ∧ s.isOccupied g = true
  eligible : ∀ g, g < s.plan.spanFrames → s'.isEligible g = s.isEligible g
  occupied : ∀ g, g < s.plan.spanFrames →
    s'.isOccupied g = if first ≤ g ∧ g < first + count then false else s.isOccupied g

/-- A range of the span whose release fails has a frame that is not allocated. -/
def FreeRefused (s : PmmState) (phys count : Nat) : Prop :=
  phys % 4096 = 0 → 0 < count → phys / 4096 + count ≤ s.plan.spanFrames →
    ∃ g, phys / 4096 ≤ g ∧ g < phys / 4096 + count ∧
      ¬ (s.isEligible g = true ∧ s.isOccupied g = true)

theorem pmmCoreFreePages_spec (hinv : PmmInv map s) (phys count : Nat) :
    ∃ s' ok, pmmCoreFreePages s phys count = (s', ok) ∧ PmmInv map s' ∧ SameSpan s s' ∧
      ((ok = false ∧ s' = s ∧ FreeRefused s phys count) ∨
        (ok = true ∧ ∃ first, RunFreed s phys count first s')) := by
  rw [pmmCoreFreePages]
  cases hrange : rangeFrames s phys count with
  | none =>
    refine ⟨s, false, rfl, hinv, SameSpan.refl s, Or.inl ⟨rfl, rfl, fun h1 h2 h3 => ?_⟩⟩
    rw [rangeFrames_eq hinv.init h1 h2 h3] at hrange
    cases hrange
  | some range =>
    obtain ⟨first, last⟩ := range
    obtain ⟨hphys, rfl, hcount, hwithin⟩ := rangeFrames_spec hrange
    have hfirst : phys / 4096 = first := by
      rw [hphys, Nat.mul_div_cancel_left _ (by decide)]
    simp only
    split
    · rename_i hany
      refine ⟨s, false, rfl, hinv, SameSpan.refl s, Or.inl ⟨rfl, rfl, fun _ _ _ => ?_⟩⟩
      by_contra hno
      have hnone : anyRange first (first + count) (fun frame =>
          !bitmapTest s.memory s.eligible frame ||
            !bitmapTest s.memory s.occupied frame) = false := by
        rw [anyRange_eq_false]
        intro g hg1 hg2
        rw [Bool.or_eq_false_iff, Bool.not_eq_false', Bool.not_eq_false']
        by_contra hbits
        exact hno ⟨g, by omega, by omega, hbits⟩
      rw [hnone] at hany
      cases hany
    rename_i hany
    rw [Bool.not_eq_true, anyRange_eq_false] at hany
    have hallocated : ∀ g, first ≤ g → g < first + count →
        s.isEligible g = true ∧ s.isOccupied g = true := by
      intro g h1 h2
      have h := hany g h1 h2
      rw [Bool.or_eq_false_iff, Bool.not_eq_false', Bool.not_eq_false'] at h
      exact h
    obtain ⟨t, ht⟩ : ∃ t, t = { s with
        memory := Bitmap.setRange s.memory s.occupied first (first + count - first) false
        freeFrames := addU64 s.freeFrames count } := ⟨_, rfl⟩
    obtain ⟨hsame, hel, hocc, hmem⟩ := hinv.setOccupied ht
    have hset : freeSet t = freeSet s ∪ Finset.Ico first (first + count) := by
      ext g
      rw [Finset.mem_union, hmem, freeSet, Finset.mem_filter, Finset.mem_range, Finset.mem_Ico]
      by_cases hin : first ≤ g ∧ g < first + count
      · rw [if_pos hin]
        exact iff_of_true ⟨by omega, (hallocated g hin.1 hin.2).1, rfl⟩ (Or.inr hin)
      · rw [if_neg hin, or_iff_left hin]
    have hdisjoint : Disjoint (freeSet s) (Finset.Ico first (first + count)) := by
      rw [Finset.disjoint_left]
      intro g hg hin
      rw [freeSet, Finset.mem_filter] at hg
      rw [Finset.mem_Ico] at hin
      rw [(hallocated g hin.1 hin.2).2] at hg
      cases hg.2.2
    have hcard : (freeSet t).card = s.freeFrames + count := by
      rw [hset, Finset.card_union_of_disjoint hdisjoint, Nat.card_Ico, ← hinv.free_eq]
      omega
    refine ⟨t, true, ?_, hinv.of_bits hsame ?_ ?_ ?_ ?_, hsame,
      Or.inr ⟨rfl, first, ⟨hphys, hcount, hwithin, hallocated, hel, fun g _ => hocc g⟩⟩⟩
    · rw [ht]
      rfl
    · intro g hg h
      rw [← hel g hg]
      exact h
    · intro g hg h
      rw [hel g hg] at h
      rw [hocc g]
      split
      · rename_i hin
        rw [(hallocated g hin.1 hin.2).1] at h
        cases h
      · exact hinv.occupied_of g hg h
    · have hle : (freeSet t).card ≤ s.plan.spanFrames := by
        calc (freeSet t).card ≤ (Finset.range t.plan.spanFrames).card := Finset.card_filter_le _ _
          _ = s.plan.spanFrames := by rw [Finset.card_range, hsame.plan]
      have hspan := hinv.layout.span_le
      rw [hcard, ht]
      refine addU64_of_lt ?_
      rw [hcard] at hle
      exact (hle.trans hspan).trans_lt (by decide)
    · rw [ht]
      exact hinv.cursor_lt

/-- What a successful pin does: an allocated frame is unavailable. -/
structure FramePinned (s : PmmState) (phys first : Nat) (s' : PmmState) : Prop where
  phys_eq : phys = 4096 * first
  within : first < s.plan.spanFrames
  allocated : s.isEligible first = true ∧ s.isOccupied first = true
  eligible : ∀ g, g < s.plan.spanFrames →
    s'.isEligible g = if g = first then false else s.isEligible g
  occupied : ∀ g, g < s.plan.spanFrames → s'.isOccupied g = s.isOccupied g

theorem pmmCorePinPage_spec (hinv : PmmInv map s) (phys : Nat) :
    ∃ s' ok, pmmCorePinPage s phys = (s', ok) ∧ PmmInv map s' ∧ SameSpan s s' ∧
      ((ok = false ∧ s' = s) ∨ (ok = true ∧ ∃ first, FramePinned s phys first s')) := by
  rw [pmmCorePinPage]
  cases hrange : rangeFrames s phys 1 with
  | none => exact ⟨s, false, rfl, hinv, SameSpan.refl s, Or.inl ⟨rfl, rfl⟩⟩
  | some range =>
    obtain ⟨first, last⟩ := range
    obtain ⟨hphys, rfl, -, hwithin⟩ := rangeFrames_spec hrange
    have hfirst : first < s.plan.spanFrames := by omega
    simp only
    split
    · exact ⟨s, false, rfl, hinv, SameSpan.refl s, Or.inl ⟨rfl, rfl⟩⟩
    rename_i hbits
    simp only [not_or, not_not] at hbits
    obtain ⟨t, ht⟩ : ∃ t, t = { s with memory := bitmapSet s.memory s.eligible first false } :=
      ⟨_, rfl⟩
    have hsame : SameSpan s t := by
      rw [ht]
      exact ⟨rfl, rfl, rfl, rfl, rfl⟩
    have hel : ∀ g, t.isEligible g = if g = first then false else s.isEligible g := by
      intro g
      rw [ht]
      exact bitmapTest_set _ _ _ _ _
    have hocc : ∀ g, t.isOccupied g = s.isOccupied g := by
      intro g
      rw [ht]
      exact hinv.layout.occupied_set_eligible hfirst
    -- The frame was not free before and is not free afterwards.
    have hset : freeSet t = freeSet s := by
      ext g
      rw [freeSet, freeSet, Finset.mem_filter, Finset.mem_filter, hsame.plan, hel, hocc]
      by_cases hg : g = first
      · rw [if_pos hg, hg]
        have := hbits.2
        rw [PmmState.isOccupied, this]
        simp
      · rw [if_neg hg]
    refine ⟨t, true, by rw [ht], hinv.of_bits hsame ?_ ?_ ?_ ?_, hsame,
      Or.inr ⟨rfl, first, ⟨hphys, hfirst, hbits, fun g _ => hel g, fun g _ => hocc g⟩⟩⟩
    · intro g _ h
      rw [hel] at h
      split at h
      · cases h
      · exact h
    · intro g hg h
      rw [hel] at h
      rw [hocc]
      split at h
      · rename_i heq
        rw [heq]
        exact hbits.2
      · exact hinv.occupied_of g hg h
    · rw [hset, ← hinv.free_eq, ht]
    · rw [ht]
      exact hinv.cursor_lt

end Utamo.Pmm
