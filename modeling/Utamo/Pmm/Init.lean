import Utamo.Pmm.Operations

/-!
# Planning and initializing the frame allocator

`pmm_plan` accepts a map when the bitmaps for all frames below the last usable one fit into usable
memory above frame zero (`PlanSound`). `pmm_core_init` then makes exactly the usable frames free,
except frame zero and those of the bitmaps (`pmmCoreInit_spec`).
-/

set_option autoImplicit false

namespace Utamo.Pmm

open Lib Lib.ByteMemory Memory

variable {map : MemoryMap}

/-! ## The plan -/

theorem planLoop_spec {regions : List MemoryRegion} {previous : Option Nat}
    {lastEnd usable l u : Nat} (h : planLoop regions previous lastEnd usable = some (l, u)) :
    lastEnd ≤ l ∧ (∀ r ∈ regions, r.type = .usable → r.base + r.length ≤ l) ∧
      (l = lastEnd ∨ ∃ r ∈ regions, r.type = .usable ∧ l = r.base + r.length) := by
  induction regions generalizing previous lastEnd usable with
  | nil =>
    cases h
    exact ⟨le_refl _, by simp, Or.inl rfl⟩
  | cons r rs ih =>
    rw [planLoop] at h
    split at h
    · cases h
    split at h
    · rename_i hne
      obtain ⟨h1, h2, h3⟩ := ih h
      refine ⟨h1, fun q hq ht => ?_, ?_⟩
      · rcases List.mem_cons.1 hq with rfl | hq
        · exact absurd ht hne
        · exact h2 q hq ht
      · rcases h3 with h3 | ⟨q, hq, ht, h3⟩
        · exact Or.inl h3
        · exact Or.inr ⟨q, List.mem_cons_of_mem _ hq, ht, h3⟩
    rename_i husable
    split at h
    · cases h
    have ht : r.type = .usable := not_not.1 husable
    obtain ⟨h1, h2, h3⟩ := ih h
    refine ⟨?_, fun q hq htq => ?_, ?_⟩
    · split at h1 <;> omega
    · rcases List.mem_cons.1 hq with rfl | hq
      · split at h1 <;> omega
      · exact h2 q hq htq
    · rcases h3 with h3 | ⟨q, hq, htq, h3⟩
      · split at h3
        · exact Or.inr ⟨r, List.mem_cons_self, ht, h3⟩
        · exact Or.inl h3
      · exact Or.inr ⟨q, List.mem_cons_of_mem _ hq, htq, h3⟩

theorem findStorage_spec {bytes start : Nat} {regions : List MemoryRegion}
    (h : findStorage bytes regions = some start) :
    ∃ r ∈ regions, r.type = .usable ∧ start = (if r.base = 0 then 4096 else r.base) ∧
      start + bytes ≤ r.base + r.length := by
  induction regions with
  | nil => cases h
  | cons r rs ih =>
    have hsize : memoryPageSize = 4096 := rfl
    have hrest : findStorage bytes rs = some start → ∃ q ∈ r :: rs, q.type = .usable ∧
        start = (if q.base = 0 then 4096 else q.base) ∧ start + bytes ≤ q.base + q.length := by
      intro hs
      obtain ⟨q, hq, hq'⟩ := ih hs
      exact ⟨q, List.mem_cons_of_mem _ hq, hq'⟩
    rw [findStorage] at h
    split at h
    · exact hrest h
    · rename_i husable
      simp only [hsize] at h
      generalize hplace : (if r.base = 0 then 4096 else r.base) = place at h
      split at h
      · rename_i hfit
        cases h
        exact ⟨r, List.mem_cons_self, not_not.1 husable, hplace.symm, by omega⟩
      · exact hrest h

/-- What `pmm_plan` promises. -/
structure PlanSound (map : MemoryMap) (plan : PmmPlan) : Prop where
  span_pos : 0 < plan.spanFrames
  span_le : plan.spanFrames ≤ 2 ^ 52
  capacity : plan.spanFrames ≤ 8 * plan.bitmapBytes
  bitmaps_le : 2 * plan.bitmapBytes ≤ plan.storageBytes
  usable_lt : ∀ f ∈ usableFrames map.regions, f < plan.spanFrames
  storage_aligned : plan.storagePhys % 4096 = 0 ∧ plan.storageBytes % 4096 = 0
  storage_pos : 4096 ≤ plan.storagePhys ∧ 0 < plan.storageBytes
  storage_le : plan.storagePhys + plan.storageBytes ≤ uint64Max

theorem pmmPlan_spec (hmap : MapSound map) {plan : PmmPlan} (h : pmmPlan map = some plan) :
    PlanSound map plan := by
  have hsize : memoryPageSize = 4096 := rfl
  have hmax : uint64Max = 2 ^ 64 - 1 := rfl
  rw [pmmPlan] at h
  split at h
  · cases h
  cases hloop : planLoop map.regions none 0 0 with
  | none =>
    rw [hloop] at h
    cases h
  | some result =>
    obtain ⟨lastEnd, usable⟩ := result
    obtain ⟨-, hends, hlast⟩ := planLoop_spec hloop
    rw [hloop] at h
    simp only [Option.bind_eq_bind, Option.bind_some, hsize, Option.pure_def] at h
    split at h
    · cases h
    rename_i hnonzero
    rw [not_or] at hnonzero
    generalize hbitmap : (lastEnd / 4096 / 8 + if lastEnd / 4096 % 8 ≠ 0 then 1 else 0) = bytes at h
    split at h
    · cases h
    cases halign : memoryAlignUp (bytes * 2) with
    | none =>
      rw [halign] at h
      cases h
    | some storageBytes =>
      obtain ⟨ha1, ha2, ha3, -⟩ := memoryAlignUp_eq halign
      rw [halign, Option.bind_some] at h
      split at h
      · cases h
      cases hstore : findStorage storageBytes map.regions with
      | none =>
        rw [hstore] at h
        cases h
      | some start =>
        rw [hstore, Option.bind_some] at h
        cases h
        obtain ⟨r, hr, ht, hstart, hfit⟩ := findStorage_spec hstore
        have hraligned := hmap.usable_aligned hr ht
        have hrend := (hmap.region r hr).end_le
        -- The end of the last usable region is a multiple of the page size.
        have hlast' : 4096 ≤ lastEnd ∧ lastEnd ≤ uint64Max := by
          rcases hlast with h0 | ⟨q, hq, htq, heq⟩
          · exact absurd h0 hnonzero.1
          · have h1 := (hmap.region q hq).end_le
            have h2 := hmap.usable_aligned hq htq
            have h3 := (hmap.region q hq).length_pos
            omega
        have hceil : lastEnd / 4096 ≤ 8 * bytes := by
          rw [← hbitmap]
          split <;> omega
        refine ⟨?_, ?_, hceil, ?_, ?_, ⟨?_, ha3⟩, ⟨?_, ?_⟩, ?_⟩
        · show 0 < lastEnd / 4096
          omega
        · show lastEnd / 4096 ≤ 2 ^ 52
          omega
        · show 2 * bytes ≤ storageBytes
          omega
        · intro f hf
          obtain ⟨q, hq, htq, -, hhi⟩ := mem_usableFrames.1 hf
          have := hends q hq htq
          show f < lastEnd / 4096
          omega
        · show start % 4096 = 0
          split at hstart <;> omega
        · show 4096 ≤ start
          split at hstart <;> omega
        · show 0 < storageBytes
          omega
        · show start + storageBytes ≤ uint64Max
          omega

/-! ## The bitmaps of a map -/

section Admit

variable {s : PmmState} (hl : Layout s)

include hl

/-- The frames of one usable region. -/
theorem admitFrames_spec (first : Nat) {last : Nat} (hlast : last ≤ s.plan.spanFrames)
    (memory : ByteMemory) {f : Nat} (hf : f < s.plan.spanFrames) :
    let memory' := forRange first last (admitFrame s.eligible s.occupied) memory
    bitmapTest memory' s.eligible f =
        (if first ≤ f ∧ f < last then true else bitmapTest memory s.eligible f) ∧
      bitmapTest memory' s.occupied f =
        (if first ≤ f ∧ f < last then false else bitmapTest memory s.occupied f) := by
  intro memory'
  by_cases hle : first ≤ last
  · refine forRange_invariant (P := fun i m =>
      bitmapTest m s.eligible f =
        (if first ≤ f ∧ f < i then true else bitmapTest memory s.eligible f) ∧
      bitmapTest m s.occupied f =
        (if first ≤ f ∧ f < i then false else bitmapTest memory s.occupied f)) hle ?_ ?_
    · rw [if_neg (by omega), if_neg (by omega)]
      exact ⟨rfl, rfl⟩
    · rintro i m hi1 hi2 ⟨he, ho⟩
      rw [admitFrame, hl.eligible_set_occupied hf, bitmapTest_set, bitmapTest_set,
        hl.occupied_set_eligible (by omega), he, ho]
      by_cases hfi : f = i
      · rw [if_pos hfi, if_pos hfi, if_pos (by omega), if_pos (by omega)]
        exact ⟨rfl, rfl⟩
      · rw [if_neg hfi, if_neg hfi]
        exact ⟨if_congr (by omega) rfl rfl, if_congr (by omega) rfl rfl⟩
  · show bitmapTest (forRange first last _ memory) s.eligible f = _ ∧
      bitmapTest (forRange first last _ memory) s.occupied f = _
    rw [forRange_of_le (by omega), if_neg (by omega), if_neg (by omega)]
    exact ⟨rfl, rfl⟩

/-- All regions: a frame is admitted when it is usable. -/
theorem admitRegions_spec (regions : List MemoryRegion)
    (hlt : ∀ f ∈ usableFrames regions, f < s.plan.spanFrames)
    (hnonempty : ∀ r ∈ regions, r.type = .usable → r.base / 4096 < (r.base + r.length) / 4096)
    (memory : ByteMemory) {f : Nat} (hf : f < s.plan.spanFrames) :
    let memory' := regions.foldl (admitRegion s.eligible s.occupied) memory
    bitmapTest memory' s.eligible f =
        (if f ∈ usableFrames regions then true else bitmapTest memory s.eligible f) ∧
      bitmapTest memory' s.occupied f =
        (if f ∈ usableFrames regions then false else bitmapTest memory s.occupied f) := by
  have hsize : memoryPageSize = 4096 := rfl
  induction regions generalizing memory with
  | nil => exact ⟨rfl, rfl⟩
  | cons r rs ih =>
    have hrest := ih (fun g hg => hlt g (by
      obtain ⟨q, hq, hq'⟩ := mem_usableFrames.1 hg
      exact mem_usableFrames.2 ⟨q, List.mem_cons_of_mem _ hq, hq'⟩))
      (fun q hq => hnonempty q (List.mem_cons_of_mem _ hq))
    by_cases ht : r.type = .usable
    · have hspan : (r.base + r.length) / 4096 ≤ s.plan.spanFrames := by
        have hne := hnonempty r List.mem_cons_self ht
        have := hlt ((r.base + r.length) / 4096 - 1)
          (mem_usableFrames.2 ⟨r, List.mem_cons_self, ht, by omega, by omega⟩)
        omega
      have hstep : admitRegion s.eligible s.occupied memory r =
          forRange (r.base / 4096) ((r.base + r.length) / 4096)
            (admitFrame s.eligible s.occupied) memory := by
        rw [admitRegion, if_neg (not_not.2 ht), hsize]
      have hloop := admitFrames_spec hl (r.base / 4096) hspan memory hf
      obtain ⟨h1, h2⟩ := hrest (admitRegion s.eligible s.occupied memory r)
      rw [← hstep] at hloop
      have hmem : f ∈ usableFrames (r :: rs) ↔
          (r.base / 4096 ≤ f ∧ f < (r.base + r.length) / 4096) ∨ f ∈ usableFrames rs := by
        rw [usableFrames, if_pos ht, Finset.mem_union, Finset.mem_Ico]
      show bitmapTest (rs.foldl _ _) _ _ = _ ∧ bitmapTest (rs.foldl _ _) _ _ = _
      rw [h1, h2, hloop.1, hloop.2]
      by_cases hin : r.base / 4096 ≤ f ∧ f < (r.base + r.length) / 4096
      · rw [if_pos hin, if_pos hin, if_pos (hmem.2 (Or.inl hin)), if_pos (hmem.2 (Or.inl hin))]
        exact ⟨ite_self _, ite_self _⟩
      · rw [if_neg hin, if_neg hin]
        have hiff : f ∈ usableFrames (r :: rs) ↔ f ∈ usableFrames rs := by
          rw [hmem]
          exact or_iff_right hin
        exact ⟨if_congr hiff.symm rfl rfl, if_congr hiff.symm rfl rfl⟩
    · have hstep : admitRegion s.eligible s.occupied memory r = memory := by
        rw [admitRegion, if_pos ht]
      have hset : usableFrames (r :: rs) = usableFrames rs := by
        rw [usableFrames, if_neg ht]
      rw [hset]
      show bitmapTest (rs.foldl _ (admitRegion s.eligible s.occupied memory r)) _ _ = _ ∧
        bitmapTest (rs.foldl _ (admitRegion s.eligible s.occupied memory r)) _ _ = _
      rw [hstep]
      exact hrest memory

end Admit

/-! ## Initialization -/

/-- The state of `pmm_core_init` before it reserves anything. -/
theorem admitted_inv (hmap : MapSound map) {s : PmmState} (hplan : PlanSound map s.plan)
    (hocc : s.occupied = s.eligible + s.plan.bitmapBytes) (memory : ByteMemory)
    (hmemory : s.memory = map.regions.foldl (admitRegion s.eligible s.occupied)
      (memset (memset memory s.eligible 0 s.plan.storageBytes) s.occupied 0xff s.plan.bitmapBytes))
    (hinit : s.initialized = true) (htotal : s.totalFrames = map.usableBytes / 4096)
    (hfree : s.freeFrames = map.usableBytes / 4096) (hcursor : s.cursor = 0) :
    PmmInv map s ∧ ∀ f, f < s.plan.spanFrames →
      ¬ (s.isEligible f = true ∧ s.isOccupied f = true) := by
  have hl : Layout s := ⟨hocc, hplan.capacity, hplan.span_le⟩
  have hcap := hplan.capacity
  have hstore := hplan.bitmaps_le
  have hnonempty : ∀ r ∈ map.regions, r.type = .usable →
      r.base / 4096 < (r.base + r.length) / 4096 := by
    intro r hr ht
    have h1 := hmap.usable_aligned hr ht
    have h2 := (hmap.region r hr).length_pos
    omega
  have hbits : ∀ f, f < s.plan.spanFrames →
      s.isEligible f = (if f ∈ usableFrames map.regions then true else false) ∧
      s.isOccupied f = (if f ∈ usableFrames map.regions then false else true) := by
    intro f hf
    have hall := admitRegions_spec hl map.regions hplan.usable_lt hnonempty
      (memset (memset memory s.eligible 0 s.plan.storageBytes) s.occupied 0xff
        s.plan.bitmapBytes) hf
    have hzero : bitmapTest (memset (memset memory s.eligible 0 s.plan.storageBytes) s.occupied 0xff
        s.plan.bitmapBytes) s.eligible f = false := by
      refine Bitmap.test_of_zero ?_
      rw [memset_of_outside (by omega), memset_of_inside (by omega) (by omega)]
    have hones : bitmapTest (memset (memset memory s.eligible 0 s.plan.storageBytes) s.occupied 0xff
        s.plan.bitmapBytes) s.occupied f = true := by
      refine Bitmap.test_of_ones ?_
      rw [memset_of_inside (by omega) (by omega)]
    rw [PmmState.isEligible, PmmState.isOccupied, hmemory, hall.1, hall.2, hzero, hones]
    exact ⟨rfl, rfl⟩
  have hfreeSet : freeSet s = usableFrames map.regions := by
    ext f
    rw [freeSet, Finset.mem_filter, Finset.mem_range]
    constructor
    · rintro ⟨hf, he, -⟩
      rw [(hbits f hf).1] at he
      by_contra hno
      rw [if_neg hno] at he
      cases he
    · intro hf
      have hlt := hplan.usable_lt f hf
      rw [(hbits f hlt).1, (hbits f hlt).2, if_pos hf, if_pos hf]
      exact ⟨hlt, rfl, rfl⟩
  have hcard : map.usableBytes / 4096 = (usableFrames map.regions).card := by
    rw [hmap.usable, ← card_usableFrames hmap.region hmap.apart]
    omega
  refine ⟨⟨hinit, hl, ?_, ?_, ?_, ?_, ?_⟩, ?_⟩
  · intro f hf he
    rw [(hbits f hf).1] at he
    rw [(hbits f hf).2]
    split at he
    · cases he
    · rename_i hno
      rw [if_neg hno]
  · rw [hfree, hfreeSet, hcard]
  · rw [hcursor]
    exact hplan.span_pos
  · intro f hf he
    rw [(hbits f hf).1] at he
    by_contra hno
    rw [if_neg hno] at he
    cases he
  · rw [htotal, hcard]
  · rintro f hf ⟨he, ho⟩
    rw [(hbits f hf).1] at he
    rw [(hbits f hf).2] at ho
    split at he
    · rename_i hin
      rw [if_pos hin] at ho
      cases ho
    · cases he

/-- A reservation of memory in which nothing is allocated succeeds. -/
theorem reserve_unallocated {s : PmmState} (hinv : PmmInv map s) (phys bytes : Nat)
    (hbytes : 0 < bytes) (hend : phys + bytes + 4095 ≤ uint64Max)
    (hnone : ∀ f, f < s.plan.spanFrames → ¬ (s.isEligible f = true ∧ s.isOccupied f = true)) :
    ∃ s', pmmCoreReserveRange s phys bytes = (s', true) ∧ PmmInv map s' ∧ SameSpan s s' ∧
      RangeReserved s phys bytes s' ∧
      ∀ f, f < s.plan.spanFrames → ¬ (s'.isEligible f = true ∧ s'.isOccupied f = true) := by
  obtain ⟨s', ok, hrun, hinv', hsame, hout⟩ := pmmCoreReserveRange_spec hinv phys bytes
  rcases hout with ⟨-, -, hrefused⟩ | ⟨rfl, hres⟩
  · rcases hrefused with h | h | ⟨g, hg, -, h⟩
    · omega
    · omega
    · exact absurd h (hnone g hg)
  · refine ⟨s', hrun, hinv', hsame, hres, ?_⟩
    rintro f hf ⟨he, ho⟩
    rw [hres.eligible f hf] at he
    rw [hres.occupied f hf] at ho
    split at he
    · cases he
    · rename_i hno
      rw [if_neg hno] at ho
      exact hnone f hf ⟨he, ho⟩

theorem pmmCoreInit_spec (hmap : MapSound map) {state s : PmmState} {plan : PmmPlan} {storage : Nat}
    (h : pmmCoreInit state map plan storage = some s) :
    PmmInv map s ∧ s.plan = plan ∧ PlanSound map plan ∧
      (∀ f, f < plan.spanFrames → f = 0 ∨ Touches plan.storagePhys plan.storageBytes f →
        s.isEligible f = false) ∧
      ∀ f, f < plan.spanFrames → ¬ (s.isEligible f = true ∧ s.isOccupied f = true) := by
  have hsize : memoryPageSize = 4096 := rfl
  have hmax : uint64Max = 2 ^ 64 - 1 := rfl
  rw [pmmCoreInit] at h
  split at h
  · cases h
  rename_i hargs
  simp only [not_or, not_not] at hargs
  have hplan := pmmPlan_spec hmap hargs.2.2
  simp only [Option.some.injEq] at h
  obtain ⟨t0, ht0⟩ : ∃ t, t = PmmState.mk
      (map.regions.foldl (admitRegion storage (storage + plan.bitmapBytes))
        (memset (memset state.memory storage 0 plan.storageBytes) (storage + plan.bitmapBytes) 0xff
          plan.bitmapBytes))
      storage (storage + plan.bitmapBytes) plan (map.usableBytes / memoryPageSize)
      (map.usableBytes / memoryPageSize) 0 true := ⟨_, rfl⟩
  rw [← ht0] at h
  obtain ⟨hinv0, hnone0⟩ := admitted_inv hmap (s := t0) (by rw [ht0]; exact hplan) (by rw [ht0])
    state.memory (by rw [ht0]) (by rw [ht0]) (by rw [ht0]; rfl) (by rw [ht0]; rfl) (by rw [ht0])
  have hplan0 : t0.plan = plan := by rw [ht0]
  obtain ⟨t1, hrun1, hinv1, hsame1, hres1, hnone1⟩ :=
    reserve_unallocated hinv0 0 memoryPageSize (by decide) (by decide) hnone0
  have haligned := hplan.storage_aligned
  have hpos := hplan.storage_pos
  have hle := hplan.storage_le
  have hplan1 : t1.plan = plan := hsame1.plan.trans hplan0
  obtain ⟨t2, hrun2, hinv2, hsame2, hres2, hnone2⟩ :=
    reserve_unallocated hinv1 plan.storagePhys plan.storageBytes (by omega) (by omega)
      (by rw [hsame1.plan]; exact hnone1)
  rw [hrun1, hrun2] at h
  subst h
  have hplan2 : t2.plan = plan := hsame2.plan.trans hplan1
  refine ⟨hinv2, hplan2, hplan, ?_, ?_⟩
  · intro f hf hcase
    rw [hres2.eligible f (by rw [hplan1]; exact hf)]
    split
    · rfl
    · rename_i hno
      rcases hcase with rfl | htouch
      · rw [hres1.eligible 0 (by rw [hplan0]; exact hf), if_pos]
        exact ⟨by decide, by decide⟩
      · exact absurd htouch hno
  · rw [← hplan1]
    exact hnone2

end Utamo.Pmm
