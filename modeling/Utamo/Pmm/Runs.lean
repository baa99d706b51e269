import Utamo.Lib.Transition
import Utamo.Pmm.Init
import Mathlib.Data.Set.Card

/-!
# Runs of the frame allocator

A run starts at a successful `pmm_core_init` on a map that was built by `memory_map_add` only, and
continues with the four operations on arbitrary arguments. `allocated`, `pinned` and `reserved`
record, from the results of the calls only, what the callers hold and what was taken out for good.

`goodPmmRun_step` is the step lemma: the allocator stays in order, the allocated frames of
its bitmaps are the frames that the callers hold, and what was pinned or reserved is not
eligible any more.
-/

set_option autoImplicit false

namespace Utamo.Pmm

open Lib Memory

/-- An allocator with the record of its callers. -/
structure PmmRun where
  map : MemoryMap
  state : PmmState
  allocated : Set Nat
  pinned : Set Nat
  reserved : Set Nat

inductive PmmCall
  | alloc (count : Nat)
  | free (phys count : Nat)
  | reserve (phys bytes : Nat)
  | pin (phys : Nat)

/-- The frames of a run of `count` pages at `phys`. -/
def runFrames (phys count : Nat) : Set Nat := {f | phys / 4096 ≤ f ∧ f < phys / 4096 + count}

def pmmExec (run : PmmRun) : PmmCall → Option PmmRun
  | .alloc count =>
    match pmmCoreAllocPages run.state count with
    | (state, none) => some { run with state }
    | (state, some phys) =>
      some { run with state, allocated := run.allocated ∪ runFrames phys count }
  | .free phys count =>
    match pmmCoreFreePages run.state phys count with
    | (state, false) => some { run with state }
    | (state, true) => some { run with state, allocated := run.allocated \ runFrames phys count }
  | .reserve phys bytes =>
    match pmmCoreReserveRange run.state phys bytes with
    | (state, false) => some { run with state }
    | (state, true) =>
      some { run with state, reserved := run.reserved ∪ {f | Touches phys bytes f} }
  | .pin phys =>
    match pmmCorePinPage run.state phys with
    | (state, false) => some { run with state }
    | (state, true) =>
      some { run with state, allocated := run.allocated \ {phys / 4096}
                      pinned := insert (phys / 4096) run.pinned }

/-- The state after a successful `pmm_core_init`. -/
def pmmStart (run : PmmRun) : Prop :=
  MapBuilt run.map ∧
    (∃ state plan storage, pmmPlan run.map = some plan ∧
      pmmCoreInit state run.map plan storage = some run.state) ∧
    run.allocated = ∅ ∧ run.pinned = ∅ ∧ run.reserved = ∅

def PmmReachable (run : PmmRun) : Prop := Reachable pmmStart (fun _ _ => True) pmmExec run

/-! ## The step lemma -/

/-- What holds in every run. -/
structure GoodPmmRun (run : PmmRun) : Prop where
  map : MapSound run.map
  inv : PmmInv run.map run.state
  plan : PlanSound run.map run.state.plan
  excluded : ∀ f, f < run.state.plan.spanFrames →
    f = 0 ∨ Touches run.state.plan.storagePhys run.state.plan.storageBytes f →
    run.state.isEligible f = false
  allocated : ∀ f, f ∈ run.allocated ↔ f < run.state.plan.spanFrames ∧
    run.state.isEligible f = true ∧ run.state.isOccupied f = true
  pinned : ∀ f ∈ run.pinned, f < run.state.plan.spanFrames → run.state.isEligible f = false
  reserved : ∀ f ∈ run.reserved, f < run.state.plan.spanFrames → run.state.isEligible f = false

theorem goodPmmRun_start {run : PmmRun} (h : pmmStart run) : GoodPmmRun run := by
  obtain ⟨hbuilt, ⟨state, plan, storage, -, hinit⟩, halloc, hpin, hres⟩ := h
  obtain ⟨hinv, hplan, hsound, hexcluded, hnone⟩ := pmmCoreInit_spec hbuilt.sound hinit
  rw [← hplan] at hsound hexcluded hnone
  refine ⟨hbuilt.sound, hinv, hsound, hexcluded, ?_, ?_, ?_⟩
  · intro f
    rw [halloc]
    constructor
    · rintro ⟨⟩
    · rintro ⟨hf, h⟩
      exact hnone f hf h
  · rw [hpin]
    rintro f ⟨⟩
  · rw [hres]
    rintro f ⟨⟩

/-- A step that makes no frame eligible keeps what was taken out for good. -/
theorem GoodPmmRun.update {run : PmmRun} (hrun : GoodPmmRun run) {state : PmmState}
    {allocated pinned reserved : Set Nat} (hinv : PmmInv run.map state)
    (hsame : SameSpan run.state state)
    (hel : ∀ f, f < run.state.plan.spanFrames → run.state.isEligible f = false →
      state.isEligible f = false)
    (hallocated : ∀ f, f ∈ allocated ↔ f < run.state.plan.spanFrames ∧
      state.isEligible f = true ∧ state.isOccupied f = true)
    (hpinned : ∀ f ∈ pinned, f ∉ run.pinned → f < run.state.plan.spanFrames →
      state.isEligible f = false)
    (hreserved : ∀ f ∈ reserved, f ∉ run.reserved → f < run.state.plan.spanFrames →
      state.isEligible f = false) :
    GoodPmmRun ⟨run.map, state, allocated, pinned, reserved⟩ := by
  have hplan := hsame.plan
  refine ⟨hrun.map, hinv, ?_, ?_, ?_, ?_, ?_⟩
  · show PlanSound run.map state.plan
    rw [hplan]
    exact hrun.plan
  · show ∀ f, f < state.plan.spanFrames →
      f = 0 ∨ Touches state.plan.storagePhys state.plan.storageBytes f → state.isEligible f = false
    rw [hplan]
    exact fun f hf h => hel f hf (hrun.excluded f hf h)
  · show ∀ f, f ∈ allocated ↔ f < state.plan.spanFrames ∧ _
    rw [hplan]
    exact hallocated
  · show ∀ f ∈ pinned, f < state.plan.spanFrames → state.isEligible f = false
    rw [hplan]
    intro f hf hlt
    by_cases hold : f ∈ run.pinned
    · exact hel f hlt (hrun.pinned f hold hlt)
    · exact hpinned f hf hold hlt
  · show ∀ f ∈ reserved, f < state.plan.spanFrames → state.isEligible f = false
    rw [hplan]
    intro f hf hlt
    by_cases hold : f ∈ run.reserved
    · exact hel f hlt (hrun.reserved f hold hlt)
    · exact hreserved f hf hold hlt

theorem goodPmmRun_step {run run' : PmmRun} {call : PmmCall} (hrun : GoodPmmRun run)
    (hexec : pmmExec run call = some run') : GoodPmmRun run' := by
  have hmem := hrun.allocated
  cases call with
  | alloc count =>
    obtain ⟨state, result, hcall, hinv, hsame, hout⟩ := pmmCoreAllocPages_spec hrun.inv count
    rcases hout with ⟨rfl, rfl⟩ | ⟨first, rfl, hrunAlloc⟩
    · -- a call that fails leaves everything as it was
      simp only [pmmExec, hcall] at hexec
      cases hexec
      exact hrun
    · simp only [pmmExec, hcall] at hexec
      cases hexec
      refine hrun.update hinv hsame ?_ ?_ (fun f h1 h2 => absurd h1 h2) fun f h1 h2 => absurd h1 h2
      · intro f hf h
        rw [hrunAlloc.eligible f hf, h]
      · intro f
        have hrange : f ∈ runFrames (first * 4096) count ↔ first ≤ f ∧ f < first + count := by
          rw [runFrames, Set.mem_ofPred_eq, Nat.mul_div_cancel _ (by decide)]
        have hwithin := hrunAlloc.within
        rw [Set.mem_union, hmem, hrange]
        constructor
        · rintro (⟨hf, h1, h2⟩ | hin)
          · rw [hrunAlloc.eligible f hf, hrunAlloc.occupied f hf, h2]
            exact ⟨hf, h1, ite_self _⟩
          · have hf : f < run.state.plan.spanFrames := by omega
            rw [hrunAlloc.eligible f hf, hrunAlloc.occupied f hf, if_pos hin]
            exact ⟨hf, (hrunAlloc.free f hin.1 hin.2).1, rfl⟩
        · rintro ⟨hf, h1, h2⟩
          rw [hrunAlloc.eligible f hf] at h1
          rw [hrunAlloc.occupied f hf] at h2
          by_cases hin : first ≤ f ∧ f < first + count
          · exact Or.inr hin
          · rw [if_neg hin] at h2
            exact Or.inl ⟨hf, h1, h2⟩
  | free phys count =>
    obtain ⟨state, ok, hcall, hinv, hsame, hout⟩ := pmmCoreFreePages_spec hrun.inv phys count
    rcases hout with ⟨rfl, rfl, -⟩ | ⟨rfl, first, hfreed⟩
    · -- a call that fails leaves everything as it was
      simp only [pmmExec, hcall] at hexec
      cases hexec
      exact hrun
    · simp only [pmmExec, hcall] at hexec
      cases hexec
      refine hrun.update hinv hsame ?_ ?_ (fun f h1 h2 => absurd h1 h2) fun f h1 h2 => absurd h1 h2
      · intro f hf h
        rw [hfreed.eligible f hf, h]
      · intro f
        have hrange : f ∈ runFrames phys count ↔ first ≤ f ∧ f < first + count := by
          rw [runFrames, Set.mem_ofPred_eq, hfreed.phys_eq, Nat.mul_div_cancel_left _ (by decide)]
        rw [Set.mem_sdiff, hmem, hrange]
        constructor
        · rintro ⟨⟨hf, h1, h2⟩, hin⟩
          rw [hfreed.eligible f hf, hfreed.occupied f hf, if_neg hin]
          exact ⟨hf, h1, h2⟩
        · rintro ⟨hf, h1, h2⟩
          rw [hfreed.eligible f hf] at h1
          rw [hfreed.occupied f hf] at h2
          by_cases hin : first ≤ f ∧ f < first + count
          · rw [if_pos hin] at h2
            cases h2
          · rw [if_neg hin] at h2
            exact ⟨⟨hf, h1, h2⟩, hin⟩
  | reserve phys bytes =>
    obtain ⟨state, ok, hcall, hinv, hsame, hout⟩ := pmmCoreReserveRange_spec hrun.inv phys bytes
    rcases hout with ⟨rfl, rfl, -⟩ | ⟨rfl, hres⟩
    · -- a call that fails leaves everything as it was
      simp only [pmmExec, hcall] at hexec
      cases hexec
      exact hrun
    · simp only [pmmExec, hcall] at hexec
      cases hexec
      refine hrun.update hinv hsame ?_ ?_ (fun f h1 h2 => absurd h1 h2) ?_
      · intro f hf h
        rw [hres.eligible f hf, h]
        exact ite_self _
      · intro f
        rw [hmem]
        constructor
        · rintro ⟨hf, h1, h2⟩
          have hno : ¬ Touches phys bytes f := fun h => hres.unallocated f hf h ⟨h1, h2⟩
          rw [hres.eligible f hf, hres.occupied f hf, if_neg hno, if_neg hno]
          exact ⟨hf, h1, h2⟩
        · rintro ⟨hf, h1, h2⟩
          rw [hres.eligible f hf] at h1
          rw [hres.occupied f hf] at h2
          by_cases htouch : Touches phys bytes f
          · rw [if_pos htouch] at h1
            cases h1
          · rw [if_neg htouch] at h1 h2
            exact ⟨hf, h1, h2⟩
      · rintro f (h | htouch) hold hf
        · exact absurd h hold
        · rw [hres.eligible f hf]
          exact if_pos htouch
  | pin phys =>
    obtain ⟨state, ok, hcall, hinv, hsame, hout⟩ := pmmCorePinPage_spec hrun.inv phys
    rcases hout with ⟨rfl, rfl⟩ | ⟨rfl, first, hpin⟩
    · -- a call that fails leaves everything as it was
      simp only [pmmExec, hcall] at hexec
      cases hexec
      exact hrun
    · simp only [pmmExec, hcall, Option.some.injEq] at hexec
      have hfirst : phys / 4096 = first := by
        rw [hpin.phys_eq, Nat.mul_div_cancel_left _ (by decide)]
      rw [← hexec, hfirst]
      refine hrun.update hinv hsame ?_ ?_ ?_ fun f h1 h2 => absurd h1 h2
      · intro f hf h
        rw [hpin.eligible f hf, h]
        exact ite_self _
      · intro f
        rw [Set.mem_sdiff, hmem, Set.mem_singleton_iff]
        constructor
        · rintro ⟨⟨hf, h1, h2⟩, hne⟩
          rw [hpin.eligible f hf, hpin.occupied f hf, if_neg hne]
          exact ⟨hf, h1, h2⟩
        · rintro ⟨hf, h1, h2⟩
          rw [hpin.eligible f hf] at h1
          rw [hpin.occupied f hf] at h2
          by_cases hne : f = first
          · rw [if_pos hne] at h1
            cases h1
          · rw [if_neg hne] at h1
            exact ⟨⟨hf, h1, h2⟩, hne⟩
      · rintro f (h | h) hold hf
        · rw [hpin.eligible f hf]
          exact if_pos h
        · exact absurd h hold

theorem goodPmmRun_of_reachable {run : PmmRun} (h : PmmReachable run) : GoodPmmRun run :=
  h.invariant (fun _ => goodPmmRun_start) fun _ _ _ hrun _ hexec => goodPmmRun_step hrun hexec

/-! ## Whole runs -/

/-- Every call returns, and what was pinned or reserved stays so. -/
theorem pmmExec_keeps (run : PmmRun) (call : PmmCall) :
    ∃ run', pmmExec run call = some run' ∧ run.pinned ⊆ run'.pinned ∧
      run.reserved ⊆ run'.reserved := by
  cases call with
  | alloc count =>
    rcases hcall : pmmCoreAllocPages run.state count with ⟨state, _ | phys⟩
    all_goals
      simp only [pmmExec, hcall]
      exact ⟨_, rfl, subset_rfl, subset_rfl⟩
  | free phys count =>
    rcases hcall : pmmCoreFreePages run.state phys count with ⟨state, _ | _⟩
    all_goals
      simp only [pmmExec, hcall]
      exact ⟨_, rfl, subset_rfl, subset_rfl⟩
  | reserve phys bytes =>
    rcases hcall : pmmCoreReserveRange run.state phys bytes with ⟨state, _ | _⟩
    · simp only [pmmExec, hcall]
      exact ⟨_, rfl, subset_rfl, subset_rfl⟩
    · simp only [pmmExec, hcall]
      exact ⟨_, rfl, subset_rfl, Set.subset_union_left⟩
  | pin phys =>
    rcases hcall : pmmCorePinPage run.state phys with ⟨state, _ | _⟩
    · simp only [pmmExec, hcall]
      exact ⟨_, rfl, subset_rfl, subset_rfl⟩
    · simp only [pmmExec, hcall]
      exact ⟨_, rfl, Set.subset_insert _ _, subset_rfl⟩

/-- In every run, a frame that is not eligible is occupied, the counter counts the free frames, the
total is the number of usable frames of the map, and the cursor lies in the span. -/
theorem pmm_accounting {run : PmmRun} (h : PmmReachable run) :
    (∀ f, f < run.state.plan.spanFrames → run.state.isEligible f = false →
        run.state.isOccupied f = true) ∧
      run.state.freeFrames = ((Finset.range run.state.plan.spanFrames).filter fun f =>
        run.state.isEligible f = true ∧ run.state.isOccupied f = false).card ∧
      run.state.totalFrames = Set.ncard {f | UsableFrame run.map f} ∧
      run.state.cursor < run.state.plan.spanFrames := by
  have hrun := goodPmmRun_of_reachable h
  refine ⟨hrun.inv.occupied_of, hrun.inv.free_eq, ?_, hrun.inv.cursor_lt⟩
  have hset : {f | UsableFrame run.map f} = ↑(usableFrames run.map.regions) := by
    ext f
    rw [Set.mem_ofPred_eq, Finset.mem_coe]
    exact hrun.map.usableFrame_iff
  rw [hset, Set.ncard_coe_finset]
  exact hrun.inv.total_eq

/-- A map of eight usable frames and a reserved region that ends inside a frame. -/
def smallMap : MemoryMap :=
  ⟨[⟨0, 0x8000, .usable⟩, ⟨0x8000, 0x900, .reserved⟩], 0x8000, 0⟩

theorem smallMap_built : MapBuilt smallMap := @MapBuilt.run _ _ .init smallMap.regions (by decide)

/-- The zeroed state that `pmm_core_init` expects. -/
def zeroState : PmmState := ⟨fun _ => 0, 0, 0, ⟨0, 0, 0, 0⟩, 0, 0, 0, false⟩

theorem pmmStart_init {map : MemoryMap} {plan : PmmPlan} {storage : Nat} (hbuilt : MapBuilt map)
    (hplan : pmmPlan map = some plan) (h : (pmmCoreInit zeroState map plan storage).isSome = true) :
    pmmStart ⟨map, (pmmCoreInit zeroState map plan storage).getD zeroState, ∅, ∅, ∅⟩ := by
  obtain ⟨state, hstate⟩ := Option.isSome_iff_exists.1 h
  refine ⟨hbuilt, ⟨zeroState, plan, storage, hplan, ?_⟩, rfl, rfl, rfl⟩
  rw [hstate]
  rfl

/-- The allocator for the small map, with its bitmaps at `0x100`. -/
def smallRun : PmmRun :=
  ⟨smallMap, (pmmCoreInit zeroState smallMap ⟨0x1000, 0x1000, 1, 8⟩ 0x100).getD zeroState, ∅, ∅, ∅⟩

theorem smallRun_start : pmmStart smallRun :=
  pmmStart_init smallMap_built (by decide) (by decide +kernel)

/-- The small allocator after the calls. -/
def smallRunAfter (calls : List PmmCall) : PmmRun :=
  calls.foldl (fun run call => (pmmExec run call).getD run) smallRun

theorem smallRunAfter_reachable (calls : List PmmCall) : PmmReachable (smallRunAfter calls) :=
  Reachable.foldl_getD (.start smallRun_start) fun _ _ _ => trivial

/-- After an allocation of two frames, a pin and a reservation, three frames are free. -/
theorem pmm_accounting_small :
    ∃ run, PmmReachable run ∧ run.state.cursor = 4 ∧
      ((Finset.range run.state.plan.spanFrames).filter fun f =>
        run.state.isEligible f = true ∧ run.state.isOccupied f = false).card = 3 ∧
      Set.ncard {f | UsableFrame run.map f} = 8 := by
  have hreach := smallRunAfter_reachable [.alloc 2, .pin 0x2000, .reserve 0x5008 8]
  obtain ⟨-, hfree, htotal, -⟩ := pmm_accounting hreach
  exact ⟨_, hreach, by decide +kernel, hfree.symm.trans (by decide +kernel),
    htotal.symm.trans (by decide +kernel)⟩

/-- In every run, an allocation consists of frames that nobody holds, that were neither pinned nor
reserved, that are neither frame zero nor storage of the bitmaps, and whose bytes are usable and of
no other type; frames that were pinned or reserved cannot be freed, and stay pinned or reserved. -/
theorem pmm_allocation_exclusive {run : PmmRun} (h : PmmReachable run) :
    (∀ count state phys, pmmCoreAllocPages run.state count = (state, some phys) →
        0 < count ∧ phys % 4096 = 0 ∧ ∀ f, phys / 4096 ≤ f → f < phys / 4096 + count →
          f ∉ run.allocated ∧ f ∉ run.pinned ∧ f ∉ run.reserved ∧ f ≠ 0 ∧
          ¬ Touches run.state.plan.storagePhys run.state.plan.storageBytes f ∧
          ∀ x, 4096 * f ≤ x → x < 4096 * f + 4096 → UsableByte run.map x ∧
            ∀ r ∈ run.map.regions, r.base ≤ x → x < r.base + r.length → r.type = .usable) ∧
      (∀ phys count state, pmmCoreFreePages run.state phys count = (state, true) →
        ∀ f, phys / 4096 ≤ f → f < phys / 4096 + count →
          f ∈ run.allocated ∧ f ∉ run.pinned ∧ f ∉ run.reserved) ∧
      ∀ call, ∃ run', pmmExec run call = some run' ∧ run.pinned ⊆ run'.pinned ∧
        run.reserved ⊆ run'.reserved := by
  have hrun := goodPmmRun_of_reachable h
  have heligible : ∀ f, f < run.state.plan.spanFrames → run.state.isEligible f = true →
      f ∉ run.pinned ∧ f ∉ run.reserved := by
    intro f hf hel
    constructor
    · intro hp
      rw [hrun.pinned f hp hf] at hel
      cases hel
    · intro hr
      rw [hrun.reserved f hr hf] at hel
      cases hel
  refine ⟨?_, ?_, ?_⟩
  · intro count state phys halloc
    obtain ⟨state', result, hcall, -, -, hout⟩ := pmmCoreAllocPages_spec hrun.inv count
    rw [halloc] at hcall
    cases hcall
    rcases hout with ⟨hnone, -⟩ | ⟨first, hsome, hrunAlloc⟩
    · cases hnone
    · cases hsome
      refine ⟨hrunAlloc.count_pos, by omega, fun f h1 h2 => ?_⟩
      rw [Nat.mul_div_cancel _ (by decide)] at h1 h2
      have hf : f < run.state.plan.spanFrames := by
        have := hrunAlloc.within
        omega
      obtain ⟨hel, hocc⟩ := hrunAlloc.free f h1 h2
      obtain ⟨hpin, hres⟩ := heligible f hf hel
      have husable := hrun.map.usableFrame_iff.2 (hrun.inv.usable f hf hel)
      refine ⟨?_, hpin, hres, ?_, ?_, fun x hx1 hx2 => ⟨husable x hx1 hx2, ?_⟩⟩
      · intro hmem
        rw [((hrun.allocated f).1 hmem).2.2] at hocc
        cases hocc
      · rintro rfl
        rw [hrun.excluded 0 hf (Or.inl rfl)] at hel
        cases hel
      · intro htouch
        rw [hrun.excluded f hf (Or.inr htouch)] at hel
        cases hel
      · exact fun r hr hlo hhi => hrun.map.type_of_usable (husable x hx1 hx2) hr hlo hhi
  · intro phys count state hfree f h1 h2
    obtain ⟨state', ok, hcall, -, -, hout⟩ := pmmCoreFreePages_spec hrun.inv phys count
    rw [hfree] at hcall
    cases hcall
    rcases hout with ⟨hfalse, -⟩ | ⟨-, first, hfreed⟩
    · cases hfalse
    · rw [hfreed.phys_eq, Nat.mul_div_cancel_left _ (by decide)] at h1 h2
      have hf : f < run.state.plan.spanFrames := by
        have := hfreed.within
        omega
      obtain ⟨hel, hocc⟩ := hfreed.allocated f h1 h2
      exact ⟨(hrun.allocated f).2 ⟨hf, hel, hocc⟩, heligible f hf hel⟩
  · exact pmmExec_keeps run

/-- After an allocation and a pin, the next allocation does not return the pinned frame. -/
theorem pmm_allocation_exclusive_small :
    ∃ run state, PmmReachable run ∧ 2 ∈ run.pinned ∧
      pmmCoreAllocPages run.state 1 = (state, some 0x4000) ∧ 4 ∉ run.allocated ∧
      4 ∉ run.pinned := by
  obtain ⟨run1, h1, -⟩ := pmmExec_keeps smallRun (.alloc 2)
  obtain ⟨run2, h2, -⟩ := pmmExec_keeps run1 (.pin 0x2000)
  have hreach : PmmReachable run2 :=
    ((Reachable.start smallRun_start).step trivial h1).step trivial h2
  have hvalues : ([.alloc 2, .pin 0x2000].foldlM pmmExec smallRun).map
      (fun run => (pmmCoreAllocPages run.state 1).2) = some (some 0x4000) := by decide +kernel
  have hok : (pmmExec smallRun (.alloc 2)).map (fun run => (pmmCorePinPage run.state 0x2000).2) =
      some true := by decide +kernel
  have hrun : [.alloc 2, .pin 0x2000].foldlM pmmExec smallRun = some run2 := by
    simp only [List.foldlM_cons, List.foldlM_nil, h1, h2, Option.bind_eq_bind, Option.bind_some,
      Option.pure_def]
  rw [hrun, Option.map_some, Option.some.injEq] at hvalues
  rw [h1, Option.map_some, Option.some.injEq] at hok
  have hpinned : 2 ∈ run2.pinned := by
    rcases hpin : pmmCorePinPage run1.state 0x2000 with ⟨state, ok⟩
    rw [hpin] at hok
    cases hok
    simp only [pmmExec, hpin, Option.some.injEq] at h2
    rw [← h2]
    exact Or.inl rfl
  rcases halloc : pmmCoreAllocPages run2.state 1 with ⟨state, result⟩
  rw [halloc] at hvalues
  cases hvalues
  have hfour := ((pmm_allocation_exclusive hreach).1 1 state 0x4000 halloc).2.2 4 (by decide)
    (by decide)
  exact ⟨run2, state, hreach, hpinned, halloc, hfour.1, hfour.2.1⟩

end Utamo.Pmm
