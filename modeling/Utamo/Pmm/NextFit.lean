import Utamo.Pmm.Runs

/-!
# The search for free frames, and calls that fail

* `findRun_first`: a scan of `find_run` ends at the first free run at or behind its start, or
  there is none. The scan carries what it has excluded: no run starts before the frames that
  it is counting.
* `pmm_alloc_complete`: the two scans of `pmm_core_alloc_pages` find a run whenever there is one.
* `pmm_failure_atomic`: a call that fails changes nothing, `pmm_core_free_pages` accepts exactly
  what is allocated, and it undoes an allocation.
* `pmm_exhaustion`: as many pages can be had as the counter of the free frames says.
-/

set_option autoImplicit false

namespace Utamo.Pmm

open Lib Memory

variable {map : MemoryMap} {s : PmmState}

/-! ## Runs of free frames -/

/-- `count` consecutive frames of the span that are unoccupied. -/
def FreeRun (s : PmmState) (count first : Nat) : Prop :=
  first + count ≤ s.plan.spanFrames ∧ ∀ f, first ≤ f → f < first + count → s.isOccupied f = false

/-- The first free run at or behind a frame. -/
structure FirstRun (s : PmmState) (count start first : Nat) : Prop where
  run : FreeRun s count first
  start_le : start ≤ first
  least : ∀ g, start ≤ g → g < first → ¬ FreeRun s count g

/-- What a scan from `start` returns. -/
def ScanResult (s : PmmState) (count start : Nat) : Option Nat → Prop
  | none => ∀ g, start ≤ g → ¬ FreeRun s count g
  | some first => FirstRun s count start first

/-- The loop of `find_run` at a frame, with the last `run` frames free: no run starts
before these. -/
theorem findRunLoop_first {count start : Nat} (remaining : Nat) : ∀ frame run : Nat,
    frame + remaining = s.plan.spanFrames → run < count → start + run ≤ frame →
    (∀ g, frame - run ≤ g → g < frame → s.isOccupied g = false) →
    (∀ g, start ≤ g → g < frame - run → ¬ FreeRun s count g) →
      ScanResult s count start (findRunLoop s count remaining frame run) := by
  induction remaining with
  | zero =>
    intro frame run hspan hrun hstart hfree hbefore g hg hfits
    -- a run behind the excluded frames would leave the span
    apply hbefore g hg _ hfits
    have hend := hfits.1
    omega
  | succ remaining ih =>
    intro frame run hspan hrun hstart hfree hbefore
    rw [findRunLoop_succ]
    by_cases hocc : s.isOccupied frame = true
    · rw [if_neg (fun hno => hno hocc)]
      apply ih (frame + 1) 0 (by omega) (by omega) (by omega)
      · intro g h1 h2
        omega
      · intro g hg hlt hfits
        -- a run from here on contains the occupied frame
        by_cases hold : g < frame - run
        · exact hbefore g hg hold hfits
        · have hno := hfits.2 frame (by omega) (by omega)
          rw [hocc] at hno
          cases hno
    · rw [if_pos hocc]
      have hzero : s.isOccupied frame = false := by simpa using hocc
      have hlonger : ∀ g, frame - run ≤ g → g < frame + 1 → s.isOccupied g = false := by
        intro g h1 h2
        by_cases hlast : g = frame
        · rw [hlast]
          exact hzero
        · exact hfree g h1 (by omega)
      by_cases hfull : run + 1 = count
      · rw [if_pos hfull, show frame - (count - 1) = frame - run by omega]
        refine ⟨⟨by omega, ?_⟩, by omega, hbefore⟩
        intro f h1 h2
        exact hlonger f h1 (by omega)
      · rw [if_neg hfull]
        apply ih (frame + 1) (run + 1) (by omega) (by omega) (by omega)
        · intro g h1 h2
          exact hlonger g (by omega) h2
        · intro g hg hlt
          exact hbefore g hg (by omega)

theorem findRun_first {count start : Nat} (hcount : 0 < count)
    (hstart : start ≤ s.plan.spanFrames) :
    ScanResult s count start (findRun s start count) := by
  apply findRunLoop_first (s.plan.spanFrames - start) start 0 (by omega) hcount (by omega)
  · intro g h1 h2
    omega
  · intro g h1 h2
    omega

/-- A free run is made of free frames, so there are enough of them. -/
theorem FreeRun.count_le {count first : Nat} (hinv : PmmInv map s) (h : FreeRun s count first) :
    count ≤ s.freeFrames := by
  have hsub : Finset.Ico first (first + count) ⊆ freeSet s := by
    intro f hf
    rw [Finset.mem_Ico] at hf
    have hlt := h.1
    exact hinv.mem_freeSet (by omega) (h.2 f hf.1 hf.2)
  have hcard := Finset.card_le_card hsub
  rw [Nat.card_Ico, ← hinv.free_eq] at hcard
  omega

/-- Where an allocation is placed: at the first run from the cursor on, or else at the first run. -/
def NextFit (s : PmmState) (count first : Nat) : Prop :=
  FirstRun s count s.cursor first ∨
    (∀ g, s.cursor ≤ g → ¬ FreeRun s count g) ∧ FirstRun s count 0 first

theorem findFrames_first {count : Nat} (hinv : PmmInv map s) (hcount : 0 < count) :
    (∀ first, findFrames s count = some first → NextFit s count first) ∧
      (findFrames s count = none → ∀ g, ¬ FreeRun s count g) := by
  have hscan := findRun_first hcount (Nat.le_of_lt hinv.cursor_lt)
  have hagain := findRun_first (s := s) hcount (Nat.zero_le _)
  rw [findFrames]
  cases hrun : findRun s s.cursor count with
  | some first =>
    rw [hrun] at hscan
    refine ⟨?_, by rintro ⟨⟩⟩
    intro first' heq
    cases heq
    exact Or.inl hscan
  | none =>
    rw [hrun] at hscan
    simp only
    split
    · rename_i hzero
      refine ⟨by rintro _ ⟨⟩, fun _ g => ?_⟩
      exact hscan g (by omega)
    · cases hrun' : findRun s 0 count with
      | some first =>
        rw [hrun'] at hagain
        refine ⟨?_, by rintro ⟨⟩⟩
        intro first' heq
        cases heq
        exact Or.inr ⟨hscan, hagain⟩
      | none =>
        rw [hrun'] at hagain
        exact ⟨by rintro _ ⟨⟩, fun _ g => hagain g (Nat.zero_le g)⟩

/-- In every state of every run: an allocation succeeds exactly if there is a free run of its
length, and it is placed at the first one from the cursor on, or else at the first one of all. -/
theorem pmm_alloc_complete {run : PmmRun} (h : PmmReachable run) {count : Nat}
    (hcount : 0 < count) :
    ∃ state result, pmmCoreAllocPages run.state count = (state, result) ∧
      (result ≠ none ↔ ∃ first, FreeRun run.state count first) ∧
      ∀ phys, result = some phys → ∃ first, phys = first * 4096 ∧
        NextFit run.state count first := by
  have hinv := (goodPmmRun_of_reachable h).inv
  obtain ⟨hsome, hnone⟩ := findFrames_first hinv hcount
  rw [pmmCoreAllocPages]
  by_cases hargs : ¬ run.state.initialized = true ∨ count = 0 ∨ run.state.freeFrames < count
  · rw [if_pos hargs]
    refine ⟨_, none, rfl, iff_of_false (fun hne => hne rfl) ?_, by rintro _ ⟨⟩⟩
    rintro ⟨first, hrun⟩
    have hle := hrun.count_le hinv
    rcases hargs with hbad | hbad | hbad
    · exact hbad hinv.init
    · omega
    · omega
  · rw [if_neg hargs]
    cases hfind : findFrames run.state count with
    | none =>
      refine ⟨_, none, rfl, iff_of_false (fun hne => hne rfl) ?_, by rintro _ ⟨⟩⟩
      rintro ⟨first, hrun⟩
      exact hnone hfind first hrun
    | some first =>
      have hfit := hsome first hfind
      refine ⟨_, some (first * memoryPageSize), rfl, iff_of_true (Option.some_ne_none _) ?_, ?_⟩
      · rcases hfit with hfirst | ⟨-, hfirst⟩
        · exact ⟨first, hfirst.run⟩
        · exact ⟨first, hfirst.run⟩
      · intro phys heq
        cases heq
        exact ⟨first, rfl, hfit⟩

/-- Two of four allocated frames are free again. -/
def holedRun : PmmRun := smallRunAfter [.alloc 2, .alloc 2, .free 0x2000 2]

/-- Of the four free frames no three are in a row; the next two are those behind the cursor. -/
theorem pmm_alloc_complete_holes :
    ∃ state, pmmCoreAllocPages holedRun.state 2 = (state, some 0x6000) ∧
      NextFit holedRun.state 2 6 ∧ ¬ ∃ first, FreeRun holedRun.state 3 first := by
  have htwo : (pmmCoreAllocPages holedRun.state 2).2 = some 0x6000 := by decide +kernel
  have hthree : (pmmCoreAllocPages holedRun.state 3).2 = none := by decide +kernel
  have hreach : PmmReachable holedRun := smallRunAfter_reachable _
  obtain ⟨state, result, hcall, -, hplace⟩ := pmm_alloc_complete hreach (show 0 < 2 by decide)
  obtain ⟨state', result', hcall', hiff, -⟩ := pmm_alloc_complete hreach (show 0 < 3 by decide)
  rw [hcall] at htwo
  rw [hcall'] at hthree
  obtain ⟨first, hfirst, hfit⟩ := hplace 0x6000 htwo
  obtain rfl : first = 6 := by omega
  exact ⟨state, htwo ▸ hcall, hfit, fun hfree => hiff.2 hfree hthree⟩

/-! ## Calls that fail, and calls that undo -/

/-- `pmm_core_free_pages` succeeds exactly on a run of allocated frames. -/
theorem free_succeeds_iff {run : PmmRun} (hrun : GoodPmmRun run) {phys count : Nat}
    (halign : phys % 4096 = 0) (hcount : 0 < count) {state : PmmState} {ok : Bool}
    (hcall : pmmCoreFreePages run.state phys count = (state, ok)) :
    ok = true ↔ ∀ f, phys / 4096 ≤ f → f < phys / 4096 + count → f ∈ run.allocated := by
  obtain ⟨state', ok', hspec, -, -, hout⟩ := pmmCoreFreePages_spec hrun.inv phys count
  rw [hcall] at hspec
  cases hspec
  rcases hout with ⟨rfl, -, hrefused⟩ | ⟨rfl, first, hfreed⟩
  · refine iff_of_false nofun fun hall => ?_
    -- the last frame is in the span, so the whole range is
    have hlast := (hrun.allocated _).1 (hall (phys / 4096 + count - 1) (by omega) (by omega))
    obtain ⟨g, h1, h2, hnot⟩ := hrefused halign hcount (by omega)
    exact hnot ((hrun.allocated g).1 (hall g h1 h2)).2
  · refine iff_of_true rfl fun f h1 h2 => (hrun.allocated f).2 ?_
    have hphys := hfreed.phys_eq
    have hwithin := hfreed.within
    exact ⟨by omega, hfreed.allocated f (by omega) (by omega)⟩

/-- Releasing what was just allocated restores the bitmaps byte for byte, and the counter. -/
theorem free_undoes_alloc (hinv : PmmInv map s) {state : PmmState} {count phys : Nat}
    (hcall : pmmCoreAllocPages s count = (state, some phys)) :
    ∃ state', pmmCoreFreePages state phys count = (state', true) ∧ state'.memory = s.memory ∧
      state'.freeFrames = s.freeFrames := by
  obtain ⟨t, result, hspec, hinv', hsame, hout⟩ := pmmCoreAllocPages_spec hinv count
  rw [hcall] at hspec
  cases hspec
  rcases hout with ⟨hno, -⟩ | ⟨first, heq, halloc⟩
  · cases hno
  cases heq
  have hplan := hsame.plan
  have hpos := halloc.count_pos
  have hwithin := halloc.within
  have hphys : first * 4096 / 4096 = first := by omega
  -- the range is accepted, and all of it is allocated
  have hrange : rangeFrames state (first * 4096) count = some (first, first + count) := by
    have heq := rangeFrames_eq hinv'.init (show first * 4096 % 4096 = 0 by omega) hpos
      (by rw [hphys, hplan]; exact hwithin)
    rw [hphys] at heq
    exact heq
  have hallocated : anyRange first (first + count) (fun frame =>
      !bitmapTest state.memory state.eligible frame ||
        !bitmapTest state.memory state.occupied frame) = false := by
    rw [anyRange_eq_false]
    intro f h1 h2
    have hel : bitmapTest state.memory state.eligible f = true := by
      have hbit := halloc.eligible f (by omega)
      exact hbit.trans (halloc.free f h1 h2).1
    have hocc : bitmapTest state.memory state.occupied f = true := by
      have hbit := halloc.occupied f (by omega)
      rw [if_pos ⟨h1, h2⟩] at hbit
      exact hbit
    rw [hel, hocc]
    rfl
  have hmemory : state.memory = Bitmap.setRange s.memory s.occupied first count true ∧
      state.freeFrames = subU64 s.freeFrames count ∧ count ≤ s.freeFrames := by
    rw [pmmCoreAllocPages] at hcall
    split at hcall
    · cases hcall
    rename_i hargs
    cases hfind : findFrames s count with
    | none =>
      rw [hfind] at hcall
      cases hcall
    | some first' =>
      rw [hfind, Prod.mk.injEq, Option.some.injEq] at hcall
      obtain ⟨hstate, hfirst⟩ := hcall
      obtain rfl : first' = first := by
        rw [show memoryPageSize = 4096 from rfl] at hfirst
        omega
      rw [← hstate]
      refine ⟨?_, rfl, by omega⟩
      show forRange first' (first' + count) _ s.memory = _
      rw [forRange, Nat.add_sub_cancel_left]
      rfl
  rw [pmmCoreFreePages, hrange]
  simp only [hallocated, Bool.false_eq_true, if_false]
  refine ⟨_, rfl, ?_, ?_⟩
  · show forRange first (first + count) _ state.memory = _
    rw [forRange, Nat.add_sub_cancel_left, hmemory.1, hsame.occupied]
    exact Bitmap.setRange_undo fun i h1 h2 => (halloc.free i h1 h2).2
  · show addU64 state.freeFrames count = _
    have hlt := hinv.free_lt
    rw [hmemory.2.1, subU64_of_le hmemory.2.2 hlt, addU64_of_lt (by omega)]
    omega

/-- In every state of every run: a call that fails leaves the whole state as it was; a release of
whole pages succeeds exactly if all of them are allocated, and neither returned nor pinned since;
and releasing what an allocation returned restores the bitmaps and the counter. -/
theorem pmm_failure_atomic {run : PmmRun} (h : PmmReachable run) :
    (∀ count state, pmmCoreAllocPages run.state count = (state, none) → state = run.state) ∧
    (∀ phys count state, pmmCoreFreePages run.state phys count = (state, false) →
    state = run.state) ∧
    (∀ phys bytes state, pmmCoreReserveRange run.state phys bytes = (state, false) →
    state = run.state) ∧
    (∀ phys state, pmmCorePinPage run.state phys = (state, false) → state = run.state) ∧
    (∀ phys count, phys % 4096 = 0 → 0 < count → ((pmmCoreFreePages run.state phys count).2 = true ↔
      ∀ f, phys / 4096 ≤ f → f < phys / 4096 + count → f ∈ run.allocated)) ∧
    (∀ count state phys, pmmCoreAllocPages run.state count = (state, some phys) →
      ∃ state', pmmCoreFreePages state phys count = (state', true) ∧
        state'.memory = run.state.memory ∧
        state'.freeFrames = run.state.freeFrames) := by
  have hrun := goodPmmRun_of_reachable h
  refine ⟨?_, ?_, ?_, ?_, ?_, fun count state phys hcall => free_undoes_alloc hrun.inv hcall⟩
  · intro count state hcall
    obtain ⟨t, result, hspec, -, -, hout⟩ := pmmCoreAllocPages_spec hrun.inv count
    rw [hcall] at hspec
    cases hspec
    rcases hout with ⟨-, hsame⟩ | ⟨first, hno, -⟩
    · exact hsame
    · cases hno
  · intro phys count state hcall
    obtain ⟨t, ok, hspec, -, -, hout⟩ := pmmCoreFreePages_spec hrun.inv phys count
    rw [hcall] at hspec
    cases hspec
    rcases hout with ⟨-, hsame, -⟩ | ⟨hno, -⟩
    · exact hsame
    · cases hno
  · intro phys bytes state hcall
    obtain ⟨t, ok, hspec, -, -, hout⟩ := pmmCoreReserveRange_spec hrun.inv phys bytes
    rw [hcall] at hspec
    cases hspec
    rcases hout with ⟨-, hsame, -⟩ | ⟨hno, -⟩
    · exact hsame
    · cases hno
  · intro phys state hcall
    obtain ⟨t, ok, hspec, -, -, hout⟩ := pmmCorePinPage_spec hrun.inv phys
    rw [hcall] at hspec
    cases hspec
    rcases hout with ⟨-, hsame⟩ | ⟨hno, -⟩
    · exact hsame
    · cases hno
  · intro phys count halign hcount
    exact free_succeeds_iff hrun halign hcount rfl

/-- Two frames are allocated; a release of the second of them and of the frame behind it
changes nothing. -/
theorem pmm_failure_atomic_two :
    (∀ f, 2 ≤ f → f < 4 → f ∈ (smallRunAfter [.alloc 2]).allocated) ∧
      pmmCoreFreePages (smallRunAfter [.alloc 2]).state 0x3000 2 =
        ((smallRunAfter [.alloc 2]).state, false) := by
  obtain ⟨-, hfree, -, -, hiff, -⟩ := pmm_failure_atomic (smallRunAfter_reachable [.alloc 2])
  have hfails : (pmmCoreFreePages (smallRunAfter [.alloc 2]).state 0x3000 2).2 = false := by
    decide +kernel
  refine ⟨(hiff 0x2000 2 (by decide) (by decide)).1 (by decide +kernel), ?_⟩
  exact Prod.ext (hfree 0x3000 2 _ (Prod.ext rfl hfails)) hfails

/-! ## The last free frame -/

/-- A page can be had as long as a frame is free, and costs one frame. -/
theorem allocPage_free (hinv : PmmInv map s) :
    PmmInv map (pmmCoreAllocPages s 1).1 ∧ (pmmCoreAllocPages s 1).1.freeFrames = s.freeFrames - 1 ∧
      ((pmmCoreAllocPages s 1).2 ≠ none ↔ 0 < s.freeFrames) := by
  obtain ⟨t, result, hcall, ht, -⟩ := pmmCoreAllocPages_spec hinv 1
  refine ⟨by rw [hcall]; exact ht, ?_⟩
  rw [pmmCoreAllocPages, hinv.init]
  by_cases hzero : s.freeFrames = 0
  · simp [hzero]
  rw [if_neg (by simp; omega)]
  cases hfind : findFrames s 1 with
  | some first =>
    have hpos := Nat.pos_of_ne_zero hzero
    exact ⟨subU64_of_le hpos hinv.free_lt, iff_of_true (Option.some_ne_none _) hpos⟩
  | none =>
    -- a free frame is a run of length one
    rw [hinv.free_eq] at hzero
    obtain ⟨f, hf⟩ := Finset.card_ne_zero.1 hzero
    rw [freeSet, Finset.mem_filter, Finset.mem_range] at hf
    refine absurd ⟨hf.1, fun g h1 h2 => ?_⟩ ((findFrames_first hinv Nat.one_pos).2 hfind f)
    obtain rfl : g = f := by omega
    exact hf.2.2

/-- In every state of every run, as many pages can be allocated one after the other as the counter
of the free frames says, wherever they and the cursor are, and not one more. -/
theorem pmm_exhaustion {run : PmmRun} (h : PmmReachable run) (n : Nat) :
    (pmmCoreAllocPages ((fun s => (pmmCoreAllocPages s 1).1)^[n] run.state) 1).2 ≠ none ↔
      n < run.state.freeFrames := by
  have hinv := (goodPmmRun_of_reachable h).inv
  generalize run.state = s at hinv
  induction n generalizing s with
  | zero => exact (allocPage_free hinv).2.2
  | succ n ih =>
    obtain ⟨hnext, hfree, -⟩ := allocPage_free hinv
    refine (ih _ hnext).trans ?_
    omega

/-- The small map has six free frames. -/
theorem pmm_exhaustion_small :
    (pmmCoreAllocPages ((fun s => (pmmCoreAllocPages s 1).1)^[6] smallRun.state) 1).2 = none :=
  not_not.1 (mt (pmm_exhaustion (.start smallRun_start) 6).1 (by decide +kernel))

end Utamo.Pmm
