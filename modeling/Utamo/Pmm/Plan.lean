import Utamo.Lib.Checked
import Utamo.Pmm.Runs

/-!
# The plan of the frame allocator

`pmm_plan` on a map that was built by `memory_map_add`:

* `pmmPlanExact_eq`: no operation in it wraps;
* `pmmPlan_eq`: it looks for the first usable region with room for the bitmaps of the whole span,
  and has no other reason to fail;
* `pmmCoreInit_writes`: `pmm_core_init` writes nothing outside the storage.
-/

set_option autoImplicit false

namespace Utamo.Pmm

open Lib Memory Lib.ByteMemory

variable {regions : List MemoryRegion}

/-! ## Exact arithmetic

The same computation with operators that have no value where the machine's operators wrap. -/

/-- `memory_align_up`; the outer `none` is an operation that wraps. -/
def memoryAlignUpExact (value : Nat) : Option (Option Nat) := do
  let bound ← subExact uint64Max (memoryPageSize - 1)
  if bound < value then return none
  else do
    let sum ← addExact value memoryPageSize
    let top ← subExact sum 1
    return some (alignDown top memoryPageSize)

/-- The first loop of `pmm_plan`; the outer `none` is an operation that wraps. -/
def planLoopExact : List MemoryRegion → Option Nat → Nat → Nat → Option (Option (Nat × Nat))
  | [], _, lastEnd, usableBytes => some (some (lastEnd, usableBytes))
  | region :: regions, previous, lastEnd, usableBytes => do
      let above ← subExact uint64Max region.base
      if region.length = 0 ∨ above < region.length ∨ ¬ region.type.isKnown ∨
          ∃ base ∈ previous, region.base < base then
        return none
      else if region.type ≠ .usable then
      planLoopExact regions (some region.base) lastEnd usableBytes
      else do
        let left ← subExact uint64Max usableBytes
        if ¬ memoryIsPageAligned region.base ∨ ¬ memoryIsPageAligned region.length ∨
        left < region.length then
          return none
        else do
          let last ← addExact region.base region.length
          let usable ← addExact usableBytes region.length
          planLoopExact regions (some region.base) (if lastEnd < last then last else lastEnd) usable

/-- The second loop of `pmm_plan`; the outer `none` is an operation that wraps. -/
def findStorageExact (storageBytes : Nat) : List MemoryRegion → Option (Option Nat)
  | [] => some none
  | region :: regions =>
    if region.type ≠ .usable then findStorageExact storageBytes regions
    else do
      let start := if region.base = 0 then memoryPageSize else region.base
      let last ← addExact region.base region.length
      if start ≤ last then do
        let room ← subExact last start
        if storageBytes ≤ room then return some start
        else findStorageExact storageBytes regions
      else findStorageExact storageBytes regions

/-- `pmm_plan`; the outer `none` is an operation that wraps. -/
def pmmPlanExact (map : MemoryMap) : Option (Option PmmPlan) :=
  if map.regions.length = 0 ∨ memoryRegionLimit < map.regions.length then some none
  else do
    match ← planLoopExact map.regions none 0 0 with
    | none => return none
    | some (lastEnd, usableBytes) =>
      if lastEnd = 0 ∨ usableBytes ≠ map.usableBytes then return none
      else do
        let frames := lastEnd / memoryPageSize
        let bitmapBytes ← addExact (frames / 8) (if frames % 8 ≠ 0 then 1 else 0)
        if uint64Max / 2 < bitmapBytes then return none
        else do
          let doubled ← mulExact bitmapBytes 2
          match ← memoryAlignUpExact doubled with
          | none => return none
          | some storageBytes =>
            if uint64Max < storageBytes then return none
            else do
              match ← findStorageExact storageBytes map.regions with
              | none => return none
              | some storagePhys =>
                return some { storagePhys, storageBytes, bitmapBytes, spanFrames := frames }

section Exact

variable {regions : List MemoryRegion}

theorem planLoopExact_eq (hregions : ∀ r ∈ regions, RegionSound r) :
    ∀ (previous : Option Nat) (lastEnd usableBytes : Nat), usableBytes ≤ uint64Max →
      planLoopExact regions previous lastEnd usableBytes =
        some (planLoop regions previous lastEnd usableBytes) := by
  induction regions with
  | nil => intro _ _ _ _; rfl
  | cons r rs ih =>
    intro previous lastEnd usableBytes husable
    have hend := (hregions r List.mem_cons_self).end_le
    have hrest := ih fun q hq => hregions q (List.mem_cons_of_mem _ hq)
    rw [planLoopExact, planLoop, subExact_of_le (show r.base ≤ uint64Max by omega),
      subExact_of_le husable, addExact_of_le hend]
    simp only [Option.bind_eq_bind, Option.bind_some]
    split
    · rfl
    split
    · exact hrest _ _ _ husable
    split
    · rfl
    · rename_i hchecks
      rw [not_or, not_or] at hchecks
      have hsum : usableBytes + r.length ≤ uint64Max := by omega
      rw [addExact_of_le hsum, Option.bind_some]
      exact hrest _ _ _ hsum

theorem findStorageExact_eq (hregions : ∀ r ∈ regions, RegionSound r) (storageBytes : Nat) :
    findStorageExact storageBytes regions = some (findStorage storageBytes regions) := by
  induction regions with
  | nil => rfl
  | cons r rs ih =>
    have hend := (hregions r List.mem_cons_self).end_le
    rw [findStorageExact, findStorage, ih fun q hq => hregions q (List.mem_cons_of_mem _ hq),
      addExact_of_le hend]
    generalize (if r.base = 0 then memoryPageSize else r.base) = start
    simp only [Option.bind_eq_bind, Option.bind_some]
    split
    · rfl
    by_cases hle : start ≤ r.base + r.length
    · rw [if_pos hle, subExact_of_le hle, Option.bind_some]
      simp only [hle, true_and]
      split <;> rfl
    · rw [if_neg hle, if_neg fun hboth => hle hboth.1]

theorem memoryAlignUpExact_eq {value : Nat} (h : value + 4096 ≤ uint64Max) :
    memoryAlignUpExact value = some (memoryAlignUp value) := by
  have hsize : memoryPageSize = 4096 := rfl
  rw [memoryAlignUpExact, memoryAlignUp,
    subExact_of_le (show memoryPageSize - 1 ≤ uint64Max by omega),
    addExact_of_le (show value + memoryPageSize ≤ uint64Max by omega)]
  simp only [Option.bind_eq_bind, Option.bind_some]
  rw [subExact_of_le (show 1 ≤ value + memoryPageSize by omega), Option.bind_some]
  split <;> rfl

end Exact

/-! ## The plan of a map -/

/-- The end of the last usable region. -/
def usableEnd (regions : List MemoryRegion) : Nat :=
  regions.foldl (fun last r => if r.type = .usable ∧ last < r.base + r.length then
    r.base + r.length else last) 0

theorem usableEnd_snoc (regions : List MemoryRegion) (r : MemoryRegion) :
    usableEnd (regions ++ [r]) = if r.type = .usable ∧ usableEnd regions < r.base + r.length
      then r.base + r.length else usableEnd regions := by
  rw [usableEnd, List.foldl_append]
  rfl

/-- The first loop on a list with one more region. -/
theorem planLoop_snoc (regions : List MemoryRegion) (r : MemoryRegion) :
    ∀ (previous : Option Nat) (lastEnd usableBytes : Nat),
      planLoop (regions ++ [r]) previous lastEnd usableBytes =
        (planLoop regions previous lastEnd usableBytes).bind fun out =>
          planLoop [r] ((regions.getLast?.map MemoryRegion.base).or previous) out.1 out.2 := by
  induction regions with
  | nil => intro _ _ _; rfl
  | cons q qs ih =>
    intro previous lastEnd usableBytes
    have hlast : ∀ p : Option Nat, (((q :: qs).getLast?).map MemoryRegion.base).or p =
        ((qs.getLast?).map MemoryRegion.base).or (some q.base) := by
      intro p
      cases hqs : qs.getLast? with
      | none =>
        rw [List.getLast?_eq_none_iff] at hqs
        rw [hqs]
        rfl
      | some t => rw [List.getLast?_cons, hqs]; rfl
    rw [List.cons_append, planLoop, planLoop, hlast]
    split
    · rfl
    split
    · exact ih _ _ _
    split
    · rfl
    · exact ih _ _ _

/-- What `memory_map_add` has checked of a map as a whole. -/
structure MapPlanned (map : MemoryMap) : Prop where
  count_le : map.regions.length ≤ memoryRegionLimit
  usable_le : map.usableBytes ≤ uint64Max
  loop : planLoop map.regions none 0 0 = some (usableEnd map.regions, map.usableBytes)

theorem MapPlanned.add {map map' : MemoryMap} {region : MemoryRegion} (h : MapPlanned map)
    (hadd : memoryMapAdd map region = some map') : MapPlanned map' := by
  obtain ⟨hsound, hregions, -, husable⟩ := memoryMapAdd_spec hadd
  have hmax : uint64Max = 2 ^ 64 - 1 := rfl
  -- the checks that concern the map as a whole
  have hchecks : map.regions.length < memoryRegionLimit ∧
      (¬ ∃ previous ∈ map.regions.getLast?, region.base < previous.base) ∧
      (region.type = .usable → map.usableBytes + region.length ≤ uint64Max) := by
    rw [memoryMapAdd] at hadd
    split at hadd
    · cases hadd
    rename_i hfirst
    rw [not_or] at hfirst
    split at hadd
    · cases hadd
    rename_i horder
    refine ⟨by omega, horder, fun ht => ?_⟩
    split at hadd
    · cases hadd
    split at hadd
    · cases hadd
    rw [ht] at hadd
    simp only at hadd
    split at hadd
    · cases hadd
    · have := h.usable_le
      omega
  obtain ⟨hcount, horder, hsum⟩ := hchecks
  refine ⟨?_, ?_, ?_⟩
  · rw [hregions, List.length_append, List.length_singleton]
    omega
  · rw [husable]
    have := h.usable_le
    split
    · rename_i ht
      exact hsum ht
    · omega
  · have hpos := hsound.length_pos
    have hend := hsound.end_le
    have hpass : ¬ (region.length = 0 ∨ uint64Max - region.base < region.length ∨
        ¬ region.type.isKnown = true ∨
        ∃ base ∈ (map.regions.getLast?.map MemoryRegion.base).or none, region.base < base) := by
      rintro (h1 | h1 | h1 | ⟨base, hbase, h1⟩)
      · omega
      · omega
      · exact h1 hsound.known
      · rw [Option.or_none, Option.mem_def, Option.map_eq_some_iff] at hbase
        obtain ⟨previous, hprevious, rfl⟩ := hbase
        exact horder ⟨previous, hprevious, h1⟩
    rw [hregions, planLoop_snoc, h.loop, Option.bind_some, planLoop, if_neg hpass,
      usableEnd_snoc, husable]
    by_cases ht : region.type = .usable
    · obtain ⟨hbase, hlength⟩ := hsound.aligned (by rw [ht]; rfl)
      have hbytes := hsum ht
      have husable_le := h.usable_le
      have haligned : ¬ (¬ memoryIsPageAligned region.base = true ∨
          ¬ memoryIsPageAligned region.length = true ∨
          uint64Max - map.usableBytes < region.length) := by
        rintro (h1 | h1 | h1)
        · exact h1 (memoryIsPageAligned_iff.2 hbase)
        · exact h1 (memoryIsPageAligned_iff.2 hlength)
        · omega
      rw [if_neg (fun hne => hne ht), if_neg haligned, if_pos ht]
      simp only [planLoop, ht, true_and]
    · rw [if_pos ht, if_neg ht, if_neg (fun hboth => ht hboth.1)]
      rfl

theorem MapBuilt.planned {map : MemoryMap} (h : MapBuilt map) : MapPlanned map := by
  induction h with
  | init => exact ⟨by decide, by decide, rfl⟩
  | add _ hadd ih => exact ih.add hadd

/-- The bytes of one bitmap for a number of frames. -/
def bitmapSize (frames : Nat) : Nat := (frames + 7) / 8

/-- The whole pages that two bitmaps take. -/
def storageSize (frames : Nat) : Nat := (2 * bitmapSize frames + 4095) / 4096 * 4096

theorem usableEnd_le (hregions : ∀ r ∈ regions, RegionSound r) :
    usableEnd regions ≤ uint64Max := by
  have hfold : ∀ (rs : List MemoryRegion) (last : Nat), (∀ r ∈ rs, RegionSound r) →
      last ≤ uint64Max →
      rs.foldl (fun last r =>
        if r.type = .usable ∧ last < r.base + r.length then r.base + r.length else last) last ≤
          uint64Max := by
    intro rs
    induction rs with
    | nil => intro last _ hlast; exact hlast
    | cons r rs ih =>
      intro last hrs hlast
      have hend := (hrs r List.mem_cons_self).end_le
      rw [List.foldl_cons]
      apply ih _ fun q hq => hrs q (List.mem_cons_of_mem _ hq)
      split
      · exact hend
      · exact hlast
  exact hfold regions 0 hregions (Nat.zero_le _)

/-- The plan of a map: room for the bitmaps of the whole span, or no plan. -/
theorem pmmPlan_eq {map : MemoryMap} (h : MapBuilt map) :
    pmmPlan map = if usableEnd map.regions = 0 then none
      else (findStorage (storageSize (usableEnd map.regions / 4096)) map.regions).map fun start =>
        ⟨start, storageSize (usableEnd map.regions / 4096),
          bitmapSize (usableEnd map.regions / 4096), usableEnd map.regions / 4096⟩ := by
  have hmax : uint64Max = 2 ^ 64 - 1 := rfl
  have hsize : memoryPageSize = 4096 := rfl
  have hplanned := MapBuilt.planned h
  have hend := usableEnd_le h.sound.region
  have hcount := hplanned.count_le
  rw [pmmPlan]
  by_cases hempty : map.regions.length = 0
  · rw [if_pos (Or.inl hempty)]
    rw [List.length_eq_zero_iff] at hempty
    rw [hempty]
    rfl
  rw [if_neg (by omega)]
  simp only [hplanned.loop, Option.bind_eq_bind, Option.bind_some, hsize]
  by_cases hzero : usableEnd map.regions = 0
  · rw [if_pos (Or.inl hzero), if_pos hzero]
  rw [if_neg (by omega), if_neg hzero]
  generalize hframes : usableEnd map.regions / 4096 = frames
  have hbytes : (frames / 8 + if frames % 8 ≠ 0 then 1 else 0) = bitmapSize frames := by
    rw [bitmapSize]
    split <;> omega
  have hbitmap : bitmapSize frames ≤ 2 ^ 50 := by
    rw [bitmapSize]
    omega
  have halign : memoryAlignUp (bitmapSize frames * 2) = some (storageSize frames) := by
    rw [memoryAlignUp, hsize, if_neg (by omega), storageSize, alignDown, Option.some.injEq]
    omega
  have hstorage : storageSize frames ≤ uint64Max := by
    rw [storageSize]
    omega
  rw [hbytes, if_neg (by omega), halign, Option.bind_some, if_neg (by omega)]
  cases findStorage (storageSize frames) map.regions <;> rfl

/-- Nothing in `pmm_plan` wraps. -/
theorem pmmPlanExact_eq {map : MemoryMap} (h : MapBuilt map) :
    pmmPlanExact map = some (pmmPlan map) := by
  have hmax : uint64Max = 2 ^ 64 - 1 := rfl
  have hsize : memoryPageSize = 4096 := rfl
  have hend := usableEnd_le h.sound.region
  have hloop := planLoopExact_eq h.sound.region none 0 0 (Nat.zero_le _)
  rw [pmmPlanExact, pmmPlan, hloop, (MapBuilt.planned h).loop]
  split
  · rfl
  simp only [Option.bind_eq_bind, Option.bind_some, hsize]
  split
  · rfl
  generalize hframes : usableEnd map.regions / 4096 = frames
  have hbitmap : (frames / 8 + if frames % 8 ≠ 0 then 1 else 0) ≤ 2 ^ 50 := by
    split <;> omega
  have hceil : addExact (frames / 8) (if frames % 8 ≠ 0 then 1 else 0) =
      some (frames / 8 + if frames % 8 ≠ 0 then 1 else 0) := addExact_of_le (by omega)
  rw [hceil, Option.bind_some]
  generalize (frames / 8 + if frames % 8 ≠ 0 then 1 else 0) = bytes at *
  have hdouble : mulExact bytes 2 = some (bytes * 2) := if_pos (by omega)
  rw [hdouble, Option.bind_some, memoryAlignUpExact_eq (by omega), Option.bind_some]
  split
  · rfl
  cases memoryAlignUp (bytes * 2) with
  | none => rfl
  | some storageBytes =>
    simp only [Option.bind_some, findStorageExact_eq h.sound.region]
    split
    · rfl
    · cases findStorage storageBytes map.regions <;> rfl

/-! ## The storage -/

/-- A place for the bitmaps: whole pages of one usable region, without page zero, that hold two
bitmaps for a span that covers every usable frame. -/
structure StorageFits (regions : List MemoryRegion) (span start bytes : Nat) : Prop where
  covers : ∀ f ∈ usableFrames regions, f < span
  aligned : start % 4096 = 0 ∧ bytes % 4096 = 0
  not_first : 4096 ≤ start
  room : 2 * bitmapSize span ≤ bytes
  inside : ∃ r ∈ regions, r.type = .usable ∧ r.base ≤ start ∧ start + bytes ≤ r.base + r.length

theorem findStorage_none {bytes : Nat} (h : findStorage bytes regions = none) :
    ∀ r ∈ regions, r.type = .usable →
      r.base + r.length < (if r.base = 0 then 4096 else r.base) + bytes := by
  have hsize : memoryPageSize = 4096 := rfl
  induction regions with
  | nil => intro r hr; cases hr
  | cons q qs ih =>
    rw [findStorage] at h
    intro r hr ht
    split at h
    · rename_i hne
      rcases List.mem_cons.1 hr with rfl | hr
      · exact absurd ht hne
      · exact ih h r hr ht
    · simp only [hsize] at h
      generalize hplace : (if q.base = 0 then 4096 else q.base) = place at h
      split at h
      · cases h
      · rename_i hfull
        rcases List.mem_cons.1 hr with rfl | hr
        · rw [hplace]
          omega
        · exact ih h r hr ht

/-- A span that covers the usable frames reaches the end of the last usable region. -/
theorem usableEnd_covered {map : MemoryMap} (h : MapBuilt map) {span : Nat}
    (hspan : ∀ f ∈ usableFrames map.regions, f < span) : usableEnd map.regions / 4096 ≤ span := by
  obtain ⟨-, -, hlast⟩ := planLoop_spec (MapBuilt.planned h).loop
  rcases hlast with hzero | ⟨r, hr, ht, hend⟩
  · rw [hzero]
    omega
  · have haligned := h.sound.usable_aligned hr ht
    have hpos := (h.sound.region r hr).length_pos
    have hmem : usableEnd map.regions / 4096 - 1 ∈ usableFrames map.regions := by
      rw [mem_usableFrames]
      exact ⟨r, hr, ht, by omega, by omega⟩
    have := hspan _ hmem
    omega

/-- A plan is a place for the bitmaps, of the size that the span needs. -/
theorem pmmPlan_fits {map : MemoryMap} (h : MapBuilt map) {plan : PmmPlan}
    (hplan : pmmPlan map = some plan) :
    StorageFits map.regions plan.spanFrames plan.storagePhys plan.storageBytes ∧
      plan.bitmapBytes = bitmapSize plan.spanFrames := by
  have hsound := pmmPlan_spec h.sound hplan
  rw [pmmPlan_eq h] at hplan
  split at hplan
  · cases hplan
  obtain ⟨start, hstart, rfl⟩ := Option.map_eq_some_iff.1 hplan
  obtain ⟨r, hr, ht, hplace, hfit⟩ := findStorage_spec hstart
  refine ⟨⟨hsound.usable_lt, hsound.storage_aligned, hsound.storage_pos.1, hsound.bitmaps_le,
    r, hr, ht, ?_, hfit⟩, rfl⟩
  show r.base ≤ start
  split at hplace <;> omega

/-- Without a plan there is no place for the bitmaps. -/
theorem pmmPlan_none {map : MemoryMap} (h : MapBuilt map) (hplan : pmmPlan map = none)
    (span start bytes : Nat) : ¬ StorageFits map.regions span start bytes := by
  intro hfits
  obtain ⟨r, hr, ht, hbase, hend⟩ := hfits.inside
  obtain ⟨hpage, hpages⟩ := hfits.aligned
  have hcovered := usableEnd_covered h hfits.covers
  have hfirst := hfits.not_first
  have hroom := hfits.room
  have hpos := (h.sound.region r hr).length_pos
  obtain ⟨-, hends, -⟩ := planLoop_spec (MapBuilt.planned h).loop
  have hreach := hends r hr ht
  rw [pmmPlan_eq h, if_neg (by omega), Option.map_eq_none_iff] at hplan
  have hfull := findStorage_none hplan r hr ht
  -- whole pages that hold the bitmaps of `span` are at least the pages that the plan asks for
  have hneeded : storageSize (usableEnd map.regions / 4096) ≤ bytes := by
    rw [bitmapSize] at hroom
    rw [storageSize, bitmapSize]
    omega
  split at hfull <;> omega

/-! ## The writes of the initialization -/

/-- Memory changes only from `first` up to `last`. -/
def WritesWithin (first last : Nat) (m m' : ByteMemory) : Prop :=
  ∀ a, a < first ∨ last ≤ a → m' a = m a

section Writes

variable {first last : Nat} {m m' m'' : ByteMemory}

theorem WritesWithin.trans (h : WritesWithin first last m m')
    (h' : WritesWithin first last m' m'') :
    WritesWithin first last m m'' :=
  fun a ha => (h' a ha).trans (h a ha)

theorem WritesWithin.memset {base n : Nat} (value : UInt8) (hfirst : first ≤ base)
    (hlast : base + n ≤ last) :
    WritesWithin first last m (ByteMemory.memset m base value n) :=
  fun _ ha => memset_of_outside (by omega)

theorem WritesWithin.bitmapSet {base i : Nat} (v : Bool) (hfirst : first ≤ base)
    (hlast : base + i / 8 < last) :
    WritesWithin first last m (bitmapSet m base i v) :=
  fun _ ha => Bitmap.set_of_outside (by omega)

/-- A loop whose rounds write within a range writes within it. -/
theorem WritesWithin.forRange {i j : Nat} {body : Nat → ByteMemory → ByteMemory}
    (h : ∀ k t, i ≤ k → k < j → WritesWithin first last t (body k t)) :
    WritesWithin first last m (forRange i j body m) := by
  by_cases hle : i ≤ j
  · have hstart : WritesWithin first last m m := fun _ _ => rfl
    have hstep : ∀ k t, i ≤ k → k < j → WritesWithin first last m t →
        WritesWithin first last m (body k t) :=
      fun k t h1 h2 ht => ht.trans (h k t h1 h2)
    exact forRange_invariant hle hstart hstep
  · rw [forRange_of_le (by omega)]
    exact fun _ _ => rfl

end Writes

theorem admitRegions_writes {first last eligible occupied span : Nat}
    (heligible : first ≤ eligible) (hoccupied : first ≤ occupied)
    (hbits : ∀ f < span, eligible + f / 8 < last ∧ occupied + f / 8 < last)
    (hspan : ∀ f ∈ usableFrames regions, f < span) :
    ∀ m : ByteMemory, WritesWithin first last m
      (regions.foldl (admitRegion eligible occupied) m) := by
  have hsize : memoryPageSize = 4096 := rfl
  induction regions with
  | nil => intro m _ _; rfl
  | cons r rs ih =>
    intro m
    have hrest : ∀ f ∈ usableFrames rs, f < span := by
      intro f hf
      obtain ⟨q, hq, hframe⟩ := mem_usableFrames.1 hf
      exact hspan f (mem_usableFrames.2 ⟨q, List.mem_cons_of_mem _ hq, hframe⟩)
    apply WritesWithin.trans _ (ih hrest _)
    rw [admitRegion]
    split
    · exact fun _ _ => rfl
    · rename_i ht
      apply WritesWithin.forRange
      intro f t hlo hhi
      have hf := hspan f (mem_usableFrames.2 ⟨r, List.mem_cons_self, not_not.1 ht, hlo, hhi⟩)
      obtain ⟨h1, h2⟩ := hbits f hf
      exact (WritesWithin.bitmapSet true heligible h1).trans
        (WritesWithin.bitmapSet false hoccupied h2)

/-- A reservation writes the two bitmaps only, and leaves them where they are. -/
theorem pmmCoreReserveRange_writes {first last : Nat} (s : PmmState) (phys bytes : Nat)
    (heligible : first ≤ s.eligible) (hoccupied : first ≤ s.occupied)
    (hbits : ∀ f < s.plan.spanFrames, s.eligible + f / 8 < last ∧ s.occupied + f / 8 < last) :
    WritesWithin first last s.memory (pmmCoreReserveRange s phys bytes).1.memory ∧
      SameSpan s (pmmCoreReserveRange s phys bytes).1 := by
  have hsame : SameSpan s s := SameSpan.refl s
  have hnothing : WritesWithin first last s.memory s.memory := fun _ _ => rfl
  rw [pmmCoreReserveRange]
  split
  · exact ⟨hnothing, hsame⟩
  split
  · exact ⟨hnothing, hsame⟩
  rename_i endAddress _
  simp only
  generalize hend : (if s.plan.spanFrames < endAddress / memoryPageSize then s.plan.spanFrames
    else endAddress / memoryPageSize) = stop
  split
  · exact ⟨hnothing, hsame⟩
  by_cases hle : phys / memoryPageSize ≤ stop
  · have hstep : ∀ f t, phys / memoryPageSize ≤ f → f < stop →
        (WritesWithin first last s.memory t.memory ∧ SameSpan s t) →
        WritesWithin first last s.memory (reserveFrame f t).memory ∧
        SameSpan s (reserveFrame f t) := by
      rintro f t - hf ⟨hw, hs⟩
      rw [reserveFrame]
      split
      · obtain ⟨h1, h2⟩ := hbits f (by split at hend <;> omega)
        rw [← hs.eligible] at h1 heligible
        rw [← hs.occupied] at h2 hoccupied
        exact ⟨hw.trans ((WritesWithin.bitmapSet false heligible h1).trans
          (WritesWithin.bitmapSet true hoccupied h2)), hs.trans ⟨rfl, rfl, rfl, rfl, rfl⟩⟩
      · exact ⟨hw, hs⟩
    exact forRange_invariant hle ⟨hnothing, hsame⟩ hstep
  · rw [forRange_of_le (by omega)]
    exact ⟨hnothing, hsame⟩

/-- `pmm_core_init` with the plan of the map succeeds and writes nothing outside the storage. -/
theorem pmmCoreInit_writes {map : MemoryMap} (h : MapBuilt map) {plan : PmmPlan}
    (hplan : pmmPlan map = some plan) {state : PmmState} (hstate : state.initialized = false)
    {storage : Nat} (hstorage : storage ≠ 0) :
    ∃ s, pmmCoreInit state map plan storage = some s ∧
      WritesWithin storage (storage + plan.storageBytes) state.memory s.memory := by
  obtain ⟨hfits, hbitmap⟩ := pmmPlan_fits h hplan
  have hroom := hfits.room
  rw [← hbitmap] at hroom
  have hbits : ∀ f < plan.spanFrames, storage + f / 8 < storage + plan.storageBytes ∧
      storage + plan.bitmapBytes + f / 8 < storage + plan.storageBytes := by
    intro f hf
    rw [bitmapSize] at hbitmap
    omega
  have hchecks : ¬ (state.initialized = true ∨ storage = 0 ∨ pmmPlan map ≠ some plan) := by
    rw [hstate, hplan]
    simp [hstorage]
  rw [pmmCoreInit, if_neg hchecks]
  refine ⟨_, rfl, ?_⟩
  have hzero : WritesWithin storage (storage + plan.storageBytes) state.memory
      (ByteMemory.memset state.memory storage 0 plan.storageBytes) :=
    WritesWithin.memset 0 (le_refl _) (le_refl _)
  have hones : WritesWithin storage (storage + plan.storageBytes)
      (ByteMemory.memset state.memory storage 0 plan.storageBytes)
      (ByteMemory.memset (ByteMemory.memset state.memory storage 0 plan.storageBytes)
        (storage + plan.bitmapBytes) 0xff plan.bitmapBytes) :=
    WritesWithin.memset 0xff (by omega) (by omega)
  have hadmit :=
    admitRegions_writes (le_refl storage) (Nat.le_add_right storage plan.bitmapBytes) hbits
    hfits.covers (ByteMemory.memset (ByteMemory.memset state.memory storage 0 plan.storageBytes)
      (storage + plan.bitmapBytes) 0xff plan.bitmapBytes)
  have hinit := (hzero.trans hones).trans hadmit
  -- the two reservations
  obtain ⟨hpage, hsame⟩ := pmmCoreReserveRange_writes
    { memory := map.regions.foldl (admitRegion storage (storage + plan.bitmapBytes))
        (ByteMemory.memset (ByteMemory.memset state.memory storage 0 plan.storageBytes)
          (storage + plan.bitmapBytes) 0xff plan.bitmapBytes)
      eligible := storage
      occupied := storage + plan.bitmapBytes
      plan
      totalFrames := map.usableBytes / memoryPageSize
      freeFrames := map.usableBytes / memoryPageSize
      cursor := 0
      initialized := true } 0 memoryPageSize (le_refl storage)
        (Nat.le_add_right storage plan.bitmapBytes) hbits
  apply (hinit.trans hpage).trans
  apply (pmmCoreReserveRange_writes _ plan.storagePhys plan.storageBytes ?_ ?_ ?_).1
  · rw [hsame.eligible]
  · rw [hsame.occupied]
    exact Nat.le_add_right _ _
  · rw [hsame.eligible, hsame.occupied, hsame.plan]
    exact hbits

/-- The plan of a built map is sound and complete: nothing in it wraps, its storage is a place for
the bitmaps, initializing with it succeeds and writes the storage only, and without a plan there
is no place. -/
theorem pmm_plan_sound {map : MemoryMap} (h : MapBuilt map) :
    pmmPlanExact map = some (pmmPlan map) ∧
      (∀ plan, pmmPlan map = some plan →
        StorageFits map.regions plan.spanFrames plan.storagePhys plan.storageBytes ∧
          plan.bitmapBytes = bitmapSize plan.spanFrames ∧
          ∀ (state : PmmState) (storage : Nat), state.initialized = false → storage ≠ 0 →
            ∃ s, pmmCoreInit state map plan storage = some s ∧
              WritesWithin storage (storage + plan.storageBytes) state.memory s.memory) ∧
      (pmmPlan map = none → ∀ span start bytes, ¬ StorageFits map.regions span start bytes) := by
  refine ⟨pmmPlanExact_eq h, ?_, pmmPlan_none h⟩
  intro plan hplan
  obtain ⟨hfits, hbitmap⟩ := pmmPlan_fits h hplan
  refine ⟨hfits, hbitmap, ?_⟩
  intro state storage hstate hstorage
  exact pmmCoreInit_writes h hplan hstate hstorage

/-- One usable region of eight pages: the bitmaps take its second page. -/
theorem pmm_plan_sound_small :
    pmmPlan smallMap = some ⟨0x1000, 0x1000, 1, 8⟩ ∧
      StorageFits smallMap.regions 8 0x1000 0x1000 :=
  have hplan : pmmPlan smallMap = some ⟨0x1000, 0x1000, 1, 8⟩ := by decide
  ⟨hplan, ((pmm_plan_sound smallMap_built).2.1 _ hplan).1⟩

end Utamo.Pmm
