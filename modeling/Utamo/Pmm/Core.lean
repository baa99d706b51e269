import Utamo.Lib.Bitmap
import Utamo.Lib.Loop
import Utamo.Memory.Map

/-!
# The physical frame allocator

`kernel/memory/pmm_core.c`. The allocator keeps two bitmaps in a storage object: a frame that is not
eligible is permanently unavailable, an eligible frame is free or occupied. `pmm_plan` sizes the
bitmaps for a memory map and chooses usable memory for them.

The storage object is part of the state (`memory`), since only these functions may change it; the
pointers into it are addresses.
-/

set_option autoImplicit false

namespace Utamo.Pmm

open Lib Memory

/-- `struct pmm_plan` -/
structure PmmPlan where
  storagePhys : Nat
  storageBytes : Nat
  bitmapBytes : Nat
  spanFrames : Nat
  deriving DecidableEq, Repr

/-- `struct pmm_state` -/
structure PmmState where
  memory : ByteMemory
  eligible : Nat
  occupied : Nat
  plan : PmmPlan
  totalFrames : Nat
  freeFrames : Nat
  cursor : Nat
  initialized : Bool

/-- `bitmap_test` -/
def bitmapTest (memory : ByteMemory) (bitmap frame : Nat) : Bool := Bitmap.test memory bitmap frame

/-- `bitmap_set` -/
def bitmapSet (memory : ByteMemory) (bitmap frame : Nat) (value : Bool) : ByteMemory :=
  Bitmap.set memory bitmap frame value

/-! ## Planning -/

/-- The first loop of `pmm_plan`: the end of the last usable region and the usable bytes, unless a
region is not in order. `previous` is the base of the region before. -/
def planLoop : List MemoryRegion → Option Nat → Nat → Nat → Option (Nat × Nat)
  | [], _, lastEnd, usableBytes => some (lastEnd, usableBytes)
  | region :: regions, previous, lastEnd, usableBytes =>
    if region.length = 0 ∨ uint64Max - region.base < region.length ∨ ¬ region.type.isKnown ∨
        ∃ base ∈ previous, region.base < base then
      none
    else if region.type ≠ .usable then planLoop regions (some region.base) lastEnd usableBytes
    else if ¬ memoryIsPageAligned region.base ∨ ¬ memoryIsPageAligned region.length ∨
        uint64Max - usableBytes < region.length then
      none
    else
      let last := region.base + region.length
      planLoop regions (some region.base) (if lastEnd < last then last else lastEnd)
        (usableBytes + region.length)

/-- The second loop of `pmm_plan`: the first usable place for the bitmaps, never frame zero. -/
def findStorage (storageBytes : Nat) : List MemoryRegion → Option Nat
  | [] => none
  | region :: regions =>
    if region.type ≠ .usable then findStorage storageBytes regions
    else
      let start := if region.base = 0 then memoryPageSize else region.base
      let last := region.base + region.length
      if start ≤ last ∧ storageBytes ≤ last - start then some start
      else findStorage storageBytes regions

/-- `pmm_plan` -/
def pmmPlan (map : MemoryMap) : Option PmmPlan :=
  if map.regions.length = 0 ∨ memoryRegionLimit < map.regions.length then none
  else do
    let (lastEnd, usableBytes) ← planLoop map.regions none 0 0
    if lastEnd = 0 ∨ usableBytes ≠ map.usableBytes then none
    else
      let frames := lastEnd / memoryPageSize
      let bitmapBytes := frames / 8 + if frames % 8 ≠ 0 then 1 else 0
      if uint64Max / 2 < bitmapBytes then none
      else do
        let storageBytes ← memoryAlignUp (bitmapBytes * 2)
        if uint64Max < storageBytes then none
        else do
          let storagePhys ← findStorage storageBytes map.regions
          return { storagePhys, storageBytes, bitmapBytes, spanFrames := frames }

/-! ## Reservations -/

/-- `range_frames` -/
def rangeFrames (state : PmmState) (phys count : Nat) : Option (Nat × Nat) :=
  if ¬ state.initialized ∨ count = 0 ∨ ¬ memoryIsPageAligned phys then none
  else
    let frame := phys / memoryPageSize
    if state.plan.spanFrames ≤ frame ∨ state.plan.spanFrames - frame < count then none
    else some (frame, frame + count)

/-- The body of the second loop of `pmm_core_reserve_range`. -/
def reserveFrame (frame : Nat) (state : PmmState) : PmmState :=
  if bitmapTest state.memory state.eligible frame then
    let memory := bitmapSet state.memory state.eligible frame false
    { state with memory := bitmapSet memory state.occupied frame true
                 freeFrames := subU64 state.freeFrames 1 }
  else state

/-- `pmm_core_reserve_range` -/
def pmmCoreReserveRange (state : PmmState) (phys bytes : Nat) : PmmState × Bool :=
  if ¬ state.initialized ∨ bytes = 0 ∨ uint64Max - phys < bytes then (state, false)
  else
    match memoryAlignUp (phys + bytes) with
    | none => (state, false)
    | some endAddress =>
      let first := phys / memoryPageSize
      let last := endAddress / memoryPageSize
      let last := if state.plan.spanFrames < last then state.plan.spanFrames else last
      if anyRange first last fun frame =>
          bitmapTest state.memory state.eligible frame &&
            bitmapTest state.memory state.occupied frame
      then (state, false)
      else (forRange first last reserveFrame state, true)

/-! ## Initialization -/

/-- The body of the inner loop of `pmm_core_init`. -/
def admitFrame (eligible occupied frame : Nat) (memory : ByteMemory) : ByteMemory :=
  bitmapSet (bitmapSet memory eligible frame true) occupied frame false

/-- One round of the outer loop of `pmm_core_init`. -/
def admitRegion (eligible occupied : Nat) (memory : ByteMemory) (region : MemoryRegion) :
    ByteMemory :=
  if region.type ≠ .usable then memory
  else
    forRange (region.base / memoryPageSize) ((region.base + region.length) / memoryPageSize)
      (admitFrame eligible occupied) memory

/-- `pmm_core_init`; `none` is a call that returns `false` and changes nothing. -/
def pmmCoreInit (state : PmmState) (map : MemoryMap) (plan : PmmPlan) (storage : Nat) :
    Option PmmState :=
  if state.initialized ∨ storage = 0 ∨ pmmPlan map ≠ some plan then none
  else
    let occupied := storage + plan.bitmapBytes
    let memory := ByteMemory.memset state.memory storage 0 plan.storageBytes
    let memory := ByteMemory.memset memory occupied 0xff plan.bitmapBytes
    let memory := map.regions.foldl (admitRegion storage occupied) memory
    let initial : PmmState :=
      { memory, eligible := storage, occupied, plan
        totalFrames := map.usableBytes / memoryPageSize
        freeFrames := map.usableBytes / memoryPageSize
        cursor := 0
        initialized := true }
    let initial := (pmmCoreReserveRange initial 0 memoryPageSize).1
    some (pmmCoreReserveRange initial plan.storagePhys plan.storageBytes).1

/-! ## Allocation -/

/-- The loop of `find_run`: `remaining` frames from `frame` on are left, and the last `run` frames
before `frame` are free. -/
def findRunLoop (state : PmmState) (count : Nat) : Nat → Nat → Nat → Option Nat
  | 0, _, _ => none
  | remaining + 1, frame, run =>
    if ¬ bitmapTest state.memory state.occupied frame then
      if run + 1 = count then some (frame - (count - 1))
      else findRunLoop state count remaining (frame + 1) (run + 1)
    else findRunLoop state count remaining (frame + 1) 0

/-- `find_run` -/
def findRun (state : PmmState) (start count : Nat) : Option Nat :=
  findRunLoop state count (state.plan.spanFrames - start) start 0

/-- The two scans of `pmm_core_alloc_pages`. -/
def findFrames (state : PmmState) (count : Nat) : Option Nat :=
  match findRun state state.cursor count with
  | some first => some first
  | none => if state.cursor = 0 then none else findRun state 0 count

/-- `pmm_core_alloc_pages`; the result is `out_phys`. -/
def pmmCoreAllocPages (state : PmmState) (count : Nat) : PmmState × Option Nat :=
  if ¬ state.initialized ∨ count = 0 ∨ state.freeFrames < count then (state, none)
  else
    match findFrames state count with
    | none => (state, none)
    | some first =>
      let last := first + count
      ({ state with
          memory := forRange first last
            (fun frame memory => bitmapSet memory state.occupied frame true) state.memory
          freeFrames := subU64 state.freeFrames count
          cursor := if last = state.plan.spanFrames then 0 else last },
        some (first * memoryPageSize))

/-- `pmm_core_free_pages` -/
def pmmCoreFreePages (state : PmmState) (phys count : Nat) : PmmState × Bool :=
  match rangeFrames state phys count with
  | none => (state, false)
  | some (first, last) =>
    if anyRange first last fun frame =>
        !bitmapTest state.memory state.eligible frame ||
          !bitmapTest state.memory state.occupied frame
    then (state, false)
    else
      ({ state with
          memory := forRange first last
            (fun frame memory => bitmapSet memory state.occupied frame false) state.memory
          freeFrames := addU64 state.freeFrames count }, true)

/-- `pmm_core_pin_page` -/
def pmmCorePinPage (state : PmmState) (phys : Nat) : PmmState × Bool :=
  match rangeFrames state phys 1 with
  | none => (state, false)
  | some (first, _) =>
    if ¬ bitmapTest state.memory state.eligible first ∨
        ¬ bitmapTest state.memory state.occupied first then
      (state, false)
    else ({ state with memory := bitmapSet state.memory state.eligible first false }, true)

/-- `pmm_core_is_allocated_page` -/
def pmmCoreIsAllocatedPage (state : PmmState) (phys : Nat) : Bool :=
  match rangeFrames state phys 1 with
  | none => false
  | some (first, _) =>
    bitmapTest state.memory state.eligible first && bitmapTest state.memory state.occupied first

end Utamo.Pmm
