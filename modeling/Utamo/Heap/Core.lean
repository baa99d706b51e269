import Utamo.Lib.ByteMemory
import Utamo.Lib.Word

/-!
# The kernel heap allocator

`kernel/memory/heap_core.c`. The arena is a contiguous byte range that starts at `base`; every
block begins with a header of six 64-bit words (`BlockField`) and free blocks are linked by arena
offsets through two of them. All state is one record, the bytes of memory included, so an
operation is a function from heaps to heaps.

A loop of the source runs here on a round budget of `mappedSize + 1`. `none` is a loop that has
not ended within it; the operations are total in this sense on every heap that passes validation.
Offsets are natural numbers: after validation no sum of an offset and a block size leaves the
arena. The byte and allocation counters wrap as `uint64_t` does.

The growth callback is a parameter. It works on a context of its own, may answer differently on
each call, and on success supplies whatever bytes the appended pages hold.
-/

set_option autoImplicit false

namespace Utamo.Heap

open Lib Lib.ByteMemory

variable {γ : Type}

/-- `UTAMO_HEAP_USED` -/
def heapUsed : Nat := 1

/-- `UTAMO_HEAP_FLAG_MASK` -/
def heapFlagMask : Nat := 15

/-- `UTAMO_HEAP_NONE` -/
def heapNone : Nat := uint64Max

/-- `UTAMO_HEAP_COOKIE` -/
def heapCookie : Nat := 0x5554414d4f484541

/-- `UTAMO_HEAP_MIN_BLOCK` -/
def heapMinBlock : Nat := 64

/-- `sizeof(struct heap_block)` -/
def headerSize : Nat := 48

/-- The members of `struct heap_block`. -/
inductive BlockField
  | sizeFlags
  | prevSize
  | requested
  | freePrev
  | freeNext
  | cookie
  deriving DecidableEq, Repr

/-- The byte offset of a member in the header. -/
def BlockField.offset : BlockField → Nat
  | .sizeFlags => 0
  | .prevSize => 8
  | .requested => 16
  | .freePrev => 24
  | .freeNext => 32
  | .cookie => 40

/-- The answer of one call of the growth callback: whether the pages were appended, the context
afterwards, and the bytes the appended pages hold, by arena offset. -/
structure GrowReply (γ : Type) where
  granted : Bool
  context : γ
  bytes : Nat → UInt8

/-- `struct heap_ops`; no callback is `NULL`. -/
structure HeapOps (γ : Type) where
  context : γ
  grow : Option (γ → Nat → Nat → GrowReply γ)

/-- `struct heap_core`, with the memory its pointers lead to. -/
structure HeapCore (γ : Type) where
  base : Nat
  mappedSize : Nat
  maxSize : Nat
  growthSize : Nat
  freeHead : Nat
  ops : HeapOps γ
  usedBytes : Nat
  liveAllocations : Nat
  allocations : Nat
  frees : Nat
  peakUsage : Nat
  failedAllocations : Nat
  invalidFrees : Nat
  debugPoison : Bool
  initialized : Bool
  memory : ByteMemory

/-- `block_at`: the address of the header at an arena offset. -/
def blockAt (h : HeapCore γ) (offset : Nat) : Nat := h.base + offset

/-- `block->field` -/
def readField (h : HeapCore γ) (offset : Nat) (f : BlockField) : Nat :=
  load64 h.memory (blockAt h offset + f.offset)

/-- `block->field = value` -/
def writeField (h : HeapCore γ) (offset : Nat) (f : BlockField) (value : Nat) : HeapCore γ :=
  { h with memory := store64 h.memory (blockAt h offset + f.offset) value }

/-- `memset` on the arena, from an arena offset. -/
def fillArena (h : HeapCore γ) (offset : Nat) (value : UInt8) (count : Nat) : HeapCore γ :=
  { h with memory := memset h.memory (h.base + offset) value count }

/-- `block_size` -/
def blockSize (h : HeapCore γ) (offset : Nat) : Nat :=
  alignDown (readField h offset .sizeFlags) (heapFlagMask + 1)

/-- `block_used` -/
def blockUsed (h : HeapCore γ) (offset : Nat) : Bool :=
  readField h offset .sizeFlags &&& heapUsed ≠ 0

/-- `block_cookie` -/
def blockCookie (h : HeapCore γ) (offset : Nat) : Nat := heapCookie ^^^ h.base ^^^ offset

/-- `write_block` -/
def writeBlock (h : HeapCore γ) (offset size previous requested : Nat) (used : Bool) :
    HeapCore γ :=
  let h := writeField h offset .sizeFlags (size ||| if used then heapUsed else 0)
  let h := writeField h offset .prevSize previous
  let h := writeField h offset .requested requested
  let h := writeField h offset .freePrev heapNone
  let h := writeField h offset .freeNext heapNone
  writeField h offset .cookie (blockCookie h offset)

/-- `context_valid` -/
def contextValid (h : HeapCore γ) : Bool :=
  h.initialized ∧ h.base ≠ 0 ∧ h.base &&& heapFlagMask = 0 ∧ heapMinBlock ≤ h.mappedSize ∧
    h.mappedSize ≤ h.maxSize ∧ h.maxSize ≤ uint64Max - h.base ∧ heapMinBlock ≤ h.growthSize ∧
    (h.mappedSize ||| h.maxSize ||| h.growthSize) &&& heapFlagMask = 0

/-- The loop of `exact_block`. -/
def exactBlockLoop (h : HeapCore γ) (target : Nat) : Nat → Nat → Option (Option Nat)
  | 0, _ => none
  | fuel + 1, offset =>
    if offset < h.mappedSize then
      if offset = target then some (some offset)
      else exactBlockLoop h target fuel (offset + blockSize h offset)
    else some none

/-- `exact_block`: the block that starts at `target`, if the chain has one. -/
def exactBlock (h : HeapCore γ) (target : Nat) : Option (Option Nat) :=
  exactBlockLoop h target (h.mappedSize + 1) 0

/-- The local variables of `heap_core_validate`. -/
structure ValidateState where
  previous : Nat
  freeCurrent : Nat
  freePrior : Nat
  live : Nat
  requested : Nat
  previousFree : Bool

/-- The checks of one round of `heap_core_validate` that do not depend on the block being used or
free. -/
def headerSound (h : HeapCore γ) (offset : Nat) (st : ValidateState) : Bool :=
  headerSize ≤ h.mappedSize - offset ∧
    readField h offset .cookie = blockCookie h offset ∧
    readField h offset .sizeFlags &&& (heapFlagMask - heapUsed) = 0 ∧
    heapMinBlock ≤ blockSize h offset ∧ blockSize h offset ≤ h.mappedSize - offset ∧
    readField h offset .prevSize = st.previous

/-- One round of `heap_core_validate` at `offset`; `none` is `return false`. -/
def validateBlock (h : HeapCore γ) (offset : Nat) (st : ValidateState) : Option ValidateState :=
  let size := blockSize h offset
  if headerSound h offset st then
    if blockUsed h offset then
      if readField h offset .requested = 0 ∨
          size - headerSize < readField h offset .requested ∨
          readField h offset .freePrev ≠ heapNone ∨ readField h offset .freeNext ≠ heapNone then
        none
      else
        some { st with
          requested := addU64 st.requested (readField h offset .requested)
          live := addU64 st.live 1
          previousFree := false
          previous := size }
    else if readField h offset .requested ≠ 0 ∨ st.previousFree then none
    else if st.freeCurrent ≠ offset ∨ readField h offset .freePrev ≠ st.freePrior then none
    else
      some { st with
        freePrior := offset
        freeCurrent := readField h offset .freeNext
        previousFree := true
        previous := size }
  else none

/-- The loop of `heap_core_validate`: `some none` is `return false` inside the loop, and a state
is the state after the last block. -/
def validateLoop (h : HeapCore γ) : Nat → Nat → ValidateState → Option (Option ValidateState)
  | 0, _, _ => none
  | fuel + 1, offset, st =>
    if offset < h.mappedSize then
      match validateBlock h offset st with
      | none => some none
      | some st' => validateLoop h fuel (offset + blockSize h offset) st'
    else some (some st)

/-- The local variables of `heap_core_validate` before the loop. -/
def validateStart (h : HeapCore γ) : ValidateState where
  previous := 0
  freeCurrent := h.freeHead
  freePrior := heapNone
  live := 0
  requested := 0
  previousFree := false

/-- `heap_core_validate` -/
def heapCoreValidate (h : HeapCore γ) : Option Bool :=
  if contextValid h then
    (validateLoop h (h.mappedSize + 1) 0 (validateStart h)).map fun
      | none => false
      | some st =>
        st.requested = h.usedBytes ∧ st.live = h.liveAllocations ∧
          st.requested ≤ h.peakUsage ∧ st.freeCurrent = heapNone
  else some false

/-- `heap_core_init` -/
def heapCoreInit (h : HeapCore γ) (base initialSize maxSize growthSize : Nat) (debugPoison : Bool)
    (ops : HeapOps γ) : Option (HeapCore γ) :=
  if h.initialized ∨ base = 0 ∨ base &&& heapFlagMask ≠ 0 ∨ initialSize < heapMinBlock ∨
      maxSize < initialSize ∨ growthSize < heapMinBlock ∨
      (initialSize ||| maxSize ||| growthSize) &&& heapFlagMask ≠ 0 ∨
      uint64Max - base < maxSize then
    none
  else
    let initial : HeapCore γ :=
      { base, mappedSize := initialSize, maxSize, growthSize, freeHead := 0, ops,
        usedBytes := 0, liveAllocations := 0, allocations := 0, frees := 0, peakUsage := 0,
        failedAllocations := 0, invalidFrees := 0, debugPoison, initialized := true,
        memory := h.memory }
    let initial := writeBlock initial 0 initialSize 0 0 false
    some (if debugPoison then fillArena initial headerSize 0xdd (initialSize - headerSize)
      else initial)

/-! ## The free list -/

/-- The forward link into a list position: the head of the list when there is no `prior` block. -/
def linkForward (h : HeapCore γ) (prior target : Nat) : HeapCore γ :=
  if prior = heapNone then { h with freeHead := target }
  else writeField h prior .freeNext target

/-- The backward link out of a list position, when there is a `next` block. -/
def linkBack (h : HeapCore γ) (next target : Nat) : HeapCore γ :=
  if next ≠ heapNone then writeField h next .freePrev target else h

/-- `remove_free` -/
def removeFree (h : HeapCore γ) (offset : Nat) : HeapCore γ :=
  let prior := readField h offset .freePrev
  let next := readField h offset .freeNext
  let h := linkForward h prior next
  let h := linkBack h next prior
  writeField (writeField h offset .freePrev heapNone) offset .freeNext heapNone

/-- The loop of `insert_free`: the neighbours of `offset` in the ordered list. -/
def insertFreeLoop (h : HeapCore γ) (offset : Nat) : Nat → Nat → Nat → Option (Nat × Nat)
  | 0, _, _ => none
  | fuel + 1, prior, current =>
    if current ≠ heapNone ∧ current < offset then
      insertFreeLoop h offset fuel current (readField h current .freeNext)
    else some (prior, current)

/-- `insert_free` -/
def insertFree (h : HeapCore γ) (offset : Nat) : Option (HeapCore γ) := do
  let (prior, current) ← insertFreeLoop h offset (h.mappedSize + 1) heapNone h.freeHead
  let h := writeField (writeField h offset .freePrev prior) offset .freeNext current
  return linkBack (linkForward h prior offset) current offset

/-- `following_previous` -/
def followingPrevious (h : HeapCore γ) (offset size : Nat) : HeapCore γ :=
  if offset + size < h.mappedSize then writeField h (offset + size) .prevSize size else h

/-- `poison_free` -/
def poisonFree (h : HeapCore γ) (offset : Nat) : HeapCore γ :=
  if h.debugPoison then
    fillArena h (offset + headerSize) 0xdd (blockSize h offset - headerSize)
  else h

/-- The common end of `trim_block` and `release`: a free block at `offset`, tagged, linked and
poisoned. -/
def makeFree (h : HeapCore γ) (offset size previous : Nat) : Option (HeapCore γ) := do
  let h := writeBlock h offset size previous 0 false
  let h := followingPrevious h offset size
  let h ← insertFree h offset
  return poisonFree h offset

/-- Take the block at `next` out of the free list if there is one and it is free, and add its size
to `size`. -/
def absorbNext (h : HeapCore γ) (next size : Nat) : HeapCore γ × Nat :=
  if next < h.mappedSize ∧ ¬ blockUsed h next then
    (removeFree h next, size + blockSize h next)
  else (h, size)

/-- The loop of `find_fit`. -/
def findFitLoop (h : HeapCore γ) (needed : Nat) : Nat → Nat → Option Nat
  | 0, _ => none
  | fuel + 1, offset =>
    if offset ≠ heapNone then
      if needed ≤ blockSize h offset then some offset
      else findFitLoop h needed fuel (readField h offset .freeNext)
    else some heapNone

/-- `find_fit` -/
def findFit (h : HeapCore γ) (needed : Nat) : Option Nat :=
  findFitLoop h needed (h.mappedSize + 1) h.freeHead

/-- The loop of `last_block`. -/
def lastBlockLoop (h : HeapCore γ) : Nat → Nat → Option Nat
  | 0, _ => none
  | fuel + 1, offset =>
    if offset + blockSize h offset < h.mappedSize then
      lastBlockLoop h fuel (offset + blockSize h offset)
    else some offset

/-- `last_block` -/
def lastBlock (h : HeapCore γ) : Option Nat := lastBlockLoop h (h.mappedSize + 1) 0

/-! ## Growing -/

/-- The number of bytes `grow_heap` asks for: whole growth units, or all that is left. -/
def growExtra (h : HeapCore γ) (required available : Nat) : Nat :=
  let units := required / h.growthSize + if required % h.growthSize ≠ 0 then 1 else 0
  if units ≤ available / h.growthSize then units * h.growthSize else available

/-- The part of `grow_heap` after the callback has appended the pages. -/
def growCommit (h : HeapCore γ) (tailOffset tailSize extra : Nat) : Option (HeapCore γ) :=
  let oldSize := h.mappedSize
  let h := { h with mappedSize := oldSize + extra }
  if ¬ blockUsed h tailOffset then do
    let h := removeFree h tailOffset
    let h := writeBlock h tailOffset (tailSize + extra) (readField h tailOffset .prevSize) 0 false
    let h ← insertFree h tailOffset
    return poisonFree h tailOffset
  else do
    let h := writeBlock h oldSize extra tailSize 0 false
    let h ← insertFree h oldSize
    return poisonFree h oldSize

/-- A successful callback maps the bytes `[oldSize, newSize)` of the arena. -/
def appendPages (h : HeapCore γ) (oldSize newSize : Nat) (bytes : Nat → UInt8) : HeapCore γ :=
  { h with memory := fun a =>
      if h.base + oldSize ≤ a ∧ a < h.base + newSize then bytes (a - h.base) else h.memory a }

/-- `grow_heap` -/
def growHeap (h : HeapCore γ) (needed : Nat) : Option (HeapCore γ × Bool) :=
  match h.ops.grow with
  | none => some (h, false)
  | some grow =>
    if h.mappedSize = h.maxSize then some (h, false)
    else do
      let needed := if needed < heapMinBlock then heapMinBlock else needed
      let tailOffset ← lastBlock h
      let tailSize := blockSize h tailOffset
      let tailFree := if blockUsed h tailOffset then 0 else tailSize
      if needed ≤ tailFree then
        return (h, true)
      let required := needed - tailFree
      let available := h.maxSize - h.mappedSize
      if available < required then
        return (h, false)
      let extra := growExtra h required available
      let reply := grow h.ops.context h.mappedSize (h.mappedSize + extra)
      let h := { h with ops := { h.ops with context := reply.context } }
      if ¬ reply.granted then
        return (h, false)
      let h := appendPages h h.mappedSize (h.mappedSize + extra) reply.bytes
      let h ← growCommit h tailOffset tailSize extra
      return (h, true)

/-! ## Allocation -/

/-- `required_size`; `none` is `return false`. -/
def requiredSize (requested : Nat) : Option Nat :=
  let extra := headerSize + heapFlagMask
  if requested = 0 ∨ uint64Max - extra < requested then none
  else some (alignDown (requested + extra) (heapFlagMask + 1))

/-- `trim_block` -/
def trimBlock (h : HeapCore γ) (offset needed : Nat) : Option (HeapCore γ) :=
  let size := blockSize h offset
  if size - needed < heapMinBlock then some h
  else
    let (h, remainderSize) := absorbNext h (offset + size) (size - needed)
    let h := writeField h offset .sizeFlags (needed ||| heapUsed)
    makeFree h (offset + needed) remainderSize needed

/-- `if (heap->used_bytes > heap->peak_usage) heap->peak_usage = heap->used_bytes` -/
def raisePeak (h : HeapCore γ) : HeapCore γ :=
  if h.peakUsage < h.usedBytes then { h with peakUsage := h.usedBytes } else h

/-- The part of `allocate` after a fitting free block was found. -/
def allocateAt (h : HeapCore γ) (offset requested needed : Nat) : Option (HeapCore γ × Nat) := do
  let h := removeFree h offset
  let h := writeField h offset .sizeFlags (readField h offset .sizeFlags ||| heapUsed)
  let h := writeField h offset .requested requested
  let h ← trimBlock h offset needed
  let h := { h with
    usedBytes := addU64 h.usedBytes requested
    liveAllocations := addU64 h.liveAllocations 1
    allocations := increment h.allocations }
  let h := raisePeak h
  let h := if h.debugPoison then
      fillArena h (offset + headerSize) 0xcd (blockSize h offset - headerSize)
    else h
  return (h, h.base + offset + headerSize)

/-- `allocate`; the pointer `0` is `NULL`. -/
def allocate (h : HeapCore γ) (requested needed : Nat) (allowGrowth : Bool) :
    Option (HeapCore γ × Nat) := do
  let offset ← findFit h needed
  if offset ≠ heapNone then
    allocateAt h offset requested needed
  else if allowGrowth then
    let (h, grown) ← growHeap h needed
    if grown then
      let offset ← findFit h needed
      if offset ≠ heapNone then allocateAt h offset requested needed else return (h, 0)
    else return (h, 0)
  else return (h, 0)

/-- `failed_allocation` -/
def failedAllocation (h : HeapCore γ) : HeapCore γ :=
  if h.initialized then { h with failedAllocations := increment h.failedAllocations } else h

/-- `heap_core_alloc` -/
def heapCoreAlloc (h : HeapCore γ) (size : Nat) : Option (HeapCore γ × Nat) := do
  if size = 0 then
    return (h, 0)
  if ¬ (← heapCoreValidate h) then
    return (failedAllocation h, 0)
  match requiredSize size with
  | none => return (failedAllocation h, 0)
  | some needed =>
    let (h, pointer) ← allocate h size needed true
    return if pointer = 0 then (failedAllocation h, pointer) else (h, pointer)

/-- `heap_core_calloc` -/
def heapCoreCalloc (h : HeapCore γ) (count size : Nat) : Option (HeapCore γ × Nat) := do
  if count = 0 ∨ size = 0 then
    return (h, 0)
  if uint64Max / size < count then
    return (failedAllocation h, 0)
  let bytes := count * size
  let (h, pointer) ← heapCoreAlloc h bytes
  return if pointer ≠ 0 then ({ h with memory := memset h.memory pointer 0 bytes }, pointer)
    else (h, pointer)

/-! ## Release and resizing -/

/-- `pointer_offset`; `heapNone` for a pointer that is not the payload of a used block. -/
def pointerOffset (h : HeapCore γ) (pointer : Nat) : Option Nat :=
  if pointer < h.base ∨ pointer - h.base < headerSize ∨ h.mappedSize ≤ pointer - h.base ∨
      pointer &&& heapFlagMask ≠ 0 then
    some heapNone
  else do
    let offset := pointer - h.base - headerSize
    let block ← exactBlock h offset
    return if block.isSome ∧ blockUsed h offset then offset else heapNone

/-- The first part of `release`: a free block before `offset` is taken out of the list and becomes
the start of the block to be freed. The result is the heap with the offset, size and boundary tag
of that block. -/
def absorbPrevious (h : HeapCore γ) (offset size previous : Nat) : HeapCore γ × Nat × Nat × Nat :=
  if previous ≠ 0 ∧ ¬ blockUsed h (offset - previous) then
    let before := offset - previous
    let h := removeFree h before
    (h, before, size + previous, readField h before .prevSize)
  else (h, offset, size, previous)

/-- `release` -/
def release (h : HeapCore γ) (offset : Nat) : Option (HeapCore γ) :=
  let size := blockSize h offset
  let previous := readField h offset .prevSize
  let h := { h with
    usedBytes := subU64 h.usedBytes (readField h offset .requested)
    liveAllocations := subU64 h.liveAllocations 1
    frees := increment h.frees }
  let (h, offset, size, previous) := absorbPrevious h offset size previous
  let (h, size) := absorbNext h (offset + size) size
  makeFree h offset size previous

/-- `heap_core_free` -/
def heapCoreFree (h : HeapCore γ) (pointer : Nat) : Option (HeapCore γ × Bool) := do
  if pointer = 0 then
    return (h, true)
  let rejected := { h with invalidFrees := increment h.invalidFrees }
  if ¬ (← heapCoreValidate h) then
    return (if h.initialized then rejected else h, false)
  let offset ← pointerOffset h pointer
  if offset = heapNone then
    return (rejected, false)
  let h ← release h offset
  return (h, true)

/-- `resize_block` -/
def resizeBlock (h : HeapCore γ) (offset size needed : Nat) : Option (HeapCore γ) := do
  let oldRequested := readField h offset .requested
  let h := { h with usedBytes := addU64 (subU64 h.usedBytes oldRequested) size }
  let h := writeField h offset .requested size
  let h ← trimBlock h offset needed
  let h := raisePeak h
  if h.debugPoison then
    let payload := offset + headerSize
    let h := if oldRequested < size then
        fillArena h (payload + oldRequested) 0xcd (size - oldRequested)
      else h
    return fillArena h (payload + size) 0xdd (blockSize h offset - headerSize - size)
  else return h

/-- `consume_next` -/
def consumeNext (h : HeapCore γ) (offset needed : Nat) : HeapCore γ × Bool :=
  let current := blockSize h offset
  let next := offset + current
  if next = h.mappedSize ∨ blockUsed h next ∨ blockSize h next < needed - current then (h, false)
  else
    let combined := current + blockSize h next
    let h := removeFree h next
    let h := writeField h offset .sizeFlags (combined ||| heapUsed)
    (followingPrevious h offset combined, true)

/-- The last part of `heap_core_realloc`: copy to the replacement and release the old block. -/
def moveBlock (h : HeapCore γ) (pointer offset size replacement : Nat) :
    Option (HeapCore γ × Nat) := do
  if replacement = 0 then
    return (failedAllocation h, 0)
  let old := readField h offset .requested
  let copy := if old < size then old else size
  let h ← release { h with memory := memcpy h.memory replacement pointer copy } offset
  return (h, replacement)

/-- Whether the block at `offset` ends the arena, or is followed by a free block that does. -/
def atTail (h : HeapCore γ) (offset current : Nat) : Bool :=
  let next := offset + current
  next = h.mappedSize ∨ (¬ blockUsed h next ∧ next + blockSize h next = h.mappedSize)

/-- The part of `heap_core_realloc` for a block that can neither stay nor take its neighbour. -/
def reallocElsewhere (h : HeapCore γ) (pointer offset size needed current : Nat) :
    Option (HeapCore γ × Nat) := do
  let (h, replacement) ← allocate h size needed false
  if replacement ≠ 0 then
    moveBlock h pointer offset size replacement
  else if atTail h offset current then
    let (h, grown) ← growHeap h (needed - current)
    if grown then
      let (h, consumed) := consumeNext h offset needed
      if consumed then
        let h ← resizeBlock h offset size needed
        return (h, pointer)
      else moveBlock h pointer offset size 0
    else moveBlock h pointer offset size 0
  else
    let (h, replacement) ← allocate h size needed true
    moveBlock h pointer offset size replacement

/-- `heap_core_realloc` -/
def heapCoreRealloc (h : HeapCore γ) (pointer size : Nat) : Option (HeapCore γ × Nat) := do
  if pointer = 0 then
    heapCoreAlloc h size
  else if size = 0 then
    let (h, _) ← heapCoreFree h pointer
    return (h, 0)
  else if ¬ (← heapCoreValidate h) then
    return (failedAllocation h, 0)
  else
    match requiredSize size with
    | none => return (failedAllocation h, 0)
    | some needed =>
      let offset ← pointerOffset h pointer
      if offset = heapNone then
        return (failedAllocation h, 0)
      let current := blockSize h offset
      if needed ≤ current then
        let h ← resizeBlock h offset size needed
        return (h, pointer)
      let (h, consumed) := consumeNext h offset needed
      if consumed then
        let h ← resizeBlock h offset size needed
        return (h, pointer)
      reallocElsewhere h pointer offset size needed current

/-! ## Statistics -/

/-- `struct heap_stats` -/
structure HeapStats where
  mappedBytes : Nat
  usedBytes : Nat
  freeBytes : Nat
  overheadBytes : Nat
  liveAllocations : Nat
  allocations : Nat
  frees : Nat
  peakUsage : Nat
  failedAllocations : Nat
  invalidFrees : Nat
  largestFreeBytes : Nat

/-- The loop of `heap_core_get_stats`: the payload bytes of the free blocks and of the
largest one. -/
def statsLoop (h : HeapCore γ) : (fuel offset freeBytes largest : Nat) → Option (Nat × Nat)
  | 0, _, _, _ => none
  | fuel + 1, offset, freeBytes, largest =>
    if offset ≠ heapNone then
      let bytes := blockSize h offset - headerSize
      statsLoop h fuel (readField h offset .freeNext) (addU64 freeBytes bytes)
        (if largest < bytes then bytes else largest)
    else some (freeBytes, largest)

/-- `heap_core_get_stats`; `some none` is `return false`. -/
def heapCoreGetStats (h : HeapCore γ) : Option (Option HeapStats) := do
  if ¬ (← heapCoreValidate h) then
    return none
  let (freeBytes, largest) ← statsLoop h (h.mappedSize + 1) h.freeHead 0 0
  return some {
    mappedBytes := h.mappedSize
    usedBytes := h.usedBytes
    freeBytes
    overheadBytes := subU64 (subU64 h.mappedSize h.usedBytes) freeBytes
    liveAllocations := h.liveAllocations
    allocations := h.allocations
    frees := h.frees
    peakUsage := h.peakUsage
    failedAllocations := h.failedAllocations
    invalidFrees := h.invalidFrees
    largestFreeBytes := largest }

end Utamo.Heap
