import Utamo.Lib.ByteMemory
import Utamo.Memory.Helpers

/-!
# The page-table editor

`kernel/memory/vmm_core.c`. A table is a page of physical memory with 512 entries of eight bytes;
the pointer that the `table` callback returns for a frame is identified with the address of the
frame, so table contents are read and written in the bytes of physical memory.

The callbacks work on a context of their own. `table` says whether a frame may be accessed in a
context; `free` and `commit` may panic, which is the `none` of the operations. Everything else that
can go wrong is the result `false`.
-/

set_option autoImplicit false

namespace Utamo.Vmm

open Lib Lib.ByteMemory Memory

variable {γ : Type}

/-- `VMM_PRESENT` -/
def vmmPresent : Nat := 1

/-- `VMM_WRITABLE` -/
def vmmWritable : Nat := 2

/-- `VMM_USER` -/
def vmmUser : Nat := 4

/-- `VMM_WRITE_THROUGH` -/
def vmmWriteThrough : Nat := 8

/-- `VMM_CACHE_DISABLE` -/
def vmmCacheDisable : Nat := 16

/-- `VMM_ACCESSED` -/
def vmmAccessed : Nat := 32

/-- `VMM_DIRTY` -/
def vmmDirty : Nat := 64

/-- `VMM_HUGE` -/
def vmmHuge : Nat := 128

/-- `VMM_GLOBAL` -/
def vmmGlobal : Nat := 256

/-- `VMM_NX` -/
def vmmNx : Nat := 2 ^ 63

/-- `VMM_ADDRESS_MASK` -/
def vmmAddressMask : Nat := 0x000ffffffffff000

/-- `VMM_PERMISSION_MASK` -/
def vmmPermissionMask : Nat :=
  vmmPresent ||| vmmWritable ||| vmmUser ||| vmmWriteThrough ||| vmmCacheDisable ||| vmmGlobal |||
    vmmNx

/-- `VMM_NEW_PARENT_FLAGS` -/
def vmmNewParentFlags : Nat := vmmPresent ||| vmmWritable ||| vmmUser

/-- `VMM_LARGE_PAT` -/
def vmmLargePat : Nat := 2 ^ 12

/-- `(word & flag) != 0` -/
def hasFlag (word flag : Nat) : Bool := word &&& flag ≠ 0

/-- `struct vmm_mapping` -/
structure VmmMapping where
  mapped : Bool
  physical : Nat
  flags : Nat
  pageSize : Nat
  deriving DecidableEq, Repr

/-- `struct vmm_ops`, without the context the callbacks work on. -/
structure VmmOps (γ : Type) where
  table : γ → Nat → Bool
  alloc : γ → Option Nat × γ
  free : γ → Nat → Option γ
  commit : γ → Nat → Option γ
  invalidate : γ → Nat → γ

/-- `struct vmm_space` -/
structure VmmSpace (γ : Type) where
  rootPhys : Nat
  physicalMask : Nat
  nxEnabled : Bool
  initialized : Bool
  ops : VmmOps γ

/-- What the operations change: the context of the callbacks and physical memory. -/
structure VmmState (γ : Type) where
  context : γ
  memory : ByteMemory

/-- `struct walk_result` -/
structure WalkResult where
  entry : Nat
  value : Nat
  level : Nat
  missing : Bool
  parentWritable : Bool
  parentUser : Bool
  parentNx : Bool
  deriving DecidableEq, Repr

/-- `physical_valid` -/
def physicalValid (space : VmmSpace γ) (phys : Nat) : Bool :=
  memoryIsPageAligned phys ∧ phys &&& notU64 space.physicalMask = 0

/-- `level_page_size` -/
def levelPageSize (level : Nat) : Nat := 2 ^ (12 + 9 * (level - 1))

/-- `entry_valid` -/
def entryValid (space : VmmSpace γ) (entry level : Nat) : Bool :=
  if entry &&& (vmmAddressMask &&& notU64 space.physicalMask) ≠ 0 ∨
      (¬ space.nxEnabled ∧ hasFlag entry vmmNx) ∨ (level = 4 ∧ hasFlag entry vmmHuge) then
    false
  else if (level = 2 ∨ level = 3) ∧ hasFlag entry vmmHuge then
    entry &&& ((levelPageSize level - 1) &&& vmmAddressMask &&& notU64 vmmLargePat) = 0
  else true

/-- The address of a table entry. -/
def entryAddress (phys index : Nat) : Nat := phys + 8 * index

/-- The loop of `walk`, from `level` down. -/
def walkLoop (space : VmmSpace γ) (table : Nat → Bool) (memory : ByteMemory) (virt : Nat) :
    Nat → Nat → List Nat → Bool → Bool → Bool → Option WalkResult
  | 0, _, _, _, _, _ => none
  | level + 1, phys, ancestors, writable, user, nx =>
    if phys ∈ ancestors then none
    else if ¬ table phys then none
    else
      let entry := entryAddress phys (memoryPageIndex virt (level + 1))
      let value := load64 memory entry
      let missing := ¬ hasFlag value vmmPresent
      if ¬ missing ∧ ¬ entryValid space value (level + 1) then none
      else if missing ∨ level + 1 = 1 ∨ hasFlag value vmmHuge then
        some { entry, value, level := level + 1, missing, parentWritable := writable,
               parentUser := user, parentNx := nx }
      else
        walkLoop space table memory virt level (value &&& space.physicalMask)
          (phys :: ancestors) (writable && hasFlag value vmmWritable)
          (user && hasFlag value vmmUser) (nx || hasFlag value vmmNx)

/-- `walk` -/
def walk (space : VmmSpace γ) (s : VmmState γ) (virt : Nat) : Option WalkResult :=
  if ¬ space.initialized ∨ ¬ memoryIsCanonical virt then none
  else
    walkLoop space (space.ops.table s.context) s.memory virt 4 space.rootPhys [] true true false

/-- `vmm_space_init` -/
def vmmSpaceInit (context : γ) (rootPhys physicalBits : Nat) (nxEnabled : Bool) (ops : VmmOps γ) :
    Option (VmmSpace γ) := do
  let mask ← memoryPhysicalMask physicalBits
  if ¬ memoryIsPageAligned rootPhys ∨ rootPhys &&& notU64 mask ≠ 0 ∨
  ¬ ops.table context rootPhys then
    none
  else
    return { rootPhys, physicalMask := mask, nxEnabled, initialized := true, ops }

/-- The attributes that `vmm_space_query` reports for a walk that ended at a leaf. -/
def mappingFlags (found : WalkResult) : Nat :=
  let flags := found.value &&& notU64 vmmAddressMask
  let flags := if found.level ≠ 1 then flags ||| (found.value &&& vmmLargePat) else flags
  let flags := if ¬ found.parentWritable then flags &&& notU64 vmmWritable else flags
  let flags := if ¬ found.parentUser then flags &&& notU64 vmmUser else flags
  if found.parentNx then flags ||| vmmNx else flags

/-- `vmm_space_query` -/
def vmmSpaceQuery (space : VmmSpace γ) (s : VmmState γ) (virt : Nat) : Option VmmMapping := do
  let found ← walk space s virt
  if found.missing then
    return { mapped := false, physical := 0, flags := 0, pageSize := 0 }
  let pageSize := levelPageSize found.level
  return { mapped := true
           physical := (found.value &&& space.physicalMask &&& notU64 (pageSize - 1)) |||
             (virt &&& (pageSize - 1))
           flags := mappingFlags found
           pageSize }

/-- `flags_valid` -/
def flagsValid (space : VmmSpace γ) (flags : Nat) : Bool :=
  space.initialized ∧ hasFlag flags vmmPresent ∧ flags &&& notU64 vmmPermissionMask = 0 ∧
    (space.nxEnabled ∨ ¬ hasFlag flags vmmNx)

/-- `parents_allow` -/
def parentsAllow (found : WalkResult) (flags : Nat) : Bool :=
  (found.parentWritable ∨ ¬ hasFlag flags vmmWritable) ∧
    (found.parentUser ∨ ¬ hasFlag flags vmmUser) ∧ (¬ found.parentNx ∨ hasFlag flags vmmNx)

/-- `rollback`: the frames are freed in the reverse of the order in which they were acquired. -/
def rollback (space : VmmSpace γ) (context : γ) (frames : List Nat) : Option γ :=
  frames.reverse.foldlM space.ops.free context

/-- The first loop of `vmm_space_map`: acquire and clear `needed` further tables. When one of them
cannot be had, all that were acquired are rolled back and there are no frames. -/
def acquireTables (space : VmmSpace γ) :
    Nat → List Nat → VmmState γ → Option (VmmState γ × Option (List Nat))
  | 0, frames, s => some (s, some frames)
  | needed + 1, frames, s =>
    match space.ops.alloc s.context with
    | (none, context) => do
        let context ← rollback space context frames
        return ({ s with context }, none)
    | (some phys, context) =>
      if ¬ physicalValid space phys ∨ ¬ space.ops.table context phys then do
        let context ← rollback space context (frames ++ [phys])
        return ({ s with context }, none)
      else
        acquireTables space needed (frames ++ [phys])
          { context, memory := memset s.memory phys 0 memoryPageSize }

/-- The second loop of `vmm_space_map`: each new table refers to the next one, and the last one to
the page. -/
def linkTables (virt leaf : Nat) : Nat → List Nat → ByteMemory → ByteMemory
  | _, [], memory => memory
  | level, phys :: frames, memory =>
    let value := if level = 1 then leaf else frames.headD 0 ||| vmmNewParentFlags
    linkTables virt leaf (level - 1) frames
      (store64 memory (entryAddress phys (memoryPageIndex virt level)) value)

/-- The part of `vmm_space_map` for a walk that ended above the last level. -/
def mapThrough (space : VmmSpace γ) (s : VmmState γ) (found : WalkResult) (virt leaf : Nat) :
    Option (VmmState γ × Bool) := do
  let (s, acquired) ← acquireTables space (found.level - 1) [] s
  match acquired with
  | none => return (s, false)
  | some frames =>
    let memory := linkTables virt leaf (found.level - 1) frames s.memory
    let memory := store64 memory found.entry (frames.headD 0 ||| vmmNewParentFlags)
    let context ← frames.foldlM space.ops.commit s.context
    return ({ context := space.ops.invalidate context virt, memory }, true)

/-- `vmm_space_map` -/
def vmmSpaceMap (space : VmmSpace γ) (s : VmmState γ) (virt phys flags : Nat) :
    Option (VmmState γ × Bool) :=
  if ¬ flagsValid space flags ∨ ¬ physicalValid space phys ∨ ¬ memoryIsPageAligned virt then
    some (s, false)
  else
    match walk space s virt with
    | none => some (s, false)
    | some found =>
      if ¬ found.missing ∨ found.value ≠ 0 ∨ ¬ parentsAllow found flags then some (s, false)
      else if found.level = 1 then
        some ({ context := space.ops.invalidate s.context virt
                memory := store64 s.memory found.entry (phys ||| flags) }, true)
      else mapThrough space s found virt (phys ||| flags)

/-- `vmm_space_unmap` -/
def vmmSpaceUnmap (space : VmmSpace γ) (s : VmmState γ) (virt : Nat) : VmmState γ × Bool :=
  if ¬ memoryIsPageAligned virt then (s, false)
  else
    match walk space s virt with
    | none => (s, false)
    | some found =>
      if found.missing ∨ found.level ≠ 1 then (s, false)
      else
        ({ context := space.ops.invalidate s.context virt
           memory := store64 s.memory found.entry 0 }, true)

/-- `vmm_space_protect` -/
def vmmSpaceProtect (space : VmmSpace γ) (s : VmmState γ) (virt flags : Nat) :
    VmmState γ × Bool :=
  if ¬ flagsValid space flags ∨ ¬ memoryIsPageAligned virt then (s, false)
  else
    match walk space s virt with
    | none => (s, false)
    | some found =>
      if found.missing ∨ found.level ≠ 1 ∨ ¬ parentsAllow found flags then (s, false)
      else
        ({ context := space.ops.invalidate s.context virt
           memory := store64 s.memory found.entry
             ((found.value &&& notU64 vmmPermissionMask) ||| flags) }, true)

end Utamo.Vmm
