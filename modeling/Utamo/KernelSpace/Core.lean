import Utamo.AddressSpace.Core

/-!
# The address space of the kernel

The rest of `kernel/memory/vmm.c`, and `kernel/memory/mmio_policy.c`: the callbacks of the kernel's
own space, the calls that map and unmap pages of its dynamic part, and the permanent mappings of
device apertures. Here a page table comes from the memory manager as well, but once it is in use it
is pinned and never returned.

`KernelSystem` adds the remaining static variables to the system state. What the processor reports
about memory types is an argument of `vmm_map_mmio`. A translation lookaside buffer is not part of
the machine, so `cpu_invlpg` has no effect.
-/

set_option autoImplicit false

namespace Utamo.KernelSpace

open Lib Lib.ByteMemory Memory Pmm Vmm AddressSpace

/-- `VMM_DYNAMIC_SIZE` -/
def vmmDynamicSize : Nat := 2 ^ 39

/-- `UTAMO_MMIO_BASE` -/
def mmioBase : Nat := 0xffffc00080000000

/-- `UTAMO_MMIO_SIZE` -/
def mmioSize : Nat := 0x400000

/-- `UTAMO_MMIO_MAX` -/
def mmioMax : Nat := 0x100000

/-! ## State -/

/-- One element of the array `apertures`. -/
structure Aperture where
  start : Nat
  last : Nat
  deriving DecidableEq, Repr

/-- The static variables of `vmm_map_mmio`; `count` is the length of the list. -/
structure MmioState where
  used : Nat
  apertures : List Aperture
  deriving DecidableEq, Repr

/-- The system with the remaining static variables of `vmm.c`. -/
structure KernelSystem where
  system : System
  tablePages : Nat
  mmio : MmioState

/-- The whole machine, with physical memory. -/
abbrev KernelMachine := VmmState KernelSystem

/-- The part of the machine that the private address spaces live in. -/
def userPart (s : KernelMachine) : Machine := ⟨s.context.system, s.memory⟩

/-- The machine after an operation on that part. -/
def withUserPart (s : KernelMachine) (m : Machine) : KernelMachine :=
  ⟨{ s.context with system := m.context }, m.memory⟩

/-! ## Callbacks -/

/-- `table_allocate` -/
def tableAllocate (c : KernelSystem) : Option Nat × KernelSystem :=
  match pmmAllocPage c.system.pmm with
  | (pmm, phys) => (phys, { c with system := { c.system with pmm } })

/-- `table_release`; a frame that the memory manager does not take back is a panic. -/
def tableRelease (c : KernelSystem) (phys : Nat) : Option KernelSystem :=
  match pmmFreePage c.system.pmm phys with
  | (pmm, true) => some { c with system := { c.system with pmm } }
  | (_, false) => none

/-- `table_commit`; a frame that cannot be pinned is a panic. -/
def tableCommit (c : KernelSystem) (phys : Nat) : Option KernelSystem :=
  match pmmPinPage c.system.pmm phys with
  | (pmm, true) =>
    some { c with system := { c.system with pmm }, tablePages := addU64 c.tablePages 1 }
  | (_, false) => none

/-- The callbacks of `kernel_space`. -/
def kernelOps : VmmOps KernelSystem where
  table := fun c phys => (kernelTableAccess c.system.kernel phys).isSome
  alloc := tableAllocate
  free := tableRelease
  commit := tableCommit
  invalidate := fun c _ => c

/-- The physical address bits of the processor, as `vmm_space_init` stores them. -/
def kernelMask (kernel : KernelVmm) : Nat :=
  (memoryPhysicalMask kernel.information.physicalBits).getD 0

/-- `kernel_space`, once `memory_init` has initialized it. -/
def kernelSpace (kernel : KernelVmm) : VmmSpace KernelSystem where
  rootPhys := kernel.information.rootPhys
  physicalMask := kernelMask kernel
  nxEnabled := kernel.information.nxEnabled
  initialized := true
  ops := kernelOps

/-! ## Pages -/

/-- `dynamic_address` -/
def dynamicAddress (virt : Nat) : Bool :=
  vmmDynamicBase ≤ virt ∧ virt - vmmDynamicBase < vmmDynamicSize ∧
    ¬ (mmioBase ≤ virt ∧ virt - mmioBase < mmioSize)

/-- The flags that `vmm_map_page` and `vmm_protect_page` refuse. -/
def refusedFlags : Nat := vmmUser ||| vmmCacheDisable ||| vmmWriteThrough

/-- `vmm_map_page` -/
def vmmMapPage (s : KernelMachine) (virt phys flags : Nat) : Option (KernelMachine × Bool) :=
  let kernel := s.context.system.kernel
  match hhdmRegion kernel.directMap phys memoryPageSize with
  | none => some (s, false)
  | some region =>
    if kernel.ready ∧ dynamicAddress virt ∧ region.type = .usable ∧
        pmmIsAllocatedPage s.context.system.pmm phys ∧ flags &&& refusedFlags = 0 then
      vmmSpaceMap (kernelSpace kernel) s virt phys flags
    else some (s, false)

/-- `vmm_unmap_page` -/
def vmmUnmapPage (s : KernelMachine) (virt : Nat) : KernelMachine × Bool :=
  let kernel := s.context.system.kernel
  if kernel.ready ∧ dynamicAddress virt then vmmSpaceUnmap (kernelSpace kernel) s virt
  else (s, false)

/-- `vmm_protect_page` -/
def vmmProtectPage (s : KernelMachine) (virt flags : Nat) : KernelMachine × Bool :=
  let kernel := s.context.system.kernel
  if kernel.ready ∧ dynamicAddress virt ∧ flags &&& refusedFlags = 0 then
    vmmSpaceProtect (kernelSpace kernel) s virt flags
  else (s, false)

/-- `vmm_query_page` -/
def vmmQueryPage (s : KernelMachine) (virt : Nat) : Option VmmMapping :=
  let kernel := s.context.system.kernel
  if kernel.ready then vmmSpaceQuery (kernelSpace kernel) s virt else none

/-! ## Device apertures -/

/-- `mmio_range_allowed` -/
def mmioRangeAllowed (map : MemoryMap) (physical bytes : Nat) : Bool :=
  if map.regions.length = 0 ∨ memoryRegionLimit < map.regions.length ∨ physical < 0x100000 ∨
      physical &&& 4095 ≠ 0 ∨ bytes = 0 ∨ bytes &&& 4095 ≠ 0 ∨ mmioMax < bytes ∨
      uint64Max - physical < bytes then
    false
  else
    map.regions.all fun r =>
      ¬ (r.length = 0 ∨ uint64Max - r.base < r.length) ∧
        ¬ (physical < r.base + r.length ∧ r.base < physical + bytes ∧ r.type ≠ .reserved)

/-- The checks of `vmm_map_mmio` before anything is mapped: `edx` is the answer of `CPUID` leaf 1
and `pat` the register `0x277`. -/
def mmioAccepted (c : KernelSystem) (physical bytes edx pat : Nat) : Bool :=
  let kernel := c.system.kernel
  kernel.ready ∧ c.mmio.apertures.length < 16 ∧
    mmioRangeAllowed kernel.directMap.map physical bytes ∧
    bytes ≤ subU64 mmioSize c.mmio.used ∧
    (physical + bytes - 1) &&& notU64 (kernelMask kernel ||| 4095) = 0 ∧
    edx &&& 2 ^ 16 ≠ 0 ∧ (pat >>> 24) &&& 255 = 0 ∧
    ∀ a ∈ c.mmio.apertures, ¬ (physical < a.last ∧ a.start < physical + bytes)

/-- The flags of a device page. -/
def mmioFlags (kernel : KernelVmm) : Nat :=
  vmmPresent ||| vmmWritable ||| vmmCacheDisable ||| vmmWriteThrough |||
    if kernel.information.nxEnabled then vmmNx else 0

/-- The loop of `vmm_map_mmio` over `pages` further pages, `index` pages from the start; the result
has the number of pages that are mapped, and whether it is all of them. -/
def mmioMapLoop (virt physical : Nat) :
    Nat → Nat → KernelMachine → Option (KernelMachine × Nat × Bool)
  | 0, index, s => some (s, index, true)
  | pages + 1, index, s => do
      let kernel := s.context.system.kernel
      let (s, good) ← vmmSpaceMap (kernelSpace kernel) s (virt + 4096 * index)
        (physical + 4096 * index) (mmioFlags kernel)
      if good then mmioMapLoop virt physical pages (index + 1) s else some (s, index, false)

/-- The rollback loop of `vmm_map_mmio`, from the last page that was mapped; a page that cannot be
unmapped is a panic. -/
def mmioRollback (virt : Nat) : Nat → KernelMachine → Option KernelMachine
  | 0, s => some s
  | done + 1, s =>
    match vmmSpaceUnmap (kernelSpace s.context.system.kernel) s (virt + 4096 * done) with
    | (s, true) => mmioRollback virt done s
    | (_, false) => none

/-- `vmm_map_mmio`; the result is `*out`. -/
def vmmMapMmio (s : KernelMachine) (physical bytes edx pat : Nat) :
    Option (KernelMachine × Option Nat) :=
  if mmioAccepted s.context physical bytes edx pat then do
    let virt := mmioBase + s.context.mmio.used
    let (s, done, good) ← mmioMapLoop virt physical (bytes / 4096) 0 s
    if good then
      let mmio : MmioState :=
        { used := addU64 s.context.mmio.used bytes
          apertures := s.context.mmio.apertures ++ [⟨physical, physical + bytes⟩] }
      return ({ s with context := { s.context with mmio } }, some virt)
    else do
      let s ← mmioRollback virt done s
      return (s, none)
  else some (s, none)

/-! ## Inherited tables -/

/-- The virtual address of an entry, sign extended. -/
def bootAddress (base level index : Nat) : Nat :=
  let virt := base ||| (index <<< (12 + (level - 1) * 9))
  if virt &&& 2 ^ 47 ≠ 0 then virt ||| 0xffff000000000000 else virt

/-- The loop of `validate_boot_tables`, which is left at the first entry that is refused. -/
def validateEntries (entry : Nat → Nat → Bool × Nat) : (rounds index visits : Nat) → Bool × Nat
  | 0, _, visits => (true, visits)
  | rounds + 1, index, visits =>
    match entry index visits with
    | (false, visits) => (false, visits)
    | (true, visits) => validateEntries entry rounds (index + 1) visits

/-- `validate_boot_tables` with its counter `boot_table_visits`, which counts the calls of a check
that fails as well; `ancestors` are the tables above. -/
def validateBootTables (s : KernelMachine) : (level phys base : Nat) → List Nat → Nat → Bool × Nat
  | 0, _, _, _, visits => (false, visits)
  | level + 1, phys, base, ancestors, visits =>
    let kernel := s.context.system.kernel
    if 65536 < visits + 1 then (false, visits + 1)
    else
      match hhdmRegion kernel.directMap phys memoryPageSize with
      | none => (false, visits + 1)
      | some region =>
        if region.type ≠ .bootloaderReclaimable ∨ phys ∈ ancestors ∨
            ¬ (kernelTableAccess kernel phys).isSome then
          (false, visits + 1)
        else
          validateEntries (fun index visits =>
            let entry := load64 s.memory (entryAddress phys index)
            if ¬ hasFlag entry vmmPresent then (true, visits)
            else if entry &&& vmmAddressMask &&& notU64 (kernelMask kernel) ≠ 0 ∨
                (¬ kernel.information.nxEnabled ∧ hasFlag entry vmmNx) ∨
                (level + 1 = 4 ∧ hasFlag entry vmmHuge) then
              (false, visits)
            else
              let virt := bootAddress base (level + 1) index
              if level + 1 = 1 ∨ hasFlag entry vmmHuge then
                match vmmSpaceQuery (kernelSpace kernel) s virt with
                | none => (false, visits)
                | some mapping => (mapping.mapped, visits)
              else
                validateBootTables s level (entry &&& kernelMask kernel) virt (phys :: ancestors)
                  visits)
            512 0 (visits + 1)

end Utamo.KernelSpace
