import Utamo.Lib.Loop
import Utamo.Pmm.Pages
import Utamo.Vmm.Kernel

/-!
# Private address spaces

`kernel/memory/user_vm.c`. A `user_vm` owns the frames of its pages and of its page tables, and
keeps a ledger of both; the tables themselves are edited by `vmm_core.c` through the callbacks
below, which allocate from and return to the physical memory manager.

The machine consists of physical memory and of a system state: the memory manager, the kernel's
address space, two control registers and the `user_vm` objects by their address (0 is `NULL`).
A panic is the result `none`. Interrupts are off during every operation, so the flag that is saved
and restored does not occur.
-/

set_option autoImplicit false

namespace Utamo.AddressSpace

open Lib Lib.ByteMemory Memory Pmm Vmm

/-- `USER_VM_PAGE_LIMIT` -/
def userVmPageLimit : Nat := 128

/-- `USER_VM_TABLE_LIMIT` -/
def userVmTableLimit : Nat := 64

/-- `USER_VM_MIN` -/
def userVmMin : Nat := 0x10000

/-- `USER_VM_END` -/
def userVmEnd : Nat := 0x0000800000000000

/-- `USER_VM_COPY_LIMIT` -/
def userVmCopyLimit : Nat := 65536

/-- `USER_VM_COPY_CHUNKS` -/
def userVmCopyChunks : Nat := userVmCopyLimit / memoryPageSize + 1

/-- `USER_VM_WRITE` -/
def userVmWrite : UInt32 := 1

/-- `USER_VM_EXEC` -/
def userVmExec : UInt32 := 2

/-- `USER_VM_LEAF_FLAGS` -/
def userVmLeafFlags : Nat :=
  vmmPresent ||| vmmWritable ||| vmmUser ||| vmmAccessed ||| vmmDirty ||| vmmNx

/-- `UTAMO_CR4_LA57` -/
def cr4La57 : Nat := 2 ^ 12

/-- `UTAMO_CR4_PCIDE` -/
def cr4Pcide : Nat := 2 ^ 17

/-! ## State -/

/-- `struct user_vm_page` -/
structure UserVmPage where
  virt : Nat
  phys : Nat
  allocated : Bool
  deriving DecidableEq, Repr

/-- `struct user_vm_table` -/
structure UserVmTable where
  phys : Nat
  allocated : Bool
  published : Bool
  deriving DecidableEq, Repr

/-- The `struct vmm_space` inside a `struct user_vm`. Its callbacks are always the ones below;
`context` is the address in `ops.context`. -/
structure UserSpace where
  rootPhys : Nat
  physicalMask : Nat
  nxEnabled : Bool
  initialized : Bool
  context : Nat
  deriving DecidableEq, Repr

/-- `struct user_vm` -/
structure UserVm where
  space : UserSpace
  pages : Nat → UserVmPage
  tables : Nat → UserVmTable
  pageCount : Nat
  tableCount : Nat
  initialized : Bool

/-- `(struct user_vm_page){0}` -/
def UserVmPage.zero : UserVmPage := ⟨0, 0, false⟩

/-- `(struct user_vm_table){0}` -/
def UserVmTable.zero : UserVmTable := ⟨0, false, false⟩

/-- `(struct user_vm){0}` -/
def UserVm.zero : UserVm where
  space := ⟨0, 0, false, false, 0⟩
  pages := fun _ => .zero
  tables := fun _ => .zero
  pageCount := 0
  tableCount := 0
  initialized := false

/-- The state of the system, without physical memory. -/
structure System where
  pmm : PmmState
  kernel : KernelVmm
  vms : Nat → UserVm
  cr3 : Nat
  cr4 : Nat

/-- The system state with physical memory. -/
abbrev Machine := VmmState System

/-- Write the object at an address. -/
def System.setVm (c : System) (vm : Nat) (value : UserVm) : System :=
  { c with vms := Function.update c.vms vm value }

/-! ## Checks -/

/-- `valid_address` -/
def validAddress (virt : Nat) : Bool := userVmMin ≤ virt ∧ virt < userVmEnd

/-- `valid_access` -/
def validAccess (access : UInt32) : Bool :=
  access &&& ~~~(userVmWrite ||| userVmExec) = 0 ∧ access ≠ userVmWrite ||| userVmExec

/-- `access_flags` -/
def accessFlags (access : UInt32) : Nat :=
  vmmPresent ||| vmmUser ||| (if access &&& userVmWrite ≠ 0 then vmmWritable else 0) |||
    (if access &&& userVmExec = 0 then vmmNx else 0)

/-- `ready` -/
def ready (c : System) (vm : Nat) : Bool :=
  let v := c.vms vm
  vm ≠ 0 ∧ v.initialized ∧ v.space.initialized ∧ v.space.nxEnabled ∧ v.space.context = vm ∧
    v.pageCount ≤ userVmPageLimit ∧ v.tableCount ≠ 0 ∧ v.tableCount ≤ userVmTableLimit ∧
    (v.tables 0).allocated ∧ (v.tables 0).published ∧ (v.tables 0).phys = v.space.rootPhys

/-- `page_slot` -/
def pageSlot (v : UserVm) (virt : Nat) : Nat :=
  firstIndex 0 userVmPageLimit fun i =>
    (v.pages i).allocated ∧ (v.pages i).virt = memoryAlignDown virt

/-- `table_slot` -/
def tableSlot (v : UserVm) (phys : Nat) : Nat :=
  firstIndex 0 userVmTableLimit fun i => (v.tables i).allocated ∧ (v.tables i).phys = phys

/-! ## Callbacks -/

/-- `table_access` -/
def tableAccess (vm : Nat) (c : System) (phys : Nat) : Bool :=
  ¬ (tableSlot (c.vms vm) phys = userVmTableLimit ∨ ¬ pmmIsAllocatedPage c.pmm phys ∨
    (memoryPhysToVirt c.kernel phys memoryPageSize).isNone)

/-- `table_allocate` -/
def tableAllocate (vm : Nat) (c : System) : Option Nat × System :=
  let v := c.vms vm
  if userVmTableLimit ≤ v.tableCount then (none, c)
  else
    let slot := firstIndex 1 userVmTableLimit fun i => !(v.tables i).allocated
    if slot = userVmTableLimit then (none, c)
    else
      match pmmAllocPage c.pmm with
      | (pmm, none) => (none, { c with pmm })
      | (pmm, some phys) =>
        (some phys, { c with pmm }.setVm vm
          { v with tables := Function.update v.tables slot ⟨phys, true, false⟩
                   tableCount := v.tableCount + 1 })

/-- `release_frame` -/
def releaseFrame (c : System) (phys : Nat) : Option System :=
  match pmmFreePage c.pmm phys with
  | (pmm, true) => some { c with pmm }
  | (_, false) => none

/-- `table_release` -/
def tableRelease (vm : Nat) (c : System) (phys : Nat) : Option System :=
  let v := c.vms vm
  let slot := tableSlot v phys
  if slot = 0 ∨ slot = userVmTableLimit ∨ (v.tables slot).published then none
  else do
    let c ← releaseFrame c phys
    return c.setVm vm { v with tables := Function.update v.tables slot .zero
                               tableCount := v.tableCount - 1 }

/-- `table_commit` -/
def tableCommit (vm : Nat) (c : System) (phys : Nat) : Option System :=
  let v := c.vms vm
  let slot := tableSlot v phys
  if slot = 0 ∨ slot = userVmTableLimit ∨ (v.tables slot).published then none
  else
    some (c.setVm vm { v with
      tables := Function.update v.tables slot { v.tables slot with published := true } })

/-- `cpu_invlpg`: the translation caches of the processor are not part of the state. -/
def cpuInvlpg (c : System) (_virt : Nat) : System := c

/-- `invalidate` -/
def invalidate (vm : Nat) (c : System) (virt : Nat) : System :=
  if c.cr3 &&& (c.vms vm).space.physicalMask = (c.vms vm).space.rootPhys then cpuInvlpg c virt
  else c

/-- The callbacks of the object at an address. -/
def userOps (vm : Nat) : VmmOps System where
  table := tableAccess vm
  alloc := tableAllocate vm
  free := tableRelease vm
  commit := tableCommit vm
  invalidate := invalidate vm

/-- `vm->space` with its callbacks. -/
def UserSpace.toVmmSpace (space : UserSpace) : VmmSpace System where
  rootPhys := space.rootPhys
  physicalMask := space.physicalMask
  nxEnabled := space.nxEnabled
  initialized := space.initialized
  ops := userOps space.context

/-! ## Creation -/

/-- The stores of `user_vm_create` into the root table. -/
def rootMemory (memory : ByteMemory) (phys : Nat) (upper : Nat → Nat) : ByteMemory :=
  forRange 0 256
    (fun i memory => store64 memory (entryAddress phys (256 + i)) (upper i &&& notU64 vmmUser))
    (memset memory phys 0 memoryPageSize)

/-- The last part of `user_vm_create`: the root table is entered in the ledger, cleared, filled with
the upper half of the kernel and put into use. -/
def createRoot (s : Machine) (vm phys : Nat) (info : VmmInfo) (upper : Nat → Nat) :
    Option (Machine × Bool) :=
  let c := s.context
  if ¬ tableAccess vm c phys then do
    let c ← releaseFrame c phys
    return (⟨c.setVm vm .zero, s.memory⟩, false)
  else
    let memory := rootMemory s.memory phys upper
    match vmmSpaceInit c phys info.physicalBits true (userOps vm) with
    | none => do
        let c ← releaseFrame c phys
        return (⟨c.setVm vm .zero, memory⟩, false)
    | some space =>
      some (⟨c.setVm vm { c.vms vm with
        space := ⟨space.rootPhys, space.physicalMask, space.nxEnabled, space.initialized, vm⟩
        initialized := true }, memory⟩, true)

/-- `user_vm_create` -/
def userVmCreate (s : Machine) (vm : Nat) : Option (Machine × Bool) :=
  let c := s.context
  let v := c.vms vm
  if vm = 0 ∨ v.initialized ∨ v.space.initialized ∨ v.pageCount ≠ 0 ∨ v.tableCount ≠ 0 then
    some (s, false)
  else
    match vmmGetInfo c.kernel with
    | none => some (s, false)
    | some info =>
      if ¬ info.nxEnabled ∨ c.cr4 &&& (cr4La57 ||| cr4Pcide) ≠ 0 then some (s, false)
      else
        match vmmCopyKernelHalf c.kernel s.memory with
        | none => some (s, false)
        | some upper =>
          match pmmAllocPage c.pmm with
          | (pmm, none) => some (⟨{ c with pmm }, s.memory⟩, false)
          | (pmm, some phys) =>
            createRoot ⟨{ c with pmm }.setVm vm
              { v with tables := Function.update v.tables 0 ⟨phys, true, true⟩
                       tableCount := 1 }, s.memory⟩ vm phys info upper

/-! ## Pages -/

/-- The checks of `query_locked` on a mapped page, against the ledger. -/
def mappingOwned (c : System) (v : UserVm) (slot : Nat) (mapping : VmmMapping) : Bool :=
  ¬ (slot = userVmPageLimit ∨ mapping.pageSize ≠ memoryPageSize ∨
    memoryAlignDown mapping.physical ≠ (v.pages slot).phys ∨
    ¬ pmmIsAllocatedPage c.pmm (v.pages slot).phys ∨
    mapping.flags &&& (vmmPresent ||| vmmUser) ≠ vmmPresent ||| vmmUser ∨
    mapping.flags &&& notU64 userVmLeafFlags ≠ 0 ∨
    (hasFlag mapping.flags vmmWritable ∧ ¬ hasFlag mapping.flags vmmNx))

/-- `query_locked` -/
def queryLocked (s : Machine) (vm virt : Nat) : Option VmmMapping :=
  let v := s.context.vms vm
  if ¬ ready s.context vm ∨ ¬ validAddress virt then none
  else do
    let mapping ← vmmSpaceQuery v.space.toVmmSpace s virt
    let slot := pageSlot v virt
    if ¬ mapping.mapped then
      if slot ≠ userVmPageLimit then none else some mapping
    else if mappingOwned s.context v slot mapping then some mapping
    else none

/-- `user_vm_query` -/
def userVmQuery (s : Machine) (vm virt : Nat) : Option VmmMapping := queryLocked s vm virt

/-- The last part of `user_vm_alloc_page`: the frame is cleared, mapped and entered in the ledger,
or returned. -/
def mapNewPage (s : Machine) (vm slot virt phys : Nat) (access : UInt32) :
    Option (Machine × Bool) :=
  match memoryPhysToVirt s.context.kernel phys memoryPageSize with
  | none => do
      let c ← releaseFrame s.context phys
      return (⟨c, s.memory⟩, false)
  | some pointer => do
      let memory := memset s.memory pointer 0 memoryPageSize
      let (s, ok) ← vmmSpaceMap (s.context.vms vm).space.toVmmSpace ⟨s.context, memory⟩ virt phys
        (accessFlags access)
      if ¬ ok then do
        let c ← releaseFrame s.context phys
        return (⟨c, s.memory⟩, false)
      else
        let v := s.context.vms vm
        return (⟨s.context.setVm vm
          { v with pages := Function.update v.pages slot ⟨virt, phys, true⟩
                   pageCount := v.pageCount + 1 }, s.memory⟩, true)

/-- `user_vm_alloc_page` -/
def userVmAllocPage (s : Machine) (vm virt : Nat) (access : UInt32) : Option (Machine × Bool) :=
  let c := s.context
  let v := c.vms vm
  if ¬ ready c vm ∨ ¬ memoryIsPageAligned virt ∨ ¬ validAccess access ∨
      v.pageCount = userVmPageLimit then
    some (s, false)
  else
    match queryLocked s vm virt with
    | none => some (s, false)
    | some mapping =>
      if mapping.mapped then some (s, false)
      else
        let slot := firstIndex 0 userVmPageLimit fun i => !(v.pages i).allocated
        if slot = userVmPageLimit then some (s, false)
        else
          match pmmAllocPage c.pmm with
          | (pmm, none) => some (⟨{ c with pmm }, s.memory⟩, false)
          | (pmm, some phys) => mapNewPage ⟨{ c with pmm }, s.memory⟩ vm slot virt phys access

/-- `user_vm_unmap_page` -/
def userVmUnmapPage (s : Machine) (vm virt : Nat) : Option (Machine × Bool) :=
  if ¬ memoryIsPageAligned virt then some (s, false)
  else
    match queryLocked s vm virt with
    | none => some (s, false)
    | some mapping =>
      if ¬ mapping.mapped then some (s, false)
      else
        match vmmSpaceUnmap (s.context.vms vm).space.toVmmSpace s virt with
        | (s, false) => some (s, false)
        | (s, true) => do
            let v := s.context.vms vm
            let slot := pageSlot v virt
            let c ← releaseFrame s.context (v.pages slot).phys
            return (⟨c.setVm vm { v with pages := Function.update v.pages slot .zero
                                         pageCount := v.pageCount - 1 }, s.memory⟩, true)

/-- `user_vm_protect_page` -/
def userVmProtectPage (s : Machine) (vm virt : Nat) (access : UInt32) : Machine × Bool :=
  if ¬ memoryIsPageAligned virt ∨ ¬ validAccess access then (s, false)
  else
    match queryLocked s vm virt with
    | none => (s, false)
    | some mapping =>
      if ¬ mapping.mapped then (s, false)
      else vmmSpaceProtect (s.context.vms vm).space.toVmmSpace s virt (accessFlags access)

/-! ## Copying -/

/-- `struct copy_chunk` -/
structure CopyChunk where
  aliasPhys : Nat
  bytes : Nat
  deriving DecidableEq, Repr

/-- The loop of `copy_preflight`, with room for `room` further chunks. -/
def copyPreflightLoop (s : Machine) (vm : Nat) (write : Bool) :
    Nat → Nat → Nat → Option (List CopyChunk)
  | 0, _, remaining => if remaining ≠ 0 then none else some []
  | room + 1, virt, remaining =>
    if remaining ≠ 0 then do
      let mapping ← queryLocked s vm virt
      if ¬ mapping.mapped ∨ (write ∧ ¬ hasFlag mapping.flags vmmWritable) then none
      else
        let chunk := memoryPageSize - (virt &&& (memoryPageSize - 1))
        let chunk := if remaining < chunk then remaining else chunk
        let aliasPhys ← memoryPhysToVirt s.context.kernel mapping.physical chunk
        let chunks ← copyPreflightLoop s vm write room (virt + chunk) (remaining - chunk)
        return ⟨aliasPhys, chunk⟩ :: chunks
    else some []

/-- `copy_preflight` -/
def copyPreflight (s : Machine) (vm virt bytes : Nat) (write : Bool) : Option (List CopyChunk) :=
  if ¬ ready s.context vm ∨ userVmCopyLimit < bytes then none
  else if bytes = 0 then some []
  else if ¬ validAddress virt ∨ userVmEnd - virt < bytes then none
  else copyPreflightLoop s vm write userVmCopyChunks virt bytes

/-- The loop of `user_vm_copy_from`. -/
def copyOut (memory : ByteMemory) (chunks : List CopyChunk) : List UInt8 :=
  chunks.flatMap fun chunk => readBytes memory chunk.aliasPhys chunk.bytes

/-- `user_vm_copy_from`: the bytes that it stores at `kernel_dst`. -/
def userVmCopyFrom (s : Machine) (vm kernelDst userSrc bytes : Nat) : Option (List UInt8) :=
  if bytes ≠ 0 ∧ kernelDst = 0 then none
  else do
    let chunks ← copyPreflight s vm userSrc bytes false
    return copyOut s.memory chunks

/-- The loop of `user_vm_copy_to`. -/
def copyIn : List CopyChunk → List UInt8 → ByteMemory → ByteMemory
  | [], _, memory => memory
  | chunk :: chunks, source, memory =>
    copyIn chunks (source.drop chunk.bytes)
      (writeBytes memory chunk.aliasPhys (source.take chunk.bytes))

/-- `user_vm_copy_to`; `kernelSrc` are the bytes at `kernel_src`, none for `NULL`. -/
def userVmCopyTo (s : Machine) (vm userDst : Nat) (kernelSrc : Option (List UInt8)) (bytes : Nat) :
    Machine × Bool :=
  if bytes ≠ 0 ∧ kernelSrc = none then (s, false)
  else
    match copyPreflight s vm userDst bytes true with
    | none => (s, false)
    | some chunks => (⟨s.context, copyIn chunks (kernelSrc.getD []) s.memory⟩, true)

/-! ## Destruction -/

/-- The body of the first loop of `ownership_valid`. -/
def tableEntryValid (s : Machine) (vm i : Nat) (tables : Nat) : Option Nat :=
  let v := s.context.vms vm
  if ¬ (v.tables i).allocated then some tables
  else
    let phys := (v.tables i).phys
    if ¬ (v.tables i).published ∨ ¬ pmmIsAllocatedPage s.context.pmm phys then none
    else if anyRange 0 i fun j => (v.tables j).allocated ∧ (v.tables j).phys = phys then none
    else some (tables + 1)

/-- The body of the second loop of `ownership_valid`. -/
def pageEntryValid (s : Machine) (vm i : Nat) (pages : Nat) : Option Nat :=
  let v := s.context.vms vm
  if ¬ (v.pages i).allocated then some pages
  else
    let virt := (v.pages i).virt
    let phys := (v.pages i).phys
    if ¬ memoryIsPageAligned virt ∨ tableSlot v phys ≠ userVmTableLimit then none
    else do
      let mapping ← queryLocked s vm virt
      if ¬ mapping.mapped ∨ mapping.physical ≠ phys then none
      else if anyRange 0 i fun j =>
          (v.pages j).allocated ∧ ((v.pages j).phys = phys ∨ (v.pages j).virt = virt) then
        none
      else some (pages + 1)

/-- `ownership_valid` -/
def ownershipValid (s : Machine) (vm : Nat) : Bool :=
  let v := s.context.vms vm
  match forRangeM 0 userVmTableLimit (tableEntryValid s vm) 0,
      forRangeM 0 userVmPageLimit (pageEntryValid s vm) 0 with
  | some tables, some pages => tables = v.tableCount ∧ pages = v.pageCount
  | _, _ => false

/-- `user_vm_destroy` -/
def userVmDestroy (s : Machine) (vm : Nat) : Option (Machine × Bool) :=
  let c := s.context
  let v := c.vms vm
  if ¬ ready c vm ∨ c.cr3 &&& v.space.physicalMask = v.space.rootPhys ∨ ¬ ownershipValid s vm then
    some (s, false)
  else do
    let c ← forRangeM 0 userVmPageLimit
      (fun i c => if (v.pages i).allocated then releaseFrame c (v.pages i).phys else some c) c
    -- The tables are released from the last slot down to slot 1.
    let c ← forRangeM 0 (userVmTableLimit - 1)
      (fun k c =>
        let entry := v.tables (userVmTableLimit - 1 - k)
        if entry.allocated then releaseFrame c entry.phys else some c) c
    let c ← releaseFrame c (v.tables 0).phys
    return (⟨c.setVm vm .zero, s.memory⟩, true)

end Utamo.AddressSpace
