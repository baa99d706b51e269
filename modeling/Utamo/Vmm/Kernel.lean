import Utamo.Memory.Hhdm
import Utamo.Vmm.Core

/-!
# The kernel's own address space

The parts of `kernel/memory/vmm.c` that other modules rely on: the translation of a physical address
through the direct map, and the snapshot of the upper half of the kernel's root table that every
private root starts with. A pointer into the direct map is identified with the physical address it
stands for.
-/

set_option autoImplicit false

namespace Utamo.Vmm

open Lib Lib.ByteMemory Memory

/-- `VMM_DYNAMIC_BASE` -/
def vmmDynamicBase : Nat := 0xffffc00000000000

/-- `struct vmm_info`, the fields that a private address space is made from. -/
structure VmmInfo where
  rootPhys : Nat
  physicalBits : Nat
  nxEnabled : Bool
  deriving DecidableEq, Repr

/-- The static state of `vmm.c`. -/
structure KernelVmm where
  directMap : HhdmContext
  information : VmmInfo
  ready : Bool

/-- `memory_phys_to_virt` -/
def memoryPhysToVirt (kernel : KernelVmm) (phys bytes : Nat) : Option Nat :=
  (hhdmTranslate kernel.directMap phys bytes).map fun _ => phys

theorem memoryPhysToVirt_eq {kernel : KernelVmm} {phys bytes pointer : Nat}
    (h : memoryPhysToVirt kernel phys bytes = some pointer) : phys = pointer := by
  obtain ⟨-, -, heq⟩ := Option.map_eq_some_iff.1 h
  exact heq

/-- `table_access` of `vmm.c` -/
def kernelTableAccess (kernel : KernelVmm) (phys : Nat) : Option Nat :=
  match hhdmRegion kernel.directMap phys memoryPageSize with
  | none => none
  | some region =>
    if ¬ memoryIsPageAligned phys ∨
        (region.type ≠ .bootloaderReclaimable ∧ region.type ≠ .usable) then
      none
    else memoryPhysToVirt kernel phys memoryPageSize

/-- `vmm_get_info` -/
def vmmGetInfo (kernel : KernelVmm) : Option VmmInfo :=
  if kernel.ready then some kernel.information else none

/-- `vmm_copy_kernel_half` -/
def vmmCopyKernelHalf (kernel : KernelVmm) (memory : ByteMemory) : Option (Nat → Nat) := do
  let root ← if kernel.ready then kernelTableAccess kernel kernel.information.rootPhys else none
  if ¬ hasFlag (load64 memory (entryAddress root (memoryPageIndex vmmDynamicBase 4)))
      vmmPresent then
    none
  else
    return fun i => load64 memory (entryAddress root (256 + i)) &&& notU64 vmmUser

end Utamo.Vmm
