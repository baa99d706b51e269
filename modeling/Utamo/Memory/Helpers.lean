import Utamo.Lib.Bits
import Mathlib.Tactic.IntervalCases

/-!
# Page arithmetic

`kernel/memory/memory_helpers.c`: alignment, canonical addresses, the mask of a physical address
width and the four nine-bit table indices of a virtual address. An out parameter is the value of
the result; `none` is `return false`.
-/

set_option autoImplicit false

namespace Utamo.Memory

open Lib

/-- `MEMORY_PAGE_SIZE` -/
def memoryPageSize : Nat := 4096

/-- `memory_align_up` -/
def memoryAlignUp (value : Nat) : Option Nat :=
  if uint64Max - (memoryPageSize - 1) < value then none
  else some (alignDown (value + memoryPageSize - 1) memoryPageSize)

/-- `memory_align_down` -/
def memoryAlignDown (value : Nat) : Nat := alignDown value memoryPageSize

/-- `memory_is_page_aligned` -/
def memoryIsPageAligned (value : Nat) : Bool := value &&& (memoryPageSize - 1) = 0

/-- `memory_is_canonical` -/
def memoryIsCanonical (address : Nat) : Bool :=
  address ≤ 0x00007fffffffffff ∨ 0xffff800000000000 ≤ address

/-- `memory_physical_mask` -/
def memoryPhysicalMask (bits : Nat) : Option Nat :=
  if bits < 32 ∨ 52 < bits then none
  else some ((2 ^ bits - 1) &&& notU64 (memoryPageSize - 1))

/-- `memory_page_index` -/
def memoryPageIndex (virt level : Nat) : Nat :=
  if level < 1 ∨ 4 < level then 512
  else (virt >>> (12 + 9 * (level - 1))) &&& 511

theorem memoryIsPageAligned_iff {value : Nat} :
    memoryIsPageAligned value = true ↔ value % 4096 = 0 := by
  have h : value &&& (memoryPageSize - 1) = value % 4096 :=
    Nat.and_two_pow_sub_one_eq_mod value 12
  rw [memoryIsPageAligned, decide_eq_true_eq, h]

theorem memoryPageIndex_eq {virt level : Nat} (h1 : 1 ≤ level) (h4 : level ≤ 4) :
    memoryPageIndex virt level = virt / 2 ^ (12 + 9 * (level - 1)) % 512 := by
  have h : ∀ x, x &&& (2 ^ 9 - 1) = x % 2 ^ 9 := fun x => Nat.and_two_pow_sub_one_eq_mod x 9
  rw [memoryPageIndex, if_neg (by omega), Nat.shiftRight_eq_div_pow]
  exact h _

theorem memoryPageIndex_lt {virt level : Nat} (h1 : 1 ≤ level) (h4 : level ≤ 4) :
    memoryPageIndex virt level < 512 := by
  rw [memoryPageIndex_eq h1 h4]
  exact Nat.mod_lt _ (by decide)

theorem memoryAlignUp_eq {value r : Nat} (h : memoryAlignUp value = some r) :
    value ≤ r ∧ r < value + 4096 ∧ r % 4096 = 0 ∧ value + 4095 ≤ uint64Max := by
  have hsize : memoryPageSize = 4096 := rfl
  rw [memoryAlignUp] at h
  split at h
  · cases h
  · rename_i hle
    simp only [Option.some.injEq, alignDown, hsize] at h
    simp only [uint64Max] at hle ⊢
    omega

/-- The mask of a physical address width selects whole frames below the width. -/
theorem memoryPhysicalMask_within {bits mask : Nat} (h : memoryPhysicalMask bits = some mask) :
    Within mask 0x000ffffffffff000 := by
  simp only [memoryPhysicalMask] at h
  split at h
  · cases h
  · rename_i hbits
    simp only [Option.some.injEq] at h
    have hlo : 32 ≤ bits := by omega
    have hhi : bits ≤ 52 := by omega
    rw [← h, Within]
    interval_cases bits <;> decide

end Utamo.Memory
