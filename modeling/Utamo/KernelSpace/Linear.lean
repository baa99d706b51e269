import Utamo.KernelSpace.BootTables
import Utamo.Vmm.Architecture

/-!
# Linear mappings

`check_linear_mapping` of `kernel/memory/vmm.c`. It asks for one address of each leaf and goes on
behind the leaf. That decides about every byte of the range, because the walks of two addresses in
one leaf read the same entries (`processorWalk_leaf`) and so differ in the offset only.
-/

set_option autoImplicit false

namespace Utamo.KernelSpace

open Lib Lib.ByteMemory Memory Vmm

variable {level table v w : Nat} {leaf : WalkStep}

/-! ## The loop -/

/-- The loop of `check_linear_mapping`, for a number of rounds; `none` if that is not enough. -/
def linearLoop (query : Nat → Option VmmMapping) (requireWrite : Bool) :
    (rounds virt phys bytes : Nat) → Option Bool
  | 0, _, _, bytes => if bytes = 0 then some true else none
  | rounds + 1, virt, phys, bytes =>
    if bytes = 0 then some true
    else
      match query virt with
      | none => some false
      | some mapping =>
        if ¬ mapping.mapped ∨ mapping.physical ≠ phys ∨ hasFlag mapping.flags vmmUser ∨
            (requireWrite ∧ ¬ hasFlag mapping.flags vmmWritable) then
          some false
        else
          let step := min (mapping.pageSize - (virt &&& (mapping.pageSize - 1))) bytes
          let rest := bytes - step
          -- the addresses move on only while bytes are left, so that they never wrap
          if rest = 0 then linearLoop query requireWrite rounds virt phys rest
          else linearLoop query requireWrite rounds (addU64 virt step) (addU64 phys step) rest

/-- `check_linear_mapping`; no loop has more rounds than bytes. -/
def checkLinearMapping (s : KernelMachine) (virt phys bytes : Nat) (requireWrite : Bool) :
    Option Bool :=
  linearLoop (vmmSpaceQuery (kernelSpace s.context.system.kernel) s) requireWrite bytes
    virt phys bytes

/-- The processor translates the address to `phys`, for the supervisor only, and for writing if that
is required. -/
structure MappedByte (bits root : Nat) (memory : ByteMemory) (requireWrite : Bool)
    (virt phys : Nat) : Prop where
  canonical : memoryIsCanonical virt = true
  present : ∀ step ∈ processorWalk bits memory virt 4 root, step.value.testBit 0 = true
  supervisor : ∃ step ∈ processorWalk bits memory virt 4 root, step.value.testBit 2 = false
  writable : requireWrite = true →
    ∀ step ∈ processorWalk bits memory virt 4 root, step.value.testBit 1 = true
  physical : ∃ leaf, (processorWalk bits memory virt 4 root).getLast? = some leaf ∧
    leaf.value % 2 ^ bits / leafSize leaf.level * leafSize leaf.level +
      virt % leafSize leaf.level = phys

/-! ## Walks inside a leaf -/

section Leaf

variable {bits : Nat} {memory : ByteMemory}

/-- The levels of a walk go down, and the last entry has the lowest. -/
theorem processorWalk_levels {virt : Nat} {step : WalkStep}
    (hstep : step ∈ processorWalk bits memory virt level table)
    (hleaf : (processorWalk bits memory virt level table).getLast? = some leaf) :
    leaf.level ≤ step.level ∧ step.level ≤ level := by
  induction level generalizing table step with
  | zero => cases hstep
  | succ level ih =>
    rw [processorWalk] at hstep hleaf
    split at hstep
    · -- the walk ends here
      rename_i hend
      rw [if_pos hend] at hleaf
      cases hleaf
      rw [List.mem_singleton.1 hstep]
      exact ⟨le_refl _, le_refl _⟩
    · rename_i hend
      rw [if_neg hend] at hleaf
      generalize htail : processorWalk bits memory virt level _ = tail at hstep hleaf
      cases tail with
      | nil =>
        cases hleaf
        rw [List.mem_singleton.1 hstep]
        exact ⟨le_refl _, le_refl _⟩
      | cons head tail =>
        rw [List.getLast?_cons_cons] at hleaf
        have hmem : leaf ∈ head :: tail := List.mem_of_getLast? hleaf
        rw [← htail] at hleaf hmem
        have hbelow := ih hmem hleaf
        rcases List.mem_cons.1 hstep with rfl | hstep
        · exact ⟨by show leaf.level ≤ level + 1; omega, le_refl _⟩
        · rw [← htail] at hstep
          have := ih hstep hleaf
          omega

/-- Addresses with the same digits at the levels of a walk have the same walk. -/
theorem processorWalk_congr
    (h : ∀ step ∈ processorWalk bits memory v level table,
      w / leafSize step.level % 512 = v / leafSize step.level % 512) :
    processorWalk bits memory w level table = processorWalk bits memory v level table := by
  induction level generalizing table with
  | zero => rfl
  | succ level ih =>
    rw [processorWalk] at h ⊢
    simp only [List.mem_cons, forall_eq_or_imp] at h
    obtain ⟨hhead, htail⟩ := h
    rw [processorWalk]
    simp only [hhead]
    split
    · rfl
    · rename_i hend
      rw [if_neg hend] at htail
      rw [ih htail]

theorem leafSize_pos (level : Nat) : 0 < leafSize level := Nat.two_pow_pos _

/-- A leaf of a higher level is a whole number of leaves of a lower one. -/
theorem div_leafSize {low high : Nat} (hlevel : low ≤ high)
    (h : w / leafSize low = v / leafSize low) :
    w / leafSize high = v / leafSize high := by
  have hsplit : leafSize high = leafSize low * 2 ^ (9 * (high - 1) - 9 * (low - 1)) := by
    rw [leafSize, leafSize, ← Nat.pow_add]
    congr 1
    omega
  rw [hsplit, ← Nat.div_div_eq_div_mul, ← Nat.div_div_eq_div_mul, h]

/-- The addresses of one leaf have one walk. -/
theorem processorWalk_leaf
    (hleaf : (processorWalk bits memory v level table).getLast? = some leaf)
    (h : w / leafSize leaf.level = v / leafSize leaf.level) :
    processorWalk bits memory w level table = processorWalk bits memory v level table := by
  apply processorWalk_congr
  intro step hstep
  rw [div_leafSize (processorWalk_levels hstep hleaf).1 h]

/-- A leaf lies on one side of the hole between the canonical halves. -/
theorem canonical_leaf (hlevel : level ≤ 4) (h : w / leafSize level = v / leafSize level)
    (hv : memoryIsCanonical v = true) : memoryIsCanonical w = true := by
  have hroot := div_leafSize hlevel h
  have hsize : leafSize 4 = 2 ^ 39 := rfl
  rw [hsize] at hroot
  rw [memoryIsCanonical, decide_eq_true_eq] at hv ⊢
  omega

/-- What holds of one byte of a leaf holds of the others, at their offset. -/
theorem MappedByte.shift {root virt phys n : Nat} {requireWrite : Bool}
    (hleaf : (processorWalk bits memory virt 4 root).getLast? = some leaf)
    (hn : virt % leafSize leaf.level + n < leafSize leaf.level)
    (h : MappedByte bits root memory requireWrite virt phys) :
    MappedByte bits root memory requireWrite (virt + n) (phys + n) := by
  have hpos := leafSize_pos leaf.level
  have hdiv : (virt + n) / leafSize leaf.level = virt / leafSize leaf.level := by
    have hsplit := Nat.div_add_mod virt (leafSize leaf.level)
    have hsum : virt + n = leafSize leaf.level * (virt / leafSize leaf.level) +
        (virt % leafSize leaf.level + n) := by omega
    rw [hsum, Nat.mul_add_div hpos, Nat.div_eq_of_lt hn, Nat.add_zero]
  have hmod : (virt + n) % leafSize leaf.level = virt % leafSize leaf.level + n := by
    rw [Nat.add_mod, Nat.mod_eq_of_lt (show n < leafSize leaf.level by omega), Nat.mod_eq_of_lt hn]
  have hsame := processorWalk_leaf hleaf hdiv
  have hlevel : leaf.level ≤ 4 := (processorWalk_levels (List.mem_of_getLast? hleaf) hleaf).2
  refine ⟨canonical_leaf hlevel hdiv h.canonical, ?_, ?_, ?_, leaf, ?_, ?_⟩
  · rw [hsame]
    exact h.present
  · rw [hsame]
    exact h.supervisor
  · rw [hsame]
    exact h.writable
  · rw [hsame]
    exact hleaf
  · obtain ⟨leaf', hleaf', hphys⟩ := h.physical
    rw [hleaf, Option.some.injEq] at hleaf'
    subst hleaf'
    rw [hmod]
    omega

end Leaf

/-! ## Queries -/

section Query

variable {γ : Type} {space : VmmSpace γ} {s : VmmState γ} {bits virt : Nat}

/-- A walk that found something does not depend on which other tables could be accessed. -/
theorem walkLoop_any {table : Nat → Bool} {memory : ByteMemory} {phys : Nat} {ancestors : List Nat}
    {writable user nx : Bool} {found : WalkResult}
    (h : walkLoop space table memory virt level phys ancestors writable user nx = some found) :
    walkLoop space (fun _ => true) memory virt level phys ancestors writable user
      nx = some found := by
  induction level generalizing phys ancestors writable user nx with
  | zero => cases h
  | succ level ih =>
    rw [walkLoop] at h ⊢
    split at h
    · cases h
    rename_i hpassed
    split at h
    · cases h
    rw [if_neg hpassed, if_neg (by simp)]
    simp only at h ⊢
    split at h
    · cases h
    rename_i hvalid
    rw [if_neg hvalid]
    split at h
    · rename_i hend
      rw [if_pos hend]
      exact h
    · rename_i hend
      rw [if_neg hend]
      exact ih h

/-- A walk of the editor that found something is the walk of the processor. -/
theorem foundOn_of_walk (hmask : memoryPhysicalMask bits = some space.physicalMask)
    {found : WalkResult} (h : walk space s virt = some found) :
    memoryIsCanonical virt = true ∧
      ∃ leaf, FoundOn (processorWalk bits s.memory virt 4 space.rootPhys) true true
        false found leaf := by
  rw [walk] at h
  split at h
  · cases h
  rename_i hargs
  rw [not_or, not_not, not_not] at hargs
  refine ⟨hargs.2, ?_⟩
  have hany := walkLoop_any h
  rcases walkLoop_processor hmask (fun _ _ _ => rfl) 4 space.rootPhys [] true true false .root with
    ⟨-, hnone⟩ | ⟨-, found', leaf, hsome, hon⟩
  · rw [hnone] at hany
    cases hany
  · rw [hsome, Option.some.injEq] at hany
    exact ⟨leaf, hany ▸ hon⟩

/-- What a query reports about an address is what the processor does with it. -/
theorem query_mappedByte (hmask : memoryPhysicalMask bits = some space.physicalMask)
    {mapping : VmmMapping} (h : vmmSpaceQuery space s virt = some mapping) (requireWrite : Bool)
    (phys : Nat) :
    MappedByte bits space.rootPhys s.memory requireWrite virt phys ↔
      mapping.mapped = true ∧ mapping.physical = phys ∧ hasFlag mapping.flags vmmUser = false ∧
        (requireWrite = true → hasFlag mapping.flags vmmWritable = true) := by
  rw [vmmSpaceQuery, Option.bind_eq_bind, Option.bind_eq_some_iff] at h
  obtain ⟨found, hwalk, hreport⟩ := h
  obtain ⟨hcanonical, leaf, hon⟩ := foundOn_of_walk hmask hwalk
  have hmem : leaf ∈ processorWalk bits s.memory virt 4 space.rootPhys :=
    List.mem_of_getLast? hon.last
  split at hreport
  · -- the last entry of the walk is not present
    rename_i hmissing
    cases hreport
    have hclear : leaf.value.testBit 0 = false := by
      have hbit := hon.missing
      rw [hmissing] at hbit
      cases hvalue : leaf.value.testBit 0
      · rfl
      · rw [hvalue] at hbit
        cases hbit
    constructor
    · intro hbyte
      rw [hbyte.present leaf hmem] at hclear
      cases hclear
    · rintro ⟨hmapped, -⟩
      cases hmapped
  · rename_i hmissing
    rw [Option.pure_def, Option.some.injEq] at hreport
    have htranslates : Translates bits virt
        (processorWalk bits s.memory virt 4 space.rootPhys) mapping := by
      rw [← hreport]
      exact query_translates hmask hon
    have hpresent : leaf.value.testBit 0 = true := by
      have hbit := hon.missing
      rw [Bool.not_eq_true] at hmissing
      rw [hmissing] at hbit
      cases hvalue : leaf.value.testBit 0
      · rw [hvalue] at hbit
        cases hbit
      · rfl
    obtain ⟨leaf', hleaf', -, hphysical⟩ := htranslates.physical
    constructor
    · intro hbyte
      refine ⟨htranslates.mapped, ?_, ?_, fun hwrite => ?_⟩
      · obtain ⟨leaf'', hleaf'', hphys⟩ := hbyte.physical
        rw [hleaf', Option.some.injEq] at hleaf''
        subst hleaf''
        rw [hphysical, hphys]
      · obtain ⟨step, hstep, hbit⟩ := hbyte.supervisor
        rw [htranslates.user, List.all_eq_false]
        exact ⟨step, hstep, by rw [hbit]; decide⟩
      · rw [htranslates.writable, List.all_eq_true]
        exact hbyte.writable hwrite
    · rintro ⟨-, hphys, huser, hwrite⟩
      refine ⟨hcanonical, ?_, ?_, fun hrequired => ?_, leaf', hleaf', ?_⟩
      · intro step hstep
        rw [path_snoc hon.last, List.mem_append, List.mem_singleton] at hstep
        rcases hstep with hstep | rfl
        · exact hon.present step hstep
        · exact hpresent
      · rw [htranslates.user, List.all_eq_false] at huser
        obtain ⟨step, hstep, hbit⟩ := huser
        exact ⟨step, hstep, by rwa [Bool.not_eq_true] at hbit⟩
      · have hall := hwrite hrequired
        rw [htranslates.writable, List.all_eq_true] at hall
        exact hall
      · rw [← hphys, hphysical]

/-- The size that a query reports is that of the leaf. -/
theorem query_pageSize (hmask : memoryPhysicalMask bits = some space.physicalMask)
    {mapping : VmmMapping} (h : vmmSpaceQuery space s virt = some mapping)
    (hmapped : mapping.mapped = true) :
    ∃ leaf, (processorWalk bits s.memory virt 4 space.rootPhys).getLast? = some leaf ∧
      mapping.pageSize = leafSize leaf.level := by
  rw [vmmSpaceQuery, Option.bind_eq_bind, Option.bind_eq_some_iff] at h
  obtain ⟨found, hwalk, hreport⟩ := h
  obtain ⟨-, leaf, hon⟩ := foundOn_of_walk hmask hwalk
  split at hreport
  · cases hreport
    cases hmapped
  · rw [Option.pure_def, Option.some.injEq] at hreport
    refine ⟨leaf, hon.last, ?_⟩
    rw [← hreport, ← hon.level]
    rfl

end Query

/-! ## The check -/

section Check

variable {γ : Type} {space : VmmSpace γ} {s : VmmState γ} {bits : Nat} {requireWrite : Bool}

/-- A round of the loop decides about the rest of the leaf. -/
theorem linearLoop_exact (hmask : memoryPhysicalMask bits = some space.physicalMask)
    (hqueries : ∀ v < 2 ^ 64, memoryIsCanonical v = true → vmmSpaceQuery space s v ≠ none) :
    ∀ rounds virt phys bytes, bytes ≤ rounds → virt + bytes ≤ 2 ^ 64 → phys + bytes ≤ 2 ^ 64 →
      ∃ result, linearLoop (vmmSpaceQuery space s) requireWrite rounds virt phys bytes =
        some result ∧
        (result = true ↔
          ∀ i < bytes, MappedByte bits space.rootPhys s.memory requireWrite
            (virt + i) (phys + i)) := by
  intro rounds
  induction rounds with
  | zero =>
    intro virt phys bytes hrounds _ _
    obtain rfl : bytes = 0 := by omega
    exact ⟨true, rfl, fun _ i hi => by omega, fun _ => rfl⟩
  | succ rounds ih =>
    intro virt phys bytes hrounds hvirt hphys
    rw [linearLoop]
    by_cases hzero : bytes = 0
    · rw [if_pos hzero]
      exact ⟨true, rfl, fun _ i hi => by omega, fun _ => rfl⟩
    rw [if_neg hzero]
    -- the first byte decides
    have hrefuse : ¬ MappedByte bits space.rootPhys s.memory requireWrite virt phys →
        ∃ result, some false = some result ∧ (result = true ↔
          ∀ i < bytes, MappedByte bits space.rootPhys s.memory requireWrite
            (virt + i) (phys + i)) := by
      intro hno
      refine ⟨false, rfl, nofun, fun hall => absurd (hall 0 (by omega)) hno⟩
    cases hquery : vmmSpaceQuery space s virt with
    | none => exact hrefuse fun hbyte => hqueries virt (by omega) hbyte.canonical hquery
    | some mapping =>
      have hfirst := query_mappedByte hmask hquery requireWrite phys
      simp only
      by_cases hchecks : ¬ mapping.mapped = true ∨ mapping.physical ≠ phys ∨
          hasFlag mapping.flags vmmUser = true ∨
          (requireWrite = true ∧ ¬ hasFlag mapping.flags vmmWritable = true)
      · rw [if_pos hchecks]
        apply hrefuse
        intro hbyte
        obtain ⟨hmapped, hphysical, huser, hwrite⟩ := hfirst.1 hbyte
        rcases hchecks with h | h | h | h
        · exact h hmapped
        · exact h hphysical
        · rw [huser] at h
          cases h
        · exact h.2 (hwrite h.1)
      rw [if_neg hchecks]
      rw [not_or, not_or, not_or, not_not, not_not, not_and, Bool.not_eq_true] at hchecks
      obtain ⟨hmapped, hphysical, huser, hwrite⟩ := hchecks
      have hbyte := hfirst.2 ⟨hmapped, hphysical, huser, fun h => not_not.1 (hwrite h)⟩
      obtain ⟨leaf, hleaf, hsize⟩ := query_pageSize hmask hquery hmapped
      have hpos := leafSize_pos leaf.level
      have hoffset : virt &&& (mapping.pageSize - 1) = virt % leafSize leaf.level := by
        rw [hsize, leafSize, Nat.and_two_pow_sub_one_eq_mod]
      have hmod : virt % leafSize leaf.level < leafSize leaf.level := Nat.mod_lt _ hpos
      rw [hoffset, hsize]
      generalize hstep : min (leafSize leaf.level - virt % leafSize leaf.level) bytes = step
      have hstep_pos : 0 < step := by omega
      have hstep_le : step ≤ bytes := by omega
      -- the bytes up to the end of the leaf are as the first one
      have hsame : ∀ i < step, MappedByte bits space.rootPhys s.memory requireWrite
          (virt + i) (phys + i) := by
        intro i hi
        exact hbyte.shift hleaf (by omega)
      by_cases hrest : bytes - step = 0
      · rw [if_pos hrest]
        obtain ⟨result, hresult, -⟩ := ih virt phys (bytes - step) (by omega) (by omega) (by omega)
        refine ⟨result, hresult, fun _ i hi => hsame i (by omega), fun _ => ?_⟩
        rw [hrest] at hresult
        cases rounds with
        | zero => exact (Option.some.inj hresult).symm
        | succ rounds => exact (Option.some.inj hresult).symm
      · rw [if_neg hrest, addU64_of_lt (by omega), addU64_of_lt (by omega)]
        obtain ⟨result, hresult, hiff⟩ :=
          ih (virt + step) (phys + step) (bytes - step) (by omega) (by omega) (by omega)
        refine ⟨result, hresult, fun htrue i hi => ?_, fun hall => hiff.2 fun i hi => ?_⟩
        · by_cases hin : i < step
          · exact hsame i hin
          · have hlater := hiff.1 htrue (i - step) (by omega)
            rw [show virt + step + (i - step) = virt + i by omega,
              show phys + step + (i - step) = phys + i by omega] at hlater
            exact hlater
        · have hlater := hall (step + i) (by omega)
          rw [← Nat.add_assoc, ← Nat.add_assoc] at hlater
          exact hlater

end Check

/-- `check_linear_mapping` ends, and accepts a range exactly if the processor translates each of its
bytes to the byte with the same offset in physical memory, for the supervisor only, and for writing
if that is required, whatever the sizes of the leaves. -/
theorem check_linear_mapping_exact {s : KernelMachine} {bits : Nat}
    (hmask : memoryPhysicalMask bits = some (kernelMask s.context.system.kernel))
    (hqueries : ∀ v < 2 ^ 64, memoryIsCanonical v = true →
      vmmSpaceQuery (kernelSpace s.context.system.kernel) s v ≠ none)
    {virt phys bytes : Nat} (hvirt : virt + bytes ≤ 2 ^ 64) (hphys : phys + bytes ≤ 2 ^ 64)
    (requireWrite : Bool) :
    ∃ result, checkLinearMapping s virt phys bytes requireWrite = some result ∧
      (result = true ↔ ∀ i < bytes, MappedByte bits s.context.system.kernel.information.rootPhys
        s.memory requireWrite (virt + i) (phys + i)) :=
  linearLoop_exact hmask hqueries bytes virt phys bytes (le_refl _) hvirt hphys

/-- A machine whose boot loader maps three GiB of physical memory for the supervisor, with a leaf
for each. -/
def gigabyteMachine : KernelMachine where
  context := bootMachine.context
  memory := store64 (store64 (store64 (store64 (fun _ => 0) (entryAddress 0x40000 511) 0x41003)
    (entryAddress 0x41000 509) 0x40000083) (entryAddress 0x41000 510) 0x80000083)
    (entryAddress 0x41000 511) 0xc0000083

/-- From the last page of the first leaf to the first page of the third. -/
theorem check_linear_mapping_leaves :
    checkLinearMapping gigabyteMachine 0xffffffff7ffff000 0x7ffff000 0x40002000 true = some true ∧
      MappedByte 36 0x40000 gigabyteMachine.memory true 0xffffffffc0000fff 0xc0000fff := by
  have hvalid : (validateBootTables gigabyteMachine 4 0x40000 0 [] 0).1 = true := by decide +kernel
  have hqueries : ∀ v < 2 ^ 64, memoryIsCanonical v = true →
      vmmSpaceQuery (kernelSpace gigabyteMachine.context.system.kernel)
        gigabyteMachine v ≠ none := by
    intro v _ hcanonical hnone
    have hsome := vmmSpaceQuery_of_validated hvalid hcanonical
    rw [hnone] at hsome
    cases hsome
  have hcheck : checkLinearMapping gigabyteMachine 0xffffffff7ffff000 0x7ffff000 0x40002000 true =
      some true := by decide +kernel
  have hmask : memoryPhysicalMask 36 = some (kernelMask gigabyteMachine.context.system.kernel) := by
    decide +kernel
  have hvirt : 0xffffffff7ffff000 + 0x40002000 ≤ 2 ^ 64 := by decide
  have hphys : 0x7ffff000 + 0x40002000 ≤ 2 ^ 64 := by decide
  obtain ⟨result, hresult, hiff⟩ := check_linear_mapping_exact hmask hqueries hvirt hphys true
  rw [hcheck, Option.some.injEq] at hresult
  exact ⟨hcheck, hiff.1 hresult.symm 0x40001fff (by decide)⟩

end Utamo.KernelSpace
