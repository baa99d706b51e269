import Utamo.Vmm.Rollback
import Utamo.Vmm.Mutation

/-!
# The page walk of the architecture

Four-level paging in the terms of the processor manual, without the masks of `vmm_core.c`: an entry
is read by its bits, and an address by its digits. `processorWalk` is the list of the entries that a
processor reads for an address. `vmm_space_query` fails, reports that nothing is mapped, or reports
the translation, as these entries say (`walkLoop_processor`).

Unlike `hardwareWalk`, which is about the tables that the editor itself builds, this walk is over
any content of the tables and has the reserved bits.
-/

set_option autoImplicit false

namespace Utamo.Vmm

open Lib Lib.ByteMemory Memory

variable {γ : Type}
  {bits value k : Nat}

/-! ## The entries of a walk -/

/-- An entry that a walk reads, with the table it is in. -/
structure WalkStep where
  level : Nat
  table : Nat
  index : Nat
  value : Nat
  deriving DecidableEq, Repr

/-- The bytes that an entry of a level maps. -/
def leafSize (level : Nat) : Nat := 2 ^ (12 + 9 * (level - 1))

/-- The entries that a processor with `bits` physical address bits reads, from a table of
`level` down: it stops at an entry that is not present, at one of the last level and at one with
the size bit. -/
def processorWalk (bits : Nat) (memory : ByteMemory) (virt : Nat) : Nat → Nat → List WalkStep
  | 0, _ => []
  | level + 1, table =>
    let index := virt / leafSize (level + 1) % 512
    let value := load64 memory (table + 8 * index)
    ⟨level + 1, table, index, value⟩ ::
      if value.testBit 0 = false ∨ level = 0 ∨ value.testBit 7 = true then []
      else processorWalk bits memory virt level (value % 2 ^ bits / 4096 * 4096)

/-- A present entry that the processor does not accept: an address bit above the physical width, the
execute-disable bit while that is not enabled, the size bit at the root, or an address bit below the
size of a large page. Bit 12 of a large page selects a memory type. -/
def Reserved (bits : Nat) (nx : Bool) (step : WalkStep) : Prop :=
  (∃ k, bits ≤ k ∧ k < 52 ∧ step.value.testBit k = true) ∨
    (nx = false ∧ step.value.testBit 63 = true) ∨
    (step.level = 4 ∧ step.value.testBit 7 = true) ∨
    ((step.level = 2 ∨ step.level = 3) ∧ step.value.testBit 7 = true ∧
      ∃ k, 13 ≤ k ∧ k < 12 + 9 * (step.level - 1) ∧ step.value.testBit k = true)

/-- A walk that meets a reserved bit in a present entry, or comes to a table that it has passed. -/
def Faulty (bits : Nat) (nx : Bool) (path : List WalkStep) : Prop :=
  (∃ step ∈ path, step.value.testBit 0 = true ∧ Reserved bits nx step) ∨
    ¬ (path.map WalkStep.table).Nodup

/-- The translation of the last entry of a walk: the leaf's frame and the offset in it, writable and
open to users if all entries are, closed to instruction fetches if one entry is. -/
structure Translates (bits virt : Nat) (path : List WalkStep) (mapping : VmmMapping) : Prop where
  mapped : mapping.mapped = true
  physical : ∃ leaf, path.getLast? = some leaf ∧ mapping.pageSize = leafSize leaf.level ∧
    mapping.physical = leaf.value % 2 ^ bits / leafSize leaf.level * leafSize leaf.level +
      virt % leafSize leaf.level
  writable : hasFlag mapping.flags vmmWritable = path.all fun step => step.value.testBit 1
  user : hasFlag mapping.flags vmmUser = path.all fun step => step.value.testBit 2
  noExecute : hasFlag mapping.flags vmmNx = path.any fun step => step.value.testBit 63

/-! ## Masks and bits -/

theorem hasFlag_eq_testBit (word k : Nat) : hasFlag word (2 ^ k) = word.testBit k := by
  have h := hasBit_eq_testBit word k
  rw [hasBit, Nat.one_shiftLeft] at h
  exact h

theorem hasFlag_present (word : Nat) : hasFlag word vmmPresent = word.testBit 0 :=
  hasFlag_eq_testBit word 0

theorem hasFlag_writable (word : Nat) : hasFlag word vmmWritable = word.testBit 1 :=
  hasFlag_eq_testBit word 1

theorem hasFlag_user (word : Nat) : hasFlag word vmmUser = word.testBit 2 :=
  hasFlag_eq_testBit word 2

theorem hasFlag_huge (word : Nat) : hasFlag word vmmHuge = word.testBit 7 :=
  hasFlag_eq_testBit word 7

theorem hasFlag_nx (word : Nat) : hasFlag word vmmNx = word.testBit 63 := hasFlag_eq_testBit word 63

theorem testBit_addressMask (k : Nat) : vmmAddressMask.testBit k = decide (12 ≤ k ∧ k < 52) := by
  have hmask : vmmAddressMask = (2 ^ 40 - 1) <<< 12 := by decide
  rw [hmask, Nat.testBit_shiftLeft, Nat.testBit_two_pow_sub_one, ← Bool.decide_and]
  congr 1
  apply propext
  omega

theorem memoryPhysicalMask_eq {mask : Nat} (h : memoryPhysicalMask bits = some mask) :
    (32 ≤ bits ∧ bits ≤ 52) ∧ mask = (2 ^ bits - 1) &&& notU64 (2 ^ 12 - 1) := by
  rw [memoryPhysicalMask] at h
  split at h
  · cases h
  · exact ⟨by omega, (Option.some.inj h).symm⟩

theorem testBit_physicalMask {mask : Nat} (h : memoryPhysicalMask bits = some mask) (k : Nat) :
    mask.testBit k = decide (12 ≤ k ∧ k < bits) := by
  obtain ⟨hbits, rfl⟩ := memoryPhysicalMask_eq h
  rw [Nat.testBit_and, testBit_notU64, Nat.testBit_two_pow_sub_one,
    Nat.testBit_two_pow_sub_one]
  by_cases hlow : k < 12
  · have h64 : k < 64 := by omega
    have hno : ¬ (12 ≤ k ∧ k < bits) := by omega
    simp [hlow, h64, hno]
  · by_cases hhigh : k < bits
    · have h64 : k < 64 := by omega
      have hyes : 12 ≤ k ∧ k < bits := by omega
      simp [hlow, hhigh, h64, hyes]
    · simp [hhigh]

theorem and_physicalMask {mask : Nat} (h : memoryPhysicalMask bits = some mask) :
    value &&& mask = value % 2 ^ bits / 4096 * 4096 := by
  obtain ⟨hbits, rfl⟩ := memoryPhysicalMask_eq h
  have hlt : value % 2 ^ bits < 2 ^ 64 :=
    (Nat.mod_lt _ (Nat.two_pow_pos bits)).trans_le (Nat.pow_le_pow_right (by decide) (by omega))
  rw [← Nat.and_assoc, Nat.and_two_pow_sub_one_eq_mod, and_not_low hlt]
  rfl

/-- A mask of the bits from `lo` up to `hi`. -/
theorem and_mask_ne_zero {mask lo hi : Nat} (hmask : ∀ k, mask.testBit k = true ↔ lo ≤ k ∧ k < hi) :
    value &&& mask ≠ 0 ↔ ∃ k, lo ≤ k ∧ k < hi ∧ value.testBit k = true := by
  rw [and_ne_zero_iff]
  constructor
  · rintro ⟨k, hvalue, hk⟩
    exact ⟨k, ((hmask k).1 hk).1, ((hmask k).1 hk).2, hvalue⟩
  · rintro ⟨k, hlo, hhi, hvalue⟩
    exact ⟨k, hvalue, (hmask k).2 ⟨hlo, hhi⟩⟩

/-- `entry_valid` refuses exactly the reserved bits. -/
theorem entryValid_iff {space : VmmSpace γ}
    (hmask : memoryPhysicalMask bits = some space.physicalMask)
    (step : WalkStep) : entryValid space step.value step.level = true ↔
    ¬ Reserved bits space.nxEnabled step := by
  have hbits := (memoryPhysicalMask_eq hmask).1
  -- the address bits above the width
  have haddress : step.value &&& (vmmAddressMask &&& notU64 space.physicalMask) ≠ 0 ↔
      ∃ k, bits ≤ k ∧ k < 52 ∧ step.value.testBit k = true := by
    refine and_mask_ne_zero fun k => ?_
    rw [Nat.testBit_and, testBit_addressMask, testBit_notU64, testBit_physicalMask hmask]
    simp only [Bool.and_eq_true, decide_eq_true_iff, bne_iff_ne, ne_eq, decide_eq_decide]
    omega
  -- the address bits below the size of a large page
  have halign : ∀ level, level = 2 ∨ level = 3 →
      (step.value &&& ((levelPageSize level - 1) &&& vmmAddressMask &&& notU64 vmmLargePat) ≠ 0 ↔
        ∃ k, 13 ≤ k ∧ k < 12 + 9 * (level - 1) ∧ step.value.testBit k = true) := by
    refine fun level hlevel => and_mask_ne_zero fun k => ?_
    rw [Nat.testBit_and, Nat.testBit_and, testBit_addressMask, testBit_notU64, levelPageSize,
      Nat.testBit_two_pow_sub_one, vmmLargePat, Nat.testBit_two_pow]
    simp only [Bool.and_eq_true, decide_eq_true_iff, bne_iff_ne, ne_eq, decide_eq_decide]
    omega
  have hnx : (¬ space.nxEnabled = true ∧ hasFlag step.value vmmNx = true) ↔
      (space.nxEnabled = false ∧ step.value.testBit 63 = true) := by
    rw [hasFlag_nx, Bool.not_eq_true]
  rw [Reserved, ← haddress, ← hnx, ← hasFlag_huge, entryValid]
  split
  · rename_i hfirst
    constructor
    · intro h
      cases h
    · intro h
      exfalso
      apply h
      rcases hfirst with h1 | h1 | h1
      · exact Or.inl h1
      · exact Or.inr (Or.inl h1)
      · exact Or.inr (Or.inr (Or.inl h1))
  · rename_i hfirst
    rw [not_or, not_or] at hfirst
    split
    · rename_i hlarge
      rw [decide_eq_true_iff, ← not_ne_iff, halign _ hlarge.1]
      constructor
      · rintro hnone (h1 | h1 | h1 | ⟨-, -, h1⟩)
        · exact hfirst.1 h1
        · exact hfirst.2.1 h1
        · exact hfirst.2.2 h1
        · exact hnone h1
      · intro hall h1
        exact hall (Or.inr (Or.inr (Or.inr ⟨hlarge.1, hlarge.2, h1⟩)))
    · rename_i hsmall
      simp only [hfirst, false_or, true_iff]
      rintro ⟨h1, h2, -⟩
      exact hsmall ⟨h1, h2⟩

/-! ## The walk of the editor -/

section Walk

variable {space : VmmSpace γ} {s : VmmState γ} {bits virt : Nat}

/-- What a walk of the editor found, in terms of the entries that the processor reads. -/
structure FoundOn (path : List WalkStep) (writable user nx : Bool) (found : WalkResult)
    (leaf : WalkStep) :
    Prop where
  last : path.getLast? = some leaf
  entry : found.entry = leaf.table + 8 * leaf.index
  value : found.value = leaf.value
  level : found.level = leaf.level
  missing : found.missing = !leaf.value.testBit 0
  parentWritable : found.parentWritable =
    (writable && path.dropLast.all fun step => step.value.testBit 1)
  parentUser : found.parentUser = (user && path.dropLast.all fun step => step.value.testBit 2)
  parentNx : found.parentNx = (nx || path.dropLast.any fun step => step.value.testBit 63)
  present : ∀ step ∈ path.dropLast, step.value.testBit 0 = true
  size : leaf.value.testBit 0 = true → leaf.level = 1 ∨ leaf.value.testBit 7 = true
  levels : 1 ≤ leaf.level ∧ leaf.level ≤ 4

/-- A walk below the tables `ancestors` that meets a reserved bit or comes to a table it
has passed. -/
def FaultyBelow (bits : Nat) (nx : Bool) (ancestors : List Nat) (path : List WalkStep) : Prop :=
  Faulty bits nx path ∨ ∃ step ∈ path, step.table ∈ ancestors

theorem faultyBelow_cons {nx : Bool} {ancestors : List Nat} {step : WalkStep} {path : List WalkStep}
    (hnew : step.table ∉ ancestors)
    (hok : ¬ (step.value.testBit 0 = true ∧ Reserved bits nx step)) :
    FaultyBelow bits nx (step.table :: ancestors) path ↔
      FaultyBelow bits nx ancestors (step :: path) := by
  have hmem : step.table ∈ path.map WalkStep.table ↔ ∃ q ∈ path, q.table = step.table :=
    List.mem_map
  constructor
  · rintro ((⟨q, hq, hbad⟩ | hnodup) | ⟨q, hq, hpassed⟩)
    · exact Or.inl (Or.inl ⟨q, List.mem_cons_of_mem _ hq, hbad⟩)
    · refine Or.inl (Or.inr ?_)
      rw [List.map_cons, List.nodup_cons]
      exact fun h => hnodup h.2
    · rcases List.mem_cons.1 hpassed with heq | hancestor
      · refine Or.inl (Or.inr ?_)
        rw [List.map_cons, List.nodup_cons]
        exact fun h => h.1 (hmem.2 ⟨q, hq, heq⟩)
      · exact Or.inr ⟨q, List.mem_cons_of_mem _ hq, hancestor⟩
  · rintro ((⟨q, hq, hbad⟩ | hnodup) | ⟨q, hq, hpassed⟩)
    · rcases List.mem_cons.1 hq with rfl | hq
      · exact absurd hbad hok
      · exact Or.inl (Or.inl ⟨q, hq, hbad⟩)
    · by_cases htail : (path.map WalkStep.table).Nodup
      · rw [List.map_cons, List.nodup_cons, not_and, not_imp_comm] at hnodup
        obtain ⟨q, hq, heq⟩ := hmem.1 (hnodup fun h => h htail)
        exact Or.inr ⟨q, hq, by rw [heq]; exact List.mem_cons_self⟩
      · exact Or.inl (Or.inr htail)
    · rcases List.mem_cons.1 hq with rfl | hq
      · exact absurd hpassed hnew
      · exact Or.inr ⟨q, hq, List.mem_cons_of_mem _ hpassed⟩

/-- The editor walks as the processor does, and stops where the processor would. -/
theorem walkLoop_processor {table : Nat → Bool} {memory : ByteMemory}
    (hmask : memoryPhysicalMask bits = some space.physicalMask)
    (hresolve : ∀ level f, TableOf space memory level f → table f = true) :
    ∀ level phys ancestors writable user nx, TableOf space memory level phys →
      (FaultyBelow bits space.nxEnabled ancestors (processorWalk bits memory virt level phys) ∧
        walkLoop space table memory virt level phys ancestors writable user nx = none) ∨
      (¬ FaultyBelow bits space.nxEnabled ancestors (processorWalk bits memory virt level phys) ∧
        ∃ found leaf, walkLoop space table memory virt level phys ancestors writable user nx =
          some found ∧
          FoundOn (processorWalk bits memory virt level phys) writable user nx found leaf) := by
  intro level
  induction level with
  | zero =>
    intro phys ancestors writable user nx htable
    exact absurd htable.level_le.1 (by omega)
  | succ level ih =>
    intro phys ancestors writable user nx htable
    have hlevel := htable.level_le
    have hindex : memoryPageIndex virt (level + 1) = virt / leafSize (level + 1) % 512 :=
      memoryPageIndex_eq (by omega) hlevel.2
    have hindex_lt : virt / leafSize (level + 1) % 512 < 512 := Nat.mod_lt _ (by decide)
    rw [walkLoop, processorWalk]
    simp only [entryAddress, hindex]
    generalize hvalue : load64 memory (phys + 8 * (virt / leafSize (level + 1) % 512)) = value
    generalize hstep :
      (⟨level + 1, phys, virt / leafSize (level + 1) % 512, value⟩ : WalkStep) = step
    have hfields : step.level = level + 1 ∧ step.table = phys ∧
        step.index = virt / leafSize (level + 1) % 512 ∧ step.value = value := by
      rw [← hstep]
      exact ⟨rfl, rfl, rfl, rfl⟩
    obtain ⟨hslevel, hstable, hsindex, hsvalue⟩ := hfields
    -- the table has been passed
    by_cases hpassed : phys ∈ ancestors
    · left
      rw [if_pos hpassed]
      refine ⟨Or.inr ⟨step, List.mem_cons_self, ?_⟩, rfl⟩
      rw [hstable]
      exact hpassed
    rw [if_neg hpassed, hresolve _ _ htable, if_neg (not_not_intro (rfl : true = true))]
    have hvalid := entryValid_iff hmask step
    rw [hsvalue, hslevel] at hvalid
    -- the entry has a reserved bit
    by_cases hbad : value.testBit 0 = true ∧ Reserved bits space.nxEnabled step
    · left
      have hrefused : ¬ entryValid space value (level + 1) = true := fun h => hvalid.1 h hbad.2
      have hpresent : ¬¬ hasFlag value vmmPresent = true := by
        rw [hasFlag_present, not_not]
        exact hbad.1
      refine ⟨Or.inl (Or.inl ⟨step, List.mem_cons_self, by rw [hsvalue]; exact hbad.1, hbad.2⟩), ?_⟩
      rw [if_pos ⟨hpresent, hrefused⟩]
    have haccepted : ¬ (¬¬ hasFlag value vmmPresent = true ∧
        ¬ entryValid space value (level + 1) = true) := by
      rintro ⟨hpresent, hrefused⟩
      rw [hasFlag_present, not_not] at hpresent
      exact hrefused (hvalid.2 fun h => hbad ⟨hpresent, h⟩)
    rw [if_neg haccepted]
    have hends : (¬ hasFlag value vmmPresent = true ∨ level + 1 = 1 ∨
        hasFlag value vmmHuge = true) ↔
        (value.testBit 0 = false ∨ level = 0 ∨ value.testBit 7 = true) := by
      rw [hasFlag_present, hasFlag_huge, Bool.not_eq_true, Nat.add_eq_right]
    have hnew : step.table ∉ ancestors := by
      rw [hstable]
      exact hpassed
    have hok : ¬ (step.value.testBit 0 = true ∧ Reserved bits space.nxEnabled step) := by
      rw [hsvalue]
      exact hbad
    by_cases hend : value.testBit 0 = false ∨ level = 0 ∨ value.testBit 7 = true
    · right
      rw [if_pos (hends.2 hend), if_pos hend]
      refine ⟨?_, _, step, rfl, ?_⟩
      · rw [← faultyBelow_cons hnew hok]
        rintro ((⟨q, hq, -⟩ | hnodup) | ⟨q, hq, -⟩)
        · cases hq
        · exact hnodup List.nodup_nil
        · cases hq
      · refine ⟨rfl, ?_, hsvalue.symm, hslevel.symm, ?_, ?_, ?_, ?_,
          fun _ hs => absurd hs List.not_mem_nil, ?_, ?_⟩
        · rw [hstable, hsindex]
        · rw [hsvalue, hasFlag_present]
          cases value.testBit 0 <;> rfl
        · exact (Bool.and_true writable).symm
        · exact (Bool.and_true user).symm
        · exact (Bool.or_false nx).symm
        · intro hpresent
          rw [hsvalue] at hpresent ⊢
          rw [hslevel]
          rcases hend with h | h | h
          · rw [hpresent] at h
            cases h
          · exact Or.inl (by omega)
          · exact Or.inr h
        · rw [hslevel]
          omega
    · -- the walk goes on in the table that the entry refers to
      rw [if_neg (fun h => hend (hends.1 h)), if_neg hend]
      rw [not_or, not_or, Bool.not_eq_false] at hend
      obtain ⟨hpresent, hlevel0, hhuge⟩ := hend
      obtain ⟨lower, rfl⟩ : ∃ k, level = k + 1 := ⟨level - 1, by omega⟩
      have hpresent' : hasFlag value vmmPresent = true := by rw [hasFlag_present, hpresent]
      have hhuge' : hasFlag value vmmHuge =
        false := by rw [hasFlag_huge, Bool.eq_false_iff]; exact hhuge
      have hvalid' : entryValid space value (lower + 2) = true :=
        hvalid.2 fun h => hbad ⟨hpresent, h⟩
      have hnext : TableOf space memory (lower + 1) (value &&& space.physicalMask) := by
        rw [← hvalue] at hpresent' hvalid' hhuge' ⊢
        exact .next htable hindex_lt hpresent' hvalid' hhuge'
      rw [← faultyBelow_cons hnew hok, hstable, hasFlag_writable, hasFlag_user, hasFlag_nx]
      rw [← and_physicalMask hmask]
      rcases ih _ (phys :: ancestors) (writable && value.testBit 1) (user && value.testBit 2)
        (nx || value.testBit 63) hnext with hfault | ⟨hfine, found, leaf, hfound, hon⟩
      · exact Or.inl hfault
      · refine Or.inr ⟨hfine, found, leaf, hfound, ?_⟩
        generalize processorWalk bits memory virt (lower + 1)
          (value &&& space.physicalMask) = rest at hon
        have hne : rest ≠ [] := by
          rintro rfl
          cases hon.last
        have hdrop : (step :: rest).dropLast = step :: rest.dropLast :=
          List.dropLast_cons_of_ne_nil hne
        refine ⟨?_, hon.entry, hon.value, hon.level, hon.missing, ?_, ?_, ?_, ?_,
          hon.size, hon.levels⟩
        · rw [List.getLast?_cons, hon.last]
          rfl
        · rw [hdrop, List.all_cons, hon.parentWritable, hsvalue, Bool.and_assoc]
        · rw [hdrop, List.all_cons, hon.parentUser, hsvalue, Bool.and_assoc]
        · rw [hdrop, List.any_cons, hon.parentNx, hsvalue, Bool.or_assoc]
        · rw [hdrop]
          refine List.forall_mem_cons.2 ⟨?_, hon.present⟩
          rw [hsvalue]
          exact hpresent

/-- The walk of an initialized space. -/
theorem walk_processor {context : γ} {root : Nat} {nx : Bool} {ops : VmmOps γ}
    (hinit : vmmSpaceInit context root bits nx ops = some space)
    (hresolve : ∀ level f, TableOf space s.memory level f → space.ops.table s.context f = true)
    (hcanonical : memoryIsCanonical virt = true) :
    (Faulty bits nx (processorWalk bits s.memory virt 4 root) ∧ walk space s virt = none) ∨
    (¬ Faulty bits nx (processorWalk bits s.memory virt 4 root) ∧
      ∃ found leaf, walk space s virt = some found ∧
        FoundOn (processorWalk bits s.memory virt 4 root) true true false found leaf) := by
  have hmask := vmmSpaceInit_mask hinit
  obtain ⟨hroot, hnx, hready⟩ :
      space.rootPhys = root ∧ space.nxEnabled = nx ∧ space.initialized = true := by
    rw [vmmSpaceInit] at hinit
    obtain ⟨mask, -, hinit⟩ := Option.bind_eq_some_iff.1 hinit
    split at hinit
    · cases hinit
    · cases hinit
      exact ⟨rfl, rfl, rfl⟩
  have hbelow : ∀ path, FaultyBelow bits nx [] path ↔ Faulty bits nx path := by
    intro path
    constructor
    · rintro (h | ⟨q, -, hq⟩)
      · exact h
      · cases hq
    · exact Or.inl
  have hwalk :
      (FaultyBelow bits space.nxEnabled [] (processorWalk bits s.memory virt 4 space.rootPhys) ∧
      _) ∨ _ :=
    walkLoop_processor hmask hresolve 4 space.rootPhys [] true true false .root
  rw [hroot, hnx, hbelow] at hwalk
  rw [walk, hready, hcanonical, if_neg (by simp), hroot]
  exact hwalk

end Walk

/-! ## Queries -/

section Query

variable {space : VmmSpace γ} {s : VmmState γ} {bits virt : Nat}

/-- The bits of the attributes that a query reports. -/
theorem testBit_mappingFlags (found : WalkResult) (hk : k < 64) (haddress : ¬ (12 ≤ k ∧ k < 52)) :
    (mappingFlags found).testBit k =
      ((found.value.testBit k && (found.parentWritable || decide (k ≠ 1)) &&
        (found.parentUser || decide (k ≠ 2))) || (found.parentNx && decide (k = 63))) := by
  have hwritable : ∀ w, (w &&& notU64 vmmWritable).testBit k = (w.testBit k && decide (k ≠ 1)) :=
    fun w => testBit_and_not_bit w 1 hk
  have huser : ∀ w, (w &&& notU64 vmmUser).testBit k = (w.testBit k && decide (k ≠ 2)) :=
    fun w => testBit_and_not_bit w 2 hk
  have hnx : ∀ w, (w ||| vmmNx).testBit k = (w.testBit k || decide (k = 63)) :=
    fun w => testBit_or_bit w 63 k
  have hbase : (found.value &&& notU64 vmmAddressMask).testBit k = found.value.testBit k := by
    rw [Nat.testBit_and, testBit_notU64, testBit_addressMask]
    simp [hk, haddress]
  have hlarge : (found.value &&& vmmLargePat).testBit k = false := by
    rw [Nat.testBit_and, vmmLargePat, Nat.testBit_two_pow, decide_eq_false (by omega),
      Bool.and_false]
  have hfirst : (if found.level ≠ 1 then
      (found.value &&& notU64 vmmAddressMask) ||| (found.value &&& vmmLargePat)
      else found.value &&& notU64 vmmAddressMask).testBit k = found.value.testBit k := by
    split
    · rw [Nat.testBit_or, hbase, hlarge, Bool.or_false]
    · exact hbase
  rw [mappingFlags]
  generalize (if found.level ≠ 1 then
    (found.value &&& notU64 vmmAddressMask) ||| (found.value &&& vmmLargePat)
    else found.value &&& notU64 vmmAddressMask) = flags at hfirst ⊢
  rw [← hfirst]
  cases found.parentWritable <;> cases found.parentUser <;> cases found.parentNx <;>
    simp [hwritable, huser, hnx]

/-- The physical address that a query reports, as a sum. -/
theorem leaf_physical {mask : Nat} (hmask : memoryPhysicalMask bits = some mask) (level : Nat) :
    (value &&& mask &&& notU64 (levelPageSize level - 1)) ||| (virt &&& (levelPageSize level - 1)) =
      value % 2 ^ bits / leafSize level * leafSize level + virt % leafSize level := by
  have hbits : bits ≤ 64 := (memoryPhysicalMask_eq hmask).1.2.trans (by decide)
  have hlow : value % 2 ^ bits < 2 ^ 64 :=
    (Nat.mod_lt _ (Nat.two_pow_pos bits)).trans_le (Nat.pow_le_pow_right (by decide) hbits)
  have hframe : value &&& mask < 2 ^ 64 := by
    rw [and_physicalMask hmask]
    omega
  -- a large page is a whole number of small ones
  have hwhole : value % 2 ^ bits / 4096 * 4096 / leafSize level =
      value % 2 ^ bits / leafSize level := by
    have hsplit : leafSize level = 4096 * 2 ^ (9 * (level - 1)) := by
      rw [leafSize, Nat.pow_add]
    rw [hsplit, ← Nat.div_div_eq_div_mul, ← Nat.div_div_eq_div_mul,
      Nat.mul_div_cancel _ (by decide)]
  have hsize : levelPageSize level = leafSize level := rfl
  have hoffset : virt % leafSize level < leafSize level := Nat.mod_lt _ (Nat.two_pow_pos _)
  rw [hsize]
  rw [leafSize] at hwhole hoffset ⊢
  rw [and_not_low hframe, Nat.and_two_pow_sub_one_eq_mod, and_physicalMask hmask, hwhole,
    Nat.mul_comm, ← Nat.two_pow_add_eq_or_of_lt hoffset]

/-- A path is the entries above its last one, and that one. -/
theorem path_snoc {path : List WalkStep} {leaf : WalkStep} (h : path.getLast? = some leaf) :
    path = path.dropLast ++ [leaf] := by
  rw [List.dropLast_append_getLast? leaf h]

/-- A present leaf is reported with its translation. -/
theorem query_translates {path : List WalkStep} {found : WalkResult} {leaf : WalkStep}
    (hmask : memoryPhysicalMask bits = some space.physicalMask)
    (hfound : FoundOn path true true false found leaf) :
    Translates bits virt path
      { mapped := true
        physical :=
          (found.value &&& space.physicalMask &&& notU64 (levelPageSize found.level - 1)) |||
          (virt &&& (levelPageSize found.level - 1))
        flags := mappingFlags found
        pageSize := levelPageSize found.level } := by
  have hall : ∀ p : WalkStep → Bool, path.all p = (path.dropLast.all p && p leaf) := by
    intro p
    rw [path_snoc hfound.last]
    simp
  have hany : ∀ p : WalkStep → Bool, path.any p = (path.dropLast.any p || p leaf) := by
    intro p
    rw [path_snoc hfound.last]
    simp
  refine ⟨rfl, ⟨leaf, hfound.last, ?_, ?_⟩, ?_, ?_, ?_⟩
  · show levelPageSize found.level = leafSize leaf.level
    rw [hfound.level]
    rfl
  · show (found.value &&& space.physicalMask &&& notU64 (levelPageSize found.level - 1)) |||
      (virt &&& (levelPageSize found.level - 1)) = _
    rw [leaf_physical hmask, hfound.value, hfound.level]
  · rw [hasFlag_writable, testBit_mappingFlags found (by decide) (by decide), hall,
      hfound.parentWritable, hfound.value]
    simp [Bool.and_comm]
  · rw [hasFlag_user, testBit_mappingFlags found (by decide) (by decide), hall,
      hfound.parentUser, hfound.value]
    simp [Bool.and_comm]
  · rw [hasFlag_nx, testBit_mappingFlags found (by decide) (by decide), hany,
      hfound.parentNx, hfound.value]
    simp [Bool.or_comm]

end Query

/-! ## Changes of a leaf -/

section Change

variable {space : VmmSpace γ} {s : VmmState γ} {bits virt flags : Nat}

/-- The address of an entry. -/
def WalkStep.address (step : WalkStep) : Nat := step.table + 8 * step.index

/-- A change that fails changes nothing, and one that succeeds changes the entry of a small page,
the leaf of the walk, and no other byte. -/
structure SmallLeafOnly (path : List WalkStep) (s : VmmState γ) (r : VmmState γ × Bool) : Prop where
  failed : r.2 = false → r.1 = s
  changed : r.2 = true → ∃ leaf, path.getLast? = some leaf ∧ leaf.level = 1 ∧
    leaf.value.testBit 0 = true ∧
    ∀ x, x < leaf.address ∨ leaf.address + 8 ≤ x → r.1.memory x = s.memory x

/-- What a change of permissions keeps of an entry: the frame, accessed, dirty and the bits of
the software. -/
structure LeafKept (bits old new : Nat) : Prop where
  physical : new % 2 ^ bits / 4096 * 4096 = old % 2 ^ bits / 4096 * 4096
  accessed : new.testBit 5 = old.testBit 5
  dirty : new.testBit 6 = old.testBit 6
  software : ∀ k, (9 ≤ k ∧ k ≤ 11) ∨ (52 ≤ k ∧ k ≤ 62) → new.testBit k = old.testBit k

/-- The bits of an entry that `vmm_space_protect` sets. -/
def PermissionBit (k : Nat) : Prop := k ≤ 4 ∨ k = 8 ∨ k = 63

theorem testBit_permissionMask (h : ¬ PermissionBit k) : vmmPermissionMask.testBit k = false := by
  have hmask : vmmPermissionMask = 2 ^ 0 ||| 2 ^ 1 ||| 2 ^ 2 ||| 2 ^ 3 ||| 2 ^ 4 |||
    2 ^ 8 ||| 2 ^ 63 := rfl
  rw [PermissionBit] at h
  rw [hmask]
  simp only [Nat.testBit_or, Nat.testBit_two_pow, Bool.or_eq_false_iff, decide_eq_false_iff_not]
  omega

theorem testBit_protected (value : Nat) (hflags : Within flags vmmPermissionMask) (hk : k < 64)
    (h : ¬ PermissionBit k) :
    ((value &&& notU64 vmmPermissionMask) ||| flags).testBit k = value.testBit k := by
  have hmask := testBit_permissionMask h
  have hflag : flags.testBit k = false := by
    rw [Within] at hflags
    rw [← hflags, Nat.testBit_and, hmask, Bool.and_false]
  rw [Nat.testBit_or, Nat.testBit_and, testBit_notU64, hmask, hflag, decide_eq_true hk]
  simp

theorem leafKept_protected {mask : Nat} (hmask : memoryPhysicalMask bits = some mask) (value : Nat)
    (hflags : Within flags vmmPermissionMask) :
    LeafKept bits value ((value &&& notU64 vmmPermissionMask) ||| flags) := by
  have hbits := (memoryPhysicalMask_eq hmask).1.2
  refine ⟨?_, ?_, ?_, ?_⟩
  · rw [← and_physicalMask hmask, ← and_physicalMask hmask]
    apply Nat.eq_of_testBit_eq
    intro k
    rw [Nat.testBit_and, Nat.testBit_and, testBit_physicalMask hmask]
    by_cases hk : 12 ≤ k ∧ k < bits
    · rw [testBit_protected value hflags (by omega) (by rw [PermissionBit]; omega)]
    · rw [decide_eq_false hk, Bool.and_false, Bool.and_false]
  · exact testBit_protected value hflags (by decide) (by rw [PermissionBit]; decide)
  · exact testBit_protected value hflags (by decide) (by rw [PermissionBit]; decide)
  · intro k hk
    exact testBit_protected value hflags (by omega) (by rw [PermissionBit]; omega)

theorem SmallLeafOnly.refused (path : List WalkStep) (s : VmmState γ) :
    SmallLeafOnly path s (s, false) :=
  ⟨fun _ => rfl, nofun⟩

/-- A store into the leaf of a small page. -/
theorem SmallLeafOnly.store {path : List WalkStep} {found : WalkResult} {leaf : WalkStep}
    (hfound : FoundOn path true true false found leaf) (hmissing : found.missing = false)
    (hlevel : found.level = 1) (context : γ) (value : Nat) :
    SmallLeafOnly path s ({ context, memory := store64 s.memory found.entry value }, true) := by
  refine ⟨nofun, fun _ => ⟨leaf, hfound.last, hfound.level.symm.trans hlevel, ?_, ?_⟩⟩
  · have hpresent := hfound.missing
    rw [hmissing] at hpresent
    cases hbit : leaf.value.testBit 0
    · rw [hbit] at hpresent
      cases hpresent
    · rfl
  · intro x hx
    show store64 s.memory found.entry value x = s.memory x
    rw [hfound.entry]
    exact store64_of_outside hx

end Change

/-! ## The editor and the architecture -/

section Agreement

variable {space : VmmSpace γ} {s : VmmState γ} {bits virt : Nat} {context : γ} {root : Nat}
  {nx : Bool} {ops : VmmOps γ}

section Processor

variable (hinit : vmmSpaceInit context root bits nx ops = some space)
  (hresolve : ∀ level f, TableOf space s.memory level f → space.ops.table s.context f = true)
  (hcanonical : memoryIsCanonical virt = true)

include hinit hresolve hcanonical

/-- A query answers as the walk of the processor does. -/
theorem vmmSpaceQuery_processor {path : List WalkStep}
    (hpath : path = processorWalk bits s.memory virt 4 root) :
    (Faulty bits nx path → vmmSpaceQuery space s virt = none) ∧
    (¬ Faulty bits nx path → (∃ step ∈ path, step.value.testBit 0 = false) →
      vmmSpaceQuery space s virt = some ⟨false, 0, 0, 0⟩) ∧
    (¬ Faulty bits nx path → (∀ step ∈ path, step.value.testBit 0 = true) →
      ∃ mapping, vmmSpaceQuery space s virt = some mapping ∧
        Translates bits virt path mapping) := by
  subst hpath
  have hwalk := walk_processor hinit hresolve hcanonical
  generalize processorWalk bits s.memory virt 4 root = path at hwalk ⊢
  rcases hwalk with ⟨hfault, hnone⟩ | ⟨hfine, found, leaf, hsome, hfound⟩
  · refine ⟨?_, fun h => absurd hfault h, fun h => absurd hfault h⟩
    intro _
    rw [vmmSpaceQuery, hnone]
    rfl
  · have hmem : ∀ step, step ∈ path ↔ step ∈ path.dropLast ∨ step = leaf := by
      intro step
      rw [path_snoc hfound.last]
      simp
    refine ⟨fun h => absurd h hfine, ?_, ?_⟩
    · rintro - ⟨step, hstep, hclear⟩
      -- only the last entry can be absent
      have hlast : step = leaf := by
        rcases (hmem step).1 hstep with hparent | hlast
        · rw [hfound.present step hparent] at hclear
          cases hclear
        · exact hlast
      have hmissing : found.missing = true := by
        rw [hfound.missing, ← hlast, hclear]
        rfl
      rw [vmmSpaceQuery, hsome]
      simp only [Option.bind_eq_bind, Option.bind_some, hmissing, if_true]
      rfl
    · rintro - hall
      have hmissing : found.missing = false := by
        rw [hfound.missing, hall leaf ((hmem leaf).2 (Or.inr rfl))]
        rfl
      refine ⟨_, ?_, query_translates (vmmSpaceInit_mask hinit) hfound⟩
      rw [vmmSpaceQuery, hsome]
      simp only [Option.bind_eq_bind, Option.bind_some, hmissing, Bool.false_eq_true, if_false]
      rfl

theorem vmmSpaceUnmap_processor :
    SmallLeafOnly (processorWalk bits s.memory virt 4 root) s (vmmSpaceUnmap space s virt) := by
  rw [vmmSpaceUnmap]
  split
  · exact .refused _ s
  rcases walk_processor hinit hresolve hcanonical with ⟨-, hnone⟩ | ⟨-, found, leaf, hsome, hfound⟩
  · rw [hnone]
    exact .refused _ s
  · rw [hsome]
    simp only
    split
    · exact .refused _ s
    · rename_i hleaf
      rw [not_or, not_not, Bool.not_eq_true] at hleaf
      exact .store hfound hleaf.1 hleaf.2 _ _

theorem vmmSpaceProtect_processor {flags : Nat} (hflags : flags < 2 ^ 64) :
    SmallLeafOnly (processorWalk bits s.memory virt 4 root) s (vmmSpaceProtect space s virt flags) ∧
      ((vmmSpaceProtect space s virt flags).2 = true → ∃ leaf,
        (processorWalk bits s.memory virt 4 root).getLast? = some leaf ∧
        LeafKept bits leaf.value (load64 (vmmSpaceProtect space s virt flags).1.memory
          leaf.address)) := by
  rw [vmmSpaceProtect]
  split
  · exact ⟨.refused _ s, by rintro ⟨⟩⟩
  rename_i hvalid
  rcases walk_processor hinit hresolve hcanonical with ⟨-, hnone⟩ | ⟨-, found, leaf, hsome, hfound⟩
  · rw [hnone]
    exact ⟨.refused _ s, by rintro ⟨⟩⟩
  · rw [hsome]
    simp only
    split
    · exact ⟨.refused _ s, by rintro ⟨⟩⟩
    · rename_i hleaf
      rw [not_or, not_or, not_not, Bool.not_eq_true] at hleaf
      refine ⟨.store hfound hleaf.1 hleaf.2.1 _ _, fun _ => ⟨leaf, hfound.last, ?_⟩⟩
      have hwithin : Within flags vmmPermissionMask := by
        rw [not_or, not_not, flagsValid, decide_eq_true_iff] at hvalid
        exact within_of_and_not hflags hvalid.1.2.2.1
      have hword : (found.value &&& notU64 vmmPermissionMask) ||| flags < 2 ^ 64 := by
        apply Nat.or_lt_two_pow _ hflags
        exact Nat.and_le_right.trans_lt (by decide)
      show LeafKept bits leaf.value (load64 (store64 s.memory found.entry _) leaf.address)
      rw [show leaf.address = found.entry from hfound.entry.symm,
        load64_store64_self hword, hfound.value]
      exact leafKept_protected (vmmSpaceInit_mask hinit) leaf.value hwithin

end Processor

/-- The editor agrees with the page walk of the architecture, for any content of the tables: a query
fails, finds nothing or translates as the walk does, and only leaves of small pages are changed. -/
theorem vmm_query_architectural (hinit : vmmSpaceInit context root bits nx ops = some space)
    (hresolve : ∀ level f, TableOf space s.memory level f → space.ops.table s.context f = true)
    (hcanonical : memoryIsCanonical virt = true) {path : List WalkStep}
    (hpath : path = processorWalk bits s.memory virt 4 root) :
    (vmmSpaceQuery space s virt = none ↔ Faulty bits nx path) ∧
    (vmmSpaceQuery space s virt = some ⟨false, 0, 0, 0⟩ ↔
      ¬ Faulty bits nx path ∧ ∃ step ∈ path, step.value.testBit 0 = false) ∧
    ((∃ mapping, vmmSpaceQuery space s virt = some mapping ∧ mapping.mapped = true) ↔
      ¬ Faulty bits nx path ∧ ∀ step ∈ path, step.value.testBit 0 = true) ∧
    (∀ mapping, vmmSpaceQuery space s virt = some mapping → mapping.mapped = true →
      Translates bits virt path mapping) ∧
    SmallLeafOnly path s (vmmSpaceUnmap space s virt) ∧
    ∀ flags < 2 ^ 64, SmallLeafOnly path s (vmmSpaceProtect space s virt flags) ∧
      ((vmmSpaceProtect space s virt flags).2 = true → ∃ leaf, path.getLast? = some leaf ∧
        LeafKept bits leaf.value (load64 (vmmSpaceProtect space s virt flags).1.memory
          leaf.address)) := by
  obtain ⟨hfault, habsent, hleaf⟩ := vmmSpaceQuery_processor hinit hresolve hcanonical hpath
  subst hpath
  have hunmap := vmmSpaceUnmap_processor hinit hresolve hcanonical
  have hprotect : ∀ flags < 2 ^ 64, _ := fun flags hflags =>
    vmmSpaceProtect_processor hinit hresolve hcanonical hflags
  generalize processorWalk bits s.memory virt 4 root = path at *
  -- exactly one of the three answers
  rcases Classical.em (Faulty bits nx path) with hbad | hfine
  · have hnone := hfault hbad
    rw [hnone]
    refine ⟨⟨fun _ => hbad, fun _ => rfl⟩, ⟨nofun, fun h => absurd hbad h.1⟩,
      ⟨?_, fun h => absurd hbad h.1⟩, nofun, hunmap, hprotect⟩
    rintro ⟨mapping, hmapping, -⟩
    cases hmapping
  · by_cases hclear : ∃ step ∈ path, step.value.testBit 0 = false
    · have hsome := habsent hfine hclear
      have hnotall : ¬ ∀ step ∈ path, step.value.testBit 0 = true := by
        obtain ⟨step, hstep, hbit⟩ := hclear
        intro hall
        rw [hall step hstep] at hbit
        cases hbit
      rw [hsome]
      refine ⟨⟨nofun, fun h => absurd h hfine⟩, ⟨fun _ => ⟨hfine, hclear⟩, fun _ => rfl⟩,
        ⟨?_, fun h => absurd h.2 hnotall⟩, ?_, hunmap, hprotect⟩
      · rintro ⟨mapping, hmapping, hmapped⟩
        cases hmapping
        cases hmapped
      · intro mapping hmapping hmapped
        cases hmapping
        cases hmapped
    · have hall : ∀ step ∈ path, step.value.testBit 0 = true := by
        intro step hstep
        by_contra hbit
        exact hclear ⟨step, hstep, by rwa [Bool.not_eq_true] at hbit⟩
      obtain ⟨mapping, hsome, htranslates⟩ := hleaf hfine hall
      rw [hsome]
      refine ⟨⟨nofun, fun h => absurd h hfine⟩, ⟨?_, fun h => absurd h.2 hclear⟩,
        ⟨fun _ => ⟨hfine, hall⟩, fun _ => ⟨mapping, rfl, htranslates.mapped⟩⟩, ?_, hunmap, hprotect⟩
      · intro h
        rw [Option.some.injEq] at h
        have hmapped := htranslates.mapped
        rw [h] at hmapped
        cases hmapped
      · intro other hother _
        cases hother
        exact htranslates

/-- Three tables that map the first 2 MiB to a large page with a memory type. -/
def largeTables : ByteMemory :=
  store64 (store64 (store64 (fun _ => 0) 0x1000 0x2007) 0x2000 0x3007) 0x3000 0x201087

/-- Callbacks that resolve every table and never allocate. -/
def openOps : VmmOps Unit :=
  ⟨fun _ _ => true, fun _ => (none, ()), fun _ _ => some (), fun _ _ => some (), fun _ _ => ()⟩

/-- An address in the large page, as the editor and the processor see it. -/
theorem vmm_query_architectural_large :
    ∃ space mapping, vmmSpaceInit () 0x1000 48 true openOps = some space ∧
      vmmSpaceQuery space ⟨(), largeTables⟩ 0x1234 = some mapping ∧
      Translates 48 0x1234 (processorWalk 48 largeTables 0x1234 4 0x1000) mapping := by
  have hinit : vmmSpaceInit () 0x1000 48 true openOps =
      some ⟨0x1000, 0x0000fffffffff000, true, true, openOps⟩ := rfl
  have hquery : vmmSpaceQuery ⟨0x1000, 0x0000fffffffff000, true, true, openOps⟩ ⟨(), largeTables⟩
      0x1234 = some ⟨true, 0x201234, 0x1087, 2 ^ 21⟩ := by decide +kernel
  have hagree := vmm_query_architectural hinit (s := ⟨(), largeTables⟩) (fun _ _ _ => rfl)
    (by decide : memoryIsCanonical 0x1234 = true) rfl
  exact ⟨_, _, hinit, hquery, hagree.2.2.2.1 _ hquery rfl⟩

end Agreement

end Utamo.Vmm
