import Utamo.AddressSpace.Runs
import Utamo.KernelSpace.Core

/-!
# The tables of the dynamic part

The dynamic part of the kernel's space is one entry of its root table. `KernelInv` says that the
tables below that entry form a tree, that the memory manager hands out none of them, and that the
direct map reaches all of them. The callbacks of `kernel_space` keep the contract of `vmm_core.h`
(`kernelOps_contract`): here the tables in use are those that were pinned, and the frames that wait
are those that were allocated since the start of the operation.

`KernelStep` is what every operation on the kernel's space guarantees to everyone else: no frame
changes hands except that free frames become tables, no byte of a frame that is in use changes
outside the tables, and an entry of the root that refers to a table refers to it for ever.
-/

set_option autoImplicit false

namespace Utamo.KernelSpace

open Lib Lib.ByteMemory Memory Pmm Vmm AddressSpace

variable {virt f : Nat}

/-! ## Addresses -/

/-- The root entry of the dynamic part. -/
def dynamicSlot (i : Nat) : Prop := i = 384

/-- The addresses of the dynamic part, the window of the devices included. -/
def InDynamic (virt : Nat) : Prop := vmmDynamicBase ≤ virt ∧ virt < vmmDynamicBase + vmmDynamicSize

theorem dynamicBase_index : memoryPageIndex vmmDynamicBase 4 = 384 := by decide

theorem inDynamic_iff : InDynamic virt ↔ Address dynamicSlot virt := by
  have hbase : vmmDynamicBase = 0xffffc00000000000 := rfl
  have hsize : vmmDynamicSize = 2 ^ 39 := rfl
  have hindex : memoryPageIndex virt 4 = virt / 2 ^ 39 % 512 :=
    memoryPageIndex_eq (by decide) (by decide)
  rw [InDynamic, hbase, hsize]
  constructor
  · rintro ⟨h1, h2⟩
    refine ⟨?_, by omega, ?_⟩
    · rw [memoryIsCanonical, decide_eq_true_eq]
      omega
    · rw [dynamicSlot, hindex]
      omega
  · rintro ⟨hcan, hlt, hown⟩
    rw [dynamicSlot, hindex] at hown
    rw [memoryIsCanonical, decide_eq_true_eq] at hcan
    omega

theorem inDynamic_of_dynamicAddress (h : dynamicAddress virt = true) : InDynamic virt := by
  rw [dynamicAddress, decide_eq_true_eq] at h
  rw [InDynamic]
  omega

/-- The window of the devices is part of the dynamic part. -/
theorem inDynamic_of_mmio (h1 : mmioBase ≤ virt) (h2 : virt < mmioBase + mmioSize) :
    InDynamic virt := by
  have hbase : vmmDynamicBase + 0x80000000 = mmioBase := rfl
  have hsize : vmmDynamicSize = 2 ^ 39 := rfl
  have hwindow : mmioSize = 0x400000 := rfl
  rw [InDynamic]
  omega

/-! ## The invariant -/

/-- The tables below the dynamic entry of the root. -/
def kernelTables (s : KernelMachine) : Set Nat :=
  treeFrames (kernelMask s.context.system.kernel) s.context.system.kernel.information.rootPhys
    dynamicSlot (slot s.memory)

/-- The direct map is the one that `hhdm_init` made for the memory map. -/
structure Direct (map : MemoryMap) (kernel : KernelVmm) : Prop where
  sound : MapSound map
  made : ∃ context offset, hhdmInit context map offset kernel.information.physicalBits =
    some kernel.directMap

/-- The system between two operations, with the kernel's own space. -/
structure KernelInv (map : MemoryMap) (s : KernelMachine) : Prop where
  system : SystemInv map (userPart s)
  direct : Direct map s.context.system.kernel
  ready : s.context.system.kernel.ready = true
  tree : Tables (kernelMask s.context.system.kernel) s.context.system.kernel.information.nxEnabled
    dynamicSlot s.context.system.kernel.information.rootPhys (slot s.memory)
  reserved : kernelTables s ⊆ reservedPages s.context.system.pmm
  access : ∀ f ∈ kernelTables s, (kernelTableAccess s.context.system.kernel f).isSome = true
  window : s.context.mmio.used ≤ mmioSize

section Direct

variable {map : MemoryMap} {kernel : KernelVmm} {f : Nat}

/-- A frame of the memory manager may become a table. -/
theorem Direct.table_access (h : Direct map kernel) (halign : f % 4096 = 0)
    (husable : f / 4096 ∈ usableFrames map.regions) :
    (kernelTableAccess kernel f).isSome = true := by
  obtain ⟨context, offset, hinit⟩ := h.made
  obtain ⟨q, hq, htype⟩ := hhdmRegion_usable h.sound hinit halign husable
  have htrans := hhdmTranslate_usable h.sound hinit halign husable
  have hsize : memoryPageSize = 4096 := rfl
  have haligned : memoryIsPageAligned f = true := memoryIsPageAligned_iff.2 halign
  rw [kernelTableAccess, hsize, hq]
  simp only [haligned, htype, memoryPhysToVirt, htrans]
  rfl

theorem Direct.mask (h : Direct map kernel) :
    memoryPhysicalMask kernel.information.physicalBits = some (kernelMask kernel) := by
  obtain ⟨context, offset, hinit⟩ := h.made
  rw [hhdmInit] at hinit
  split at hinit
  · cases hinit
  obtain ⟨mask, hmask, -⟩ := Option.bind_eq_some_iff.1 hinit
  rw [kernelMask, hmask]
  rfl

end Direct

theorem kernelSpace_on (kernel : KernelVmm) :
    SpaceOn (kernelSpace kernel) (kernelMask kernel) kernel.information.nxEnabled
      kernel.information.rootPhys := ⟨rfl, rfl, rfl, rfl⟩

/-! ## The callbacks -/

/-- The state of an operation that started in `start`. -/
structure KernelBook (map : MemoryMap) (start c : KernelSystem) : Prop where
  pmm : PmmInv map c.system.pmm
  same : c.system = { start.system with pmm := c.system.pmm }
  mmio : c.mmio = start.mmio
  allocated : allocatedPages start.system.pmm ⊆ allocatedPages c.system.pmm
  reserved : reservedPages start.system.pmm ⊆ reservedPages c.system.pmm

/-- The frames that nobody may be handed out. -/
def inUse (c : KernelSystem) : Set Nat := allocatedPages c.system.pmm ∪ reservedPages c.system.pmm

/-- The tables, given those at the start. -/
def tablesNow (start : KernelSystem) (tables : Set Nat) (c : KernelSystem) : Set Nat :=
  tables ∪ (reservedPages c.system.pmm \ reservedPages start.system.pmm)

/-- The frames that were allocated and are not tables yet. -/
def waiting (start c : KernelSystem) : Set Nat :=
  allocatedPages c.system.pmm \ allocatedPages start.system.pmm

section Callbacks

variable {map : MemoryMap} {start c : KernelSystem} {tables : Set Nat}

theorem tableAllocate_spec (h : KernelBook map start c)
    (htables : tables ⊆ reservedPages start.system.pmm) :
    ∃ result c', tableAllocate c = (result, c') ∧ KernelBook map start c' ∧
      tablesNow start tables c' = tablesNow start tables c ∧
      ((result = none ∧ waiting start c' = waiting start c) ∨
        ∃ f, result = some f ∧ waiting start c' = insert f (waiting start c) ∧ f < 2 ^ 64 ∧
          f ∉ tablesNow start tables c ∧ f ∉ waiting start c ∧ f ∉ inUse start) := by
  obtain ⟨pmm, result, hcall, hinv, -, hout⟩ := pmmAllocPage_spec h.pmm
  have hreserved := pmmAllocPage_reserved h.pmm
  rw [hcall] at hreserved
  have hnow : tablesNow start tables { c with system := { c.system with pmm } } =
      tablesNow start tables c := by
    rw [tablesNow, tablesNow, hreserved]
  refine ⟨result, { c with system := { c.system with pmm } },
    by rw [tableAllocate, hcall], ?_, hnow, ?_⟩
  · refine ⟨hinv, ?_, h.mmio, ?_, ?_⟩
    · show { c.system with pmm } = { start.system with pmm }
      rw [h.same]
    · refine h.allocated.trans ?_
      rcases hout with ⟨-, rfl⟩ | ⟨f, -, -, hset⟩
      · exact subset_rfl
      · exact hset ▸ Set.subset_insert _ _
    · exact h.reserved.trans hreserved.ge
  · rcases hout with ⟨rfl, rfl⟩ | ⟨f, rfl, hnew, hset⟩
    · exact Or.inl ⟨rfl, rfl⟩
    · have hmem : f ∈ allocatedPages pmm := hset ▸ Set.mem_insert f _
      have hnot : f ∉ reservedPages c.system.pmm := by
        intro hf
        rw [← hreserved] at hf
        exact reserved_not_allocated hinv.init hf hmem
      refine Or.inr ⟨f, rfl, ?_, (hinv.page_usable hmem).2.1, ?_, fun hf => hnew hf.1, ?_⟩
      · rw [waiting, waiting]
        show allocatedPages pmm \ _ = _
        rw [hset, Set.insert_sdiff_of_notMem _ fun hf => hnew (h.allocated hf)]
      · rintro (hf | hf)
        · exact hnot (h.reserved (htables hf))
        · exact hnot hf.1
      · rintro (hf | hf)
        · exact hnew (h.allocated hf)
        · exact hnot (h.reserved hf)

theorem tableRelease_spec (h : KernelBook map start c) (hf : f ∈ waiting start c) :
    ∃ c', tableRelease c f = some c' ∧ KernelBook map start c' ∧
      tablesNow start tables c' = tablesNow start tables c ∧
      waiting start c' = waiting start c \ {f} := by
  obtain ⟨pmm, hcall, hinv, -, hset⟩ := pmmFreePage_spec h.pmm hf.1
  have hreserved := pmmFreePage_reserved h.pmm f
  rw [hcall] at hreserved
  refine ⟨{ c with system := { c.system with pmm } }, by rw [tableRelease, hcall],
    ⟨hinv, ?_, h.mmio, ?_, h.reserved.trans hreserved.ge⟩, ?_, ?_⟩
  · show { c.system with pmm } = { start.system with pmm }
    rw [h.same]
  · intro g hg
    rw [show ({ c with system := { c.system with pmm } } : KernelSystem).system.pmm = pmm from rfl,
      hset]
    refine ⟨h.allocated hg, ?_⟩
    rintro rfl
    exact hf.2 hg
  · rw [tablesNow, tablesNow, hreserved]
  · rw [waiting, waiting]
    show allocatedPages pmm \ _ = _
    rw [hset, Set.sdiff_sdiff_comm]

theorem tableCommit_spec (h : KernelBook map start c) (hf : f ∈ waiting start c) :
    ∃ c', tableCommit c f = some c' ∧ KernelBook map start c' ∧
      tablesNow start tables c' = insert f (tablesNow start tables c) ∧
      waiting start c' = waiting start c \ {f} := by
  obtain ⟨pmm, hcall, hinv, -, hset, hreserved⟩ := pmmPinPage_spec h.pmm hf.1
  have hnot : f ∉ reservedPages start.system.pmm := fun hr =>
    reserved_not_allocated h.pmm.init (h.reserved hr) hf.1
  refine ⟨{ c with system := { c.system with pmm }, tablePages := addU64 c.tablePages 1 },
    by rw [tableCommit, hcall], ⟨hinv, ?_, h.mmio, ?_, ?_⟩, ?_, ?_⟩
  · show { c.system with pmm } = { start.system with pmm }
    rw [h.same]
  · intro g hg
    show g ∈ allocatedPages pmm
    rw [hset]
    refine ⟨h.allocated hg, ?_⟩
    rintro rfl
    exact hf.2 hg
  · intro g hg
    show g ∈ reservedPages pmm
    rw [hreserved]
    exact Or.inr (h.reserved hg)
  · rw [tablesNow, tablesNow]
    show tables ∪ (reservedPages pmm \ _) = _
    rw [hreserved, Set.insert_sdiff_of_notMem _ hnot, Set.union_insert]
  · rw [waiting, waiting]
    show allocatedPages pmm \ _ = _
    rw [hset, Set.sdiff_sdiff_comm]

variable (map start) in
/-- The callbacks keep the contract of `vmm_core.h`. -/
theorem kernelOps_contract (htables : tables ⊆ reservedPages start.system.pmm) :
    Contract kernelOps (KernelBook map start) (tablesNow start tables) (waiting start)
      (inUse start) where
  alloc_some := by
    intro c f c' hbook hcall
    obtain ⟨result, c'', hcall', hbook', hnow, hout⟩ := tableAllocate_spec hbook htables
    obtain ⟨rfl, rfl⟩ : result = some f ∧ c'' = c' := Prod.mk.inj (hcall'.symm.trans hcall)
    rcases hout with ⟨h, -⟩ | ⟨g, hg, hrest⟩
    · cases h
    · cases hg
      exact ⟨hbook', hnow, hrest⟩
  alloc_none := by
    intro c c' hbook hcall
    obtain ⟨result, c'', hcall', hbook', hnow, hout⟩ := tableAllocate_spec hbook htables
    obtain ⟨rfl, rfl⟩ : result = none ∧ c'' = c' := Prod.mk.inj (hcall'.symm.trans hcall)
    rcases hout with ⟨-, hwait⟩ | ⟨g, hg, -⟩
    · exact ⟨hbook', hnow, hwait⟩
    · cases hg
  free := fun _ _ hbook hf => tableRelease_spec hbook hf
  commit := fun _ _ hbook hf => tableCommit_spec hbook hf
  invalidate := fun _ _ hbook => ⟨hbook, rfl, rfl⟩

end Callbacks

/-! ## Operations -/

/-- What work on the kernel's space leaves alone; it may have taken frames. -/
structure KernelWork (map : MemoryMap) (s s' : KernelMachine) : Prop where
  inv : KernelInv map s'
  same : s'.context.system = { s.context.system with pmm := s'.context.system.pmm }
  mmio : s'.context.mmio = s.context.mmio
  grown : allocatedPages s.context.system.pmm ⊆ allocatedPages s'.context.system.pmm
  reserved : reservedPages s.context.system.pmm ⊆ reservedPages s'.context.system.pmm
  tables : kernelTables s' = kernelTables s ∪
    (reservedPages s'.context.system.pmm \ reservedPages s.context.system.pmm)
  untouched : Untouched (kernelMask s.context.system.kernel)
    s.context.system.kernel.information.rootPhys dynamicSlot (inUse s.context) s.memory s'.memory

/-- What an operation on the kernel's space leaves alone. -/
structure KernelStep (map : MemoryMap) (s s' : KernelMachine) :
    Prop extends KernelWork map s s' where
  allocated : allocatedPages s'.context.system.pmm = allocatedPages s.context.system.pmm

/-- The kernel's space while it is being edited. -/
abbrev KernelEditing (map : MemoryMap) (start s : KernelMachine) : Prop :=
  Held (KernelBook map start.context) (tablesNow start.context (kernelTables start))
    (waiting start.context) (kernelMask start.context.system.kernel)
    start.context.system.kernel.information.nxEnabled dynamicSlot
    start.context.system.kernel.information.rootPhys s

section Operations

variable {map : MemoryMap} {s s' : KernelMachine}

/-- The root of the kernel is one of its tables. -/
theorem root_mem_kernelTables :
    s.context.system.kernel.information.rootPhys ∈ kernelTables s :=
  ⟨[], ⟨by simp, by simp, by simp⟩, rfl⟩

variable (h : KernelInv map s)

include h

theorem KernelInv.contract : Contract (kernelSpace s.context.system.kernel).ops
    (KernelBook map s.context) (tablesNow s.context (kernelTables s)) (waiting s.context)
    (inUse s.context) := kernelOps_contract map s.context h.reserved

theorem KernelInv.editing : KernelEditing map s s where
  good := ⟨h.system.pmm, rfl, rfl, subset_rfl, subset_rfl⟩
  tree := h.tree
  tables_eq := by
    rw [tablesNow, Set.sdiff_self]
    exact Set.union_empty _
  pending_eq := Set.sdiff_self

/-- Private frames are not tables of the kernel. -/
theorem KernelInv.owned_not_table {vm : Nat} (hf : f ∈ (s.context.system.vms vm).owned) :
    f ∉ kernelTables s := fun htable =>
  reserved_not_allocated h.system.pmm.init (h.reserved htable) (h.system.allocated vm hf)

theorem KernelInv.step (hheld : KernelEditing map s s')
    (huntouched : Untouched (kernelMask s.context.system.kernel)
      s.context.system.kernel.information.rootPhys dynamicSlot (inUse s.context)
        s.memory s'.memory) :
    KernelStep map s s' := by
  have hbook := hheld.good
  have hkernel : s'.context.system.kernel = s.context.system.kernel := by rw [hbook.same]
  have hvms : s'.context.system.vms = s.context.system.vms := by rw [hbook.same]
  have hallocated : allocatedPages s'.context.system.pmm = allocatedPages s.context.system.pmm := by
    apply Set.Subset.antisymm _ hbook.allocated
    exact Set.sdiff_eq_empty.1 hheld.pending_eq
  have htables : kernelTables s' = tablesNow s.context (kernelTables s) s'.context := by
    rw [kernelTables, hkernel]
    exact hheld.tables_eq.symm
  refine ⟨⟨⟨⟨hbook.pmm, ?_, ?_, ?_⟩, ?_, ?_, ?_, ?_, ?_, hbook.mmio ▸ h.window⟩, hbook.same,
    hbook.mmio, hbook.allocated, hbook.reserved, htables, huntouched⟩, hallocated⟩
  · intro vm
    show s'.context.system.vms vm = .zero ∨ Live vm (s'.context.system.vms vm) s'.memory
    rw [hvms]
    rcases h.system.state vm with hzero | hlive
    · exact Or.inl hzero
    · refine Or.inr (hlive.of_bytes fun x hx => huntouched.bytes x (Or.inl ?_) ?_)
      · exact h.system.allocated vm (Or.inl hx)
      · exact h.owned_not_table (Or.inl hx)
  · show ∀ v w, v ≠ w → Disjoint (s'.context.system.vms v).owned (s'.context.system.vms w).owned
    rw [hvms]
    exact h.system.apart
  · show ∀ vm, (s'.context.system.vms vm).owned ⊆ allocatedPages s'.context.system.pmm
    rw [hvms, hallocated]
    exact h.system.allocated
  · rw [hkernel]
    exact h.direct
  · rw [hkernel]
    exact h.ready
  · rw [hkernel]
    exact hheld.tree
  · rw [htables]
    rintro f (hf | hf)
    · exact hbook.reserved (h.reserved hf)
    · exact hf.1
  · rw [htables, hkernel]
    rintro f (hf | ⟨hf, hnew⟩)
    · exact h.access f hf
    · -- A new table was an eligible frame at the start.
      have hel : f / 4096 < s.context.system.pmm.plan.spanFrames ∧
          s.context.system.pmm.isEligible (f / 4096) = true := by
        by_contra hnot
        exact hnew ⟨hf.1, hnot⟩
      exact h.direct.table_access hf.1 (h.system.pmm.usable _ hel.1 hel.2)

theorem KernelStep.refl : KernelStep map s s :=
  h.step h.editing (Untouched.refl _)

theorem KernelWork.refl : KernelWork map s s := (KernelStep.refl h).toKernelWork

theorem KernelInv.not_refused (hown : dynamicSlot (memoryPageIndex virt 4)) :
    ¬ Refused (kernelMask s.context.system.kernel) s.context.system.kernel.information.rootPhys
      (slot s.memory) ((kernelSpace s.context.system.kernel).ops.table s.context) virt := by
  rintro ⟨depth, f, hdepth, hf, href⟩
  have hmem : f ∈ kernelTables s := ⟨_, path_dom hdepth hown, hf⟩
  exact absurd ((h.access f hmem).symm.trans href) (by decide)

/-- The entry of a page of the dynamic part. -/
def kernelLeaf (s : KernelMachine) (virt : Nat) : Nat :=
  leafAt (kernelMask s.context.system.kernel) s.context.system.kernel.information.rootPhys
    (slot s.memory) virt

/-- A query of the dynamic part reports the entry of the page. -/
theorem KernelInv.query (hvirt : InDynamic virt) :
    vmmQueryPage s virt =
      some (mappingOf (kernelMask s.context.system.kernel) (kernelLeaf s virt) virt) := by
  have hv := inDynamic_iff.1 hvirt
  rw [vmmQueryPage]
  simp only [h.ready, if_true]
  rcases vmmSpaceQuery_spec (kernelSpace_on _) h.tree hv.canonical hv.own with ⟨-, href⟩ | hsome
  · exact absurd href (h.not_refused hv.own)
  · exact hsome

end Operations

section Steps

variable {map : MemoryMap} {s1 s2 s3 : KernelMachine}

theorem KernelWork.kernel (h : KernelWork map s1 s2) :
    s2.context.system.kernel = s1.context.system.kernel := by rw [h.same]

theorem KernelWork.vms (h : KernelWork map s1 s2) :
    s2.context.system.vms = s1.context.system.vms := by rw [h.same]

/-- What is in use stays in use. -/
theorem KernelWork.inUse_subset (h : KernelWork map s1 s2) : inUse s1.context ⊆ inUse s2.context :=
  Set.union_subset_union h.grown h.reserved

/-- A frame in use that is no table does not become one. -/
theorem KernelWork.not_table (h : KernelWork map s1 s2) (hf : f ∈ inUse s1.context)
    (hnot : f ∉ kernelTables s1) : f ∉ kernelTables s2 := by
  rw [h.tables]
  rintro (htable | ⟨hnew, hold⟩)
  · exact hnot htable
  · rcases hf with hf | hf
    · exact reserved_not_allocated h.inv.system.pmm.init hnew (h.grown hf)
    · exact hold hf

theorem KernelWork.trans (h : KernelWork map s1 s2) (h' : KernelWork map s2 s3) :
    KernelWork map s1 s3 := by
  have hkernel := h.kernel
  have huntouched := h'.untouched
  rw [hkernel] at huntouched
  refine ⟨h'.inv, ?_, h'.mmio.trans h.mmio, h.grown.trans h'.grown,
    h.reserved.trans h'.reserved, ?_, ?_, ?_, ?_⟩
  · rw [h'.same, h.same]
  · rw [h'.tables, h.tables]
    ext f
    constructor
    · rintro ((hf | hf) | hf)
      · exact Or.inl hf
      · exact Or.inr ⟨h'.reserved hf.1, hf.2⟩
      · exact Or.inr ⟨hf.1, fun hold => hf.2 (h.reserved hold)⟩
    · rintro (hf | hf)
      · exact Or.inl (Or.inl hf)
      · by_cases hmid : f ∈ reservedPages s2.context.system.pmm
        · exact Or.inl (Or.inr ⟨hmid, hf.2⟩)
        · exact Or.inr ⟨hf.1, hmid⟩
  · intro x hx hnot
    have hnot' : frameOf x ∉ kernelTables s2 := h.not_table hx hnot
    rw [kernelTables, hkernel] at hnot'
    rw [huntouched.bytes x (h.inUse_subset hx) hnot']
    exact h.untouched.bytes x hx hnot
  · intro i hi
    exact (huntouched.foreign i hi).trans (h.untouched.foreign i hi)
  · intro i hi
    have hfirst := h.untouched.linked i hi
    rw [← hfirst]
    apply huntouched.linked
    rw [hfirst]
    exact hi

theorem KernelStep.trans (h : KernelStep map s1 s2) (h' : KernelStep map s2 s3) :
    KernelStep map s1 s3 :=
  ⟨h.toKernelWork.trans h'.toKernelWork, h'.allocated.trans h.allocated⟩

end Steps

/-! ## Operations on private spaces -/

/-- The window of device apertures is no part of the tables. -/
theorem KernelInv.of_mmio {map : MemoryMap} {s : KernelMachine} (h : KernelInv map s)
    {mmio : MmioState} (hused : mmio.used ≤ mmioSize) :
    KernelInv map ⟨{ s.context with mmio }, s.memory⟩ :=
  ⟨h.system, h.direct, h.ready, h.tree, h.reserved, h.access, hused⟩

section User

variable {map : MemoryMap} {s : KernelMachine} (h : KernelInv map s) {m : Machine}
  (hkernel : m.context.kernel = s.context.system.kernel)
  (hbytes : ∀ x, frameOf x ∈ kernelTables s → m.memory x = s.memory x)

include h hkernel hbytes

theorem KernelInv.user_tree :
    Tables (kernelMask s.context.system.kernel) s.context.system.kernel.information.nxEnabled
      dynamicSlot s.context.system.kernel.information.rootPhys (slot m.memory) ∧
    kernelTables (withUserPart s m) = kernelTables s ∧
    ∀ virt, InDynamic virt → kernelLeaf (withUserPart s m) virt = kernelLeaf s virt := by
  have hsame : ∀ p f i, Dom dynamicSlot p →
      Radix.descend (next (kernelMask s.context.system.kernel)) (slot s.memory)
        s.context.system.kernel.information.rootPhys p = some f →
      slot m.memory f i = slot s.memory f i := by
    intro p f i hp hf
    refine slot_congr (fun x hx => hbytes x ?_) i
    rw [hx]
    exact ⟨p, hp, hf⟩
  obtain ⟨htree, hdesc, hleaf⟩ := h.tree.congr hsame
  refine ⟨htree, ?_, fun virt hvirt => ?_⟩
  · rw [kernelTables, kernelTables]
    show treeFrames (kernelMask m.context.kernel) m.context.kernel.information.rootPhys dynamicSlot
      (slot m.memory) = _
    rw [hkernel]
    ext f
    constructor
    · rintro ⟨p, hp, hf⟩
      exact ⟨p, hp, by rw [← hdesc p hp]; exact hf⟩
    · rintro ⟨p, hp, hf⟩
      exact ⟨p, hp, by rw [hdesc p hp]; exact hf⟩
  · rw [kernelLeaf, kernelLeaf]
    show leafAt (kernelMask m.context.kernel) m.context.kernel.information.rootPhys
      (slot m.memory) virt = _
    rw [hkernel]
    exact hleaf virt (inDynamic_iff.1 hvirt).own

variable (hsystem : SystemInv map m)
  (hreserved : reservedPages m.context.pmm = reservedPages s.context.system.pmm)

include hsystem hreserved

/-- What leaves the tables of the kernel alone keeps them in order. -/
theorem KernelInv.of_user : KernelInv map (withUserPart s m) := by
  obtain ⟨htree, htables, -⟩ := h.user_tree hkernel hbytes
  refine ⟨hsystem, ?_, ?_, ?_, ?_, ?_, h.window⟩
  · show Direct map m.context.kernel
    rw [hkernel]
    exact h.direct
  · show m.context.kernel.ready = true
    rw [hkernel]
    exact h.ready
  · show Tables (kernelMask m.context.kernel) m.context.kernel.information.nxEnabled dynamicSlot
      m.context.kernel.information.rootPhys (slot m.memory)
    rw [hkernel]
    exact htree
  · rw [htables]
    show kernelTables s ⊆ reservedPages m.context.pmm
    rw [hreserved]
    exact h.reserved
  · rw [htables]
    show ∀ f ∈ kernelTables s, (kernelTableAccess m.context.kernel f).isSome = true
    rw [hkernel]
    exact h.access

end User

end Utamo.KernelSpace
