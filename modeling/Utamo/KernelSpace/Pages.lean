import Utamo.Heap.Pages
import Utamo.KernelSpace.Operations

/-!
# The kernel's page callbacks

`heap.c` and `thread_stack.c` give the same six callbacks to `heap_pages.c`: frames of the memory
manager, cleared through the direct map and mapped in the dynamic part of the kernel's space. They
keep the contract of `heap_pages.h` (`kernelPageLaws`), for a transaction that started in some
state: the frames it owns are those that were allocated since, and until it ends it keeps what
`KernelWork` promises.
-/

set_option autoImplicit false

namespace Utamo.KernelSpace

open Lib Lib.ByteMemory Memory Pmm Vmm AddressSpace Heap

variable {virt f : Nat} {s : KernelMachine}

/-! ## Callbacks -/

/-- The machine with another state of the memory manager. -/
def withPmm (s : KernelMachine) (pmm : PmmState) : KernelMachine :=
  withUserPart s ⟨{ s.context.system with pmm }, s.memory⟩

/-- The machine with other contents of memory. -/
def withMemory (s : KernelMachine) (memory : ByteMemory) : KernelMachine :=
  withUserPart s ⟨s.context.system, memory⟩

/-- `zero_frame` of `heap.c`, `zero_page` of `thread_stack.c` -/
def zeroPage (s : KernelMachine) (phys : Nat) : KernelMachine × Bool :=
  match memoryPhysToVirt s.context.system.kernel phys memoryPageSize with
  | none => (s, false)
  | some pointer => (withMemory s (memset s.memory pointer 0 memoryPageSize), true)

/-- The callbacks that the kernel gives to `heap_pages.c`. -/
def kernelPageOps : PageOps KernelMachine where
  alloc := fun s =>
    match pmmAllocPage s.context.system.pmm with
    | (pmm, phys) => (withPmm s pmm, phys)
  free := fun s phys =>
    match pmmFreePage s.context.system.pmm phys with
    | (pmm, ok) => (withPmm s pmm, ok)
  zero := zeroPage
  map := vmmMapPage
  query := vmmQueryPage
  unmap := vmmUnmapPage

/-! ## Work between operations -/

section Work

variable {map : MemoryMap} {s c : KernelMachine} (hs : KernelInv map s) (h : KernelWork map s c)

include hs h

/-- Frames are taken and returned, and frames that were taken are written. -/
theorem KernelWork.of_rest {m : Machine} (hpmm : PmmInv map m.context.pmm)
    (hsame : m.context = { c.context.system with pmm := m.context.pmm })
    (hgrown : allocatedPages s.context.system.pmm ⊆ allocatedPages m.context.pmm)
    (hreserved : reservedPages m.context.pmm = reservedPages c.context.system.pmm)
    (hbytes : ∀ x, frameOf x ∉ waiting s.context c.context → m.memory x = c.memory x) :
    KernelWork map s (withUserPart c m) := by
  have hkernel : m.context.kernel = c.context.system.kernel := by rw [hsame]
  have hvms : m.context.vms = s.context.system.vms := by
    rw [hsame]
    exact h.vms
  -- What was in use at the start is not what the work has taken.
  have hnew : ∀ f ∈ inUse s.context, f ∉ waiting s.context c.context := by
    rintro f (hf | hf) ⟨halloc, hnot⟩
    · exact hnot hf
    · exact reserved_not_allocated h.inv.system.pmm.init (h.reserved hf) halloc
  have htable : ∀ f ∈ kernelTables c, f ∉ waiting s.context c.context := fun f hf hwait =>
    reserved_not_allocated h.inv.system.pmm.init (h.inv.reserved hf) hwait.1
  have htables : ∀ x, frameOf x ∈ kernelTables c → m.memory x = c.memory x :=
    fun x hx => hbytes x (htable _ hx)
  have howned : ∀ vm, (m.context.vms vm).owned ⊆ allocatedPages s.context.system.pmm := by
    intro vm
    rw [hvms]
    exact hs.system.allocated vm
  have hsystem : SystemInv map m := by
    refine ⟨hpmm, fun vm => ?_, ?_, fun vm => (howned vm).trans hgrown⟩
    · have hvm : m.context.vms vm = c.context.system.vms vm := by rw [hsame]
      have hframes := howned vm
      rw [hvm] at hframes ⊢
      rcases h.inv.system.state vm with hzero | hlive
      · exact Or.inl hzero
      · refine Or.inr (hlive.of_bytes fun x hx => hbytes x (hnew _ (Or.inl ?_)))
        exact hframes (Or.inl hx)
    · rw [hsame]
      exact h.inv.system.apart
  obtain ⟨-, hset, -⟩ := h.inv.user_tree hkernel htables
  have hroot : ∀ i, slot m.memory s.context.system.kernel.information.rootPhys i =
      slot c.memory s.context.system.kernel.information.rootPhys i := by
    refine slot_congr fun x hx => htables x ?_
    rw [hx, ← h.kernel]
    exact root_mem_kernelTables
  refine ⟨h.inv.of_user hkernel htables hsystem hreserved, ?_, h.mmio, hgrown, ?_, ?_, ?_, ?_, ?_⟩
  · show m.context = { s.context.system with pmm := m.context.pmm }
    rw [hsame, h.same]
  · show _ ⊆ reservedPages m.context.pmm
    rw [hreserved]
    exact h.reserved
  · rw [hset]
    show _ = _ ∪ (reservedPages m.context.pmm \ _)
    rw [hreserved]
    exact h.tables
  · intro x hx hnot
    exact (hbytes x (hnew _ hx)).trans (h.untouched.bytes x hx hnot)
  · exact fun i hi => (hroot i).trans (h.untouched.foreign i hi)
  · exact fun i hi => (hroot i).trans (h.untouched.linked i hi)

theorem KernelWork.of_pmm {pmm : PmmState} (hpmm : PmmInv map pmm)
    (hgrown : allocatedPages s.context.system.pmm ⊆ allocatedPages pmm)
    (hreserved : reservedPages pmm = reservedPages c.context.system.pmm) :
    KernelWork map s (withPmm c pmm) :=
  h.of_rest hs hpmm rfl hgrown hreserved fun _ _ => rfl

theorem KernelWork.of_memory {memory : ByteMemory}
    (hbytes : ∀ x, frameOf x ∉ waiting s.context c.context → memory x = c.memory x) :
    KernelWork map s (withMemory c memory) :=
  h.of_rest hs h.inv.system.pmm rfl h.grown rfl hbytes

omit hs in
/-- What the work writes outside the tables is in frames that it has taken. -/
theorem KernelWork.leaf_of_memory {memory : ByteMemory}
    (hbytes : ∀ x, frameOf x ∉ waiting s.context c.context → memory x = c.memory x)
    (hvirt : InDynamic virt) : kernelLeaf (withMemory c memory) virt = kernelLeaf c virt := by
  have htables : ∀ x, frameOf x ∈ kernelTables c → memory x = c.memory x := fun x hx =>
    hbytes x fun hwait =>
      reserved_not_allocated h.inv.system.pmm.init (h.inv.reserved hx) hwait.1
  exact (h.inv.user_tree rfl htables).2.2 virt hvirt

end Work

/-! ## The contract -/

/-- What a page of the dynamic part is mapped to. -/
def kernelPage (s : KernelMachine) (virt : Nat) : Option PageEntry :=
  if kernelLeaf s virt = 0 then none
  else some ⟨kernelLeaf s virt &&& kernelMask s.context.system.kernel,
    kernelLeaf s virt &&& notU64 vmmAddressMask⟩

theorem kernelPage_congr {s' : KernelMachine}
    (hkernel : s'.context.system.kernel = s.context.system.kernel)
    (hleaf : kernelLeaf s' virt = kernelLeaf s virt) : kernelPage s' virt = kernelPage s virt := by
  rw [kernelPage, kernelPage, hleaf, hkernel]

theorem kernelPage_packed {phys flags : Nat}
    (hmask : Within (kernelMask s.context.system.kernel) vmmAddressMask)
    (hframe : Frame (kernelMask s.context.system.kernel) phys)
    (hflags : FlagsOk s.context.system.kernel.information.nxEnabled flags)
    (hleaf : kernelLeaf s virt = phys ||| flags) : kernelPage s virt = some ⟨phys, flags⟩ := by
  rw [kernelPage, hleaf, if_neg (packed_ne_zero hmask hframe hflags),
    packed_mask hmask hframe hflags, packed_flags hmask hframe hflags]

theorem kernelPage_zero : kernelPage s virt = none ↔ kernelLeaf s virt = 0 := by
  rw [kernelPage]
  split
  · rename_i h
    exact ⟨fun _ => h, fun _ => rfl⟩
  · rename_i h
    exact ⟨nofun, fun h' => absurd h' h⟩

theorem inDynamic_of_page (h : ArenaPage virt) : InDynamic virt := h.2

/-- The first addresses of pages are on one page only if they are the same. -/
theorem samePage_iff {v w : Nat} (hv : ArenaPage v) (hw : ArenaPage w) : SamePage v w ↔ v = w := by
  have h1 := hv.1
  have h2 := hw.1
  rw [SamePage]
  omega

theorem KernelInv.query_page {map : MemoryMap} (h : KernelInv map s)
    (hvirt : ArenaPage virt) :
    ∃ mapping, vmmQueryPage s virt = some mapping ∧ Reports mapping (kernelPage s virt) := by
  refine ⟨_, h.query (inDynamic_of_page hvirt), ?_⟩
  rw [mappingOf, kernelPage]
  split
  · rfl
  · refine ⟨rfl, rfl, ?_, rfl⟩
    have halign := hvirt.1
    show _ + virt % 4096 = _
    rw [halign, Nat.add_zero]

/-- A transaction on the kernel's pages that started in `start`. -/
def kernelView (map : MemoryMap) (start : KernelMachine) : PageView KernelMachine where
  good := KernelWork map start
  inside := fun virt => virt % 4096 = 0 ∧ dynamicAddress virt = true
  page := kernelPage
  owned := fun c => waiting start.context c.context
  blank := fun c => {f | ∀ x, frameOf x = f → c.memory x = 0}

/-- A page is unmapped, and all others are what they were. -/
theorem kernelPage_unmapped {s' : KernelMachine} {v : Nat}
    (hkernel : s'.context.system.kernel = s.context.system.kernel)
    (hleaf : LeafChanged s s' virt 0) (hvirt : ArenaPage virt) (hv : ArenaPage v) :
    kernelPage s' v = if v = virt then none else kernelPage s v := by
  split
  · rename_i heq
    subst heq
    exact kernelPage_zero.2 (hleaf.self (inDynamic_of_page hv))
  · rename_i hne
    refine kernelPage_congr hkernel (hleaf.of_ne (inDynamic_of_page hv) fun hsame => hne ?_)
    exact (samePage_iff hv hvirt).1 hsame

section Laws

variable {map : MemoryMap} {start c : KernelMachine}

/-- An operation on the kernel's space does not write frames that are taken. -/
theorem blankKept_of_step {c' : KernelMachine} (h : KernelWork map start c)
    (hstep : KernelStep map c c') : BlankKept (kernelView map start) c c' := by
  intro f hf _ hblank x hx
  have halloc : frameOf x ∈ allocatedPages c.context.system.pmm := by
    rw [hx]
    exact hf.1
  have hbytes := hstep.untouched.bytes x (Or.inl halloc) fun htable =>
    reserved_not_allocated h.inv.system.pmm.init (h.inv.reserved htable) halloc
  exact hbytes.trans (hblank x hx)

theorem owned_of_step {c' : KernelMachine} (hstep : KernelStep map c c') :
    (kernelView map start).owned c' = (kernelView map start).owned c := by
  show allocatedPages _ \ _ = allocatedPages _ \ _
  rw [hstep.allocated]

variable (hs : KernelInv map start)

include hs

theorem kernelAlloc_law (h : KernelWork map start c) :
    ∃ c' result, kernelPageOps.alloc c = (c', result) ∧ KernelWork map start c' ∧
      PagesSame (kernelView map start) c c' ∧ BlankKept (kernelView map start) c c' ∧
      ((result = none ∧ waiting start.context c'.context = waiting start.context c.context) ∨
        ∃ f, result = some f ∧ f ∉ waiting start.context c.context ∧
          waiting start.context c'.context = insert f (waiting start.context c.context) ∧
          f % 4096 = 0 ∧ f &&& notU64 vmmAddressMask = 0) := by
  obtain ⟨pmm, result, hcall, hinv, -, hout⟩ := pmmAllocPage_spec h.inv.system.pmm
  have hreserved := pmmAllocPage_reserved h.inv.system.pmm
  change reservedPages (pmmAllocPage c.context.system.pmm).1 = _ at hreserved
  change pmmAllocPage c.context.system.pmm = _ at hcall
  rw [hcall] at hreserved
  have hgrown : allocatedPages start.context.system.pmm ⊆ allocatedPages pmm := by
    refine h.grown.trans ?_
    rcases hout with ⟨-, rfl⟩ | ⟨f, -, -, hset⟩
    · exact subset_rfl
    · rw [hset]
      exact Set.subset_insert _ _
  refine ⟨withPmm c pmm, result, ?_, h.of_pmm hs hinv hgrown hreserved, fun _ _ => rfl,
    fun f _ _ hblank => hblank, ?_⟩
  · show (match pmmAllocPage c.context.system.pmm with | (pmm, phys) => (withPmm c pmm, phys)) = _
    rw [hcall]
  · rcases hout with ⟨rfl, rfl⟩ | ⟨f, rfl, hnew, hset⟩
    · exact Or.inl ⟨rfl, rfl⟩
    · have hmem : f ∈ allocatedPages pmm := hset ▸ Set.mem_insert f _
      obtain ⟨halign, -, husable⟩ := hinv.page_usable hmem
      obtain ⟨context, offset, hinit⟩ := h.inv.direct.made
      have hlt := usable_lt h.inv.direct.sound hinit halign husable
      refine Or.inr ⟨f, rfl, fun hf => hnew hf.1, ?_, halign,
        (within_addressMask halign (by omega)).and_not (by decide)⟩
      show allocatedPages pmm \ _ = _
      rw [hset, Set.insert_sdiff_of_notMem _ fun hf => hnew (h.grown hf)]
      rfl

theorem kernelFree_law (h : KernelWork map start c)
    (hf : f ∈ waiting start.context c.context) :
    ∃ c', kernelPageOps.free c f = (c', true) ∧ KernelWork map start c' ∧
      PagesSame (kernelView map start) c c' ∧ BlankKept (kernelView map start) c c' ∧
      waiting start.context c'.context = waiting start.context c.context \ {f} := by
  obtain ⟨pmm, hcall, hinv, -, hset⟩ := pmmFreePage_spec h.inv.system.pmm hf.1
  have hreserved := pmmFreePage_reserved h.inv.system.pmm f
  change reservedPages (pmmFreePage c.context.system.pmm f).1 = _ at hreserved
  change pmmFreePage c.context.system.pmm f = _ at hcall
  rw [hcall] at hreserved
  have hgrown : allocatedPages start.context.system.pmm ⊆ allocatedPages pmm := by
    intro g hg
    rw [hset]
    refine ⟨h.grown hg, ?_⟩
    rintro rfl
    exact hf.2 hg
  refine ⟨withPmm c pmm, ?_, h.of_pmm hs hinv hgrown hreserved, fun _ _ => rfl,
    fun f _ _ hblank => hblank, ?_⟩
  · show (match pmmFreePage c.context.system.pmm f with | (pmm, ok) => (withPmm c pmm, ok)) = _
    rw [hcall]
  · show allocatedPages pmm \ _ = _
    rw [hset, Set.sdiff_sdiff_comm]
    rfl

theorem kernelZero_law (h : KernelWork map start c)
    (hf : f ∈ waiting start.context c.context) :
    ∃ c' ok, kernelPageOps.zero c f = (c', ok) ∧ KernelWork map start c' ∧
      PagesSame (kernelView map start) c c' ∧ BlankKept (kernelView map start) c c' ∧
      waiting start.context c'.context = waiting start.context c.context ∧
      (ok = true → ∀ x, frameOf x = f → c'.memory x = 0) := by
  have hsize : memoryPageSize = 4096 := rfl
  obtain ⟨halign, -, husable⟩ := h.inv.system.pmm.page_usable hf.1
  obtain ⟨context, offset, hinit⟩ := h.inv.direct.made
  have htrans := hhdmTranslate_usable h.inv.direct.sound hinit halign husable
  have haccess : memoryPhysToVirt c.context.system.kernel f memoryPageSize = some f := by
    rw [memoryPhysToVirt, hsize, htrans]
    rfl
  have hbytes : ∀ x, frameOf x ∉ waiting start.context c.context →
      memset c.memory f 0 memoryPageSize x = c.memory x := by
    intro x hx
    refine memset_of_outside ?_
    by_contra hin
    refine hx ?_
    have hframe : frameOf x = f := by
      rw [frameOf]
      omega
    rw [hframe]
    exact hf
  refine ⟨withMemory c (memset c.memory f 0 memoryPageSize), true, ?_, h.of_memory hs hbytes, ?_,
    ?_, rfl, fun _ x hx => ?_⟩
  · show zeroPage c f = _
    rw [zeroPage, haccess]
  · exact fun v hv => kernelPage_congr rfl (h.leaf_of_memory hbytes (inDynamic_of_page hv))
  · intro g _ _ hblank x hx
    show memset c.memory f 0 memoryPageSize x = 0
    rw [memset]
    split
    · rfl
    · exact hblank x hx
  · rw [frameOf] at hx
    exact memset_of_inside (by omega) (by omega)

omit hs in
theorem kernelMap_law (h : KernelWork map start c) {flags : Nat}
    (hin : (kernelView map start).inside virt) (hflags : flags < 2 ^ 64) :
    ∃ c' ok, vmmMapPage c virt f flags = some (c', ok) ∧ KernelWork map start c' ∧
      BlankKept (kernelView map start) c c' ∧
      (kernelView map start).owned c' = (kernelView map start).owned c ∧
      (ok = true → PageChanged (kernelView map start) c c' virt (some ⟨f, flags⟩)) ∧
      (ok = false → PagesSame (kernelView map start) c c') := by
  have hpage : ArenaPage virt := ⟨hin.1, inDynamic_of_dynamicAddress hin.2⟩
  obtain ⟨c', ok, hcall, hstep, hok, hnot⟩ := vmmMapPage_spec h.inv virt f hflags
  refine ⟨c', ok, hcall, h.trans hstep.toKernelWork, blankKept_of_step h hstep, owned_of_step hstep,
    fun htrue v hv => ?_, fun hfalse v hv => ?_⟩
  · obtain ⟨-, hmap, hleaf⟩ := hok htrue
    show kernelPage c' v = if v = virt then _ else kernelPage c v
    split
    · rename_i heq
      subst heq
      have hmask := memoryPhysicalMask_within hstep.inv.direct.mask
      refine kernelPage_packed hmask ?_ ?_ (hleaf.self (inDynamic_of_page hv))
      · rw [hstep.kernel]
        exact hmap.frame
      · rw [hstep.kernel]
        exact hmap.flags
    · rename_i hne
      refine kernelPage_congr hstep.kernel (hleaf.of_ne (inDynamic_of_page hv) fun hsame => hne ?_)
      exact (samePage_iff hv hpage).1 hsame
  · exact kernelPage_congr hstep.kernel (hnot hfalse v (inDynamic_of_page hv))

omit hs in
theorem kernelUnmap_law (h : KernelWork map start c)
    (hin : (kernelView map start).inside virt) (hpresent : kernelPage c virt ≠ none) :
    ∃ c', vmmUnmapPage c virt = (c', true) ∧ KernelWork map start c' ∧
      BlankKept (kernelView map start) c c' ∧
      (kernelView map start).owned c' = (kernelView map start).owned c ∧
      PageChanged (kernelView map start) c c' virt none := by
  have hpage : ArenaPage virt := ⟨hin.1, inDynamic_of_dynamicAddress hin.2⟩
  obtain ⟨c', ok, hcall, hstep, -, hok, hnot⟩ := vmmUnmapPage_spec h.inv virt
  have hleaf : kernelLeaf c virt ≠ 0 := fun hzero => hpresent (kernelPage_zero.2 hzero)
  cases ok with
  | false => exact absurd ⟨hin.2, hin.1, hleaf⟩ (hnot rfl).2
  | true =>
    refine ⟨c', hcall, h.trans hstep.toKernelWork, blankKept_of_step h hstep, owned_of_step hstep,
      fun v hv => ?_⟩
    exact kernelPage_unmapped hstep.kernel (hok rfl).2 hpage hv

/-- The callbacks keep the contract of `heap_pages.h`. -/
theorem kernelPageLaws : PageLaws (kernelView map start) kernelPageOps where
  arena := fun _ hin => ⟨hin.1, inDynamic_of_dynamicAddress hin.2⟩
  alloc := fun _ hc => kernelAlloc_law hs hc
  free := fun _ _ hc hf => kernelFree_law hs hc hf
  zero := fun _ _ hc hf => kernelZero_law hs hc hf
  map := fun _ _ _ _ hc hin _ _ hflags => kernelMap_law hc hin hflags
  query := fun _ _ hc hin => hc.inv.query_page ⟨hin.1, inDynamic_of_dynamicAddress hin.2⟩
  unmap := fun _ _ hc hin hpresent => kernelUnmap_law hc hin hpresent

end Laws

end Utamo.KernelSpace
