import Utamo.AddressSpace.Invariant

/-!
# Pages of an address space

`user_vm_alloc_page`, `user_vm_unmap_page`, `user_vm_protect_page` and `user_vm_copy_to` on a space
in order: each of them returns, the space is in order again, and nothing of anyone else has changed.
The ledger follows the leaves of the tree: `Live.edited` is the common step, from what the
page-table editor guarantees back to the invariant.
-/

set_option autoImplicit false

namespace Utamo.AddressSpace

open Lib Lib.ByteMemory Lib.Ledger Memory Pmm Vmm

variable {map : MemoryMap} {vm : Nat} {elsewhere : Set Nat} {s : Machine}
  {v : UserVm} {memory : ByteMemory} {s' : Machine} {pmm : PmmState} {phys virt w : Nat}
  {access : UInt32} {chunks : List CopyChunk}

/-! ## Handing the tables to the editor and back -/

/-- The space while its tables are being edited; `start` is the system at the call and `foreign`
are the frames that are not its tables. -/
abbrev Editing (map : MemoryMap) (vm : Nat) (start : System) (foreign : Set Nat) (s : Machine) :
    Prop :=
  Held (TableBook map vm start foreign) (fun c => (c.vms vm).publishedFrames)
    (fun c => (c.vms vm).pendingFrames) (start.vms vm).space.physicalMask true lowerHalf
    (start.vms vm).space.rootPhys s

theorem Live.contract (hlive : Live vm v memory) (map : MemoryMap)
    (start : System) (foreign : Set Nat) :
    Contract v.space.toVmmSpace.ops (TableBook map vm start foreign)
      (fun c => (c.vms vm).publishedFrames) (fun c => (c.vms vm).pendingFrames)
      (foreign ∪ reservedPages start.pmm) := by
  rw [UserSpace.toVmmSpace, hlive.context]
  exact userOps_contract map vm start foreign

theorem Live.editing {c : System} {foreign : Set Nat}
    (hlive : Live vm (c.vms vm) memory) (hpmm : PmmInv map c.pmm)
    (hapart : Disjoint foreign (c.vms vm).tableFrames)
    (halloc : allocatedPages c.pmm = foreign ∪ (c.vms vm).tableFrames) :
    Editing map vm c foreign ⟨c, memory⟩ where
  good := ⟨hpmm, TablesOnly.refl vm c, hlive.tableLedger, hapart, halloc, rfl⟩
  tree := hlive.tree
  tables_eq := hlive.tables_eq
  pending_eq := hlive.pending

/-- A space whose tables were edited is live again, with the pages that the leaves show. -/
theorem Live.edited {start : System} {foreign : Set Nat}
    (hlive : Live vm (start.vms vm) memory) (hedit : Editing map vm start foreign s')
    (hroot : ∀ i, ¬ lowerHalf i → slot s'.memory (start.vms vm).space.rootPhys i =
      slot memory (start.vms vm).space.rootPhys i)
    {pages : Nat → UserVmPage} {pageCount : Nat}
    (hledger : PageLedger { s'.context.vms vm with pages, pageCount })
    (hpage : ∀ i, i < userVmPageLimit → (pages i).allocated = true →
      PageSound (start.vms vm).space.physicalMask (pages i))
    (hforeign : ∀ i, i < userVmPageLimit → (pages i).allocated = true → (pages i).phys ∈ foreign)
    (hleaves : ∀ w, Address lowerHalf w → PageLeaf pages w
      (leafAt (start.vms vm).space.physicalMask (start.vms vm).space.rootPhys (slot s'.memory) w)) :
    Live vm { s'.context.vms vm with pages, pageCount } s'.memory := by
  have hbook := hedit.good
  have hspace : (s'.context.vms vm).space = (start.vms vm).space := hbook.only.space
  refine ⟨hlive.address, hbook.only.initialized.trans hlive.initialized, ?_, ?_, ?_,
    ⟨hbook.ledger.count, hbook.ledger.distinct, hbook.ledger.root⟩, hledger, ?_, ?_,
    hedit.pending_eq, ?_, ?_, ?_, ?_⟩
  · rw [hspace]
    exact hlive.space_initialized
  · rw [hspace]
    exact hlive.nx
  · rw [hspace]
    exact hlive.context
  · rw [hspace]
    exact hpage
  · refine Set.disjoint_left.2 fun f hf hf' => ?_
    obtain ⟨i, hi, hused, rfl⟩ := hf'
    exact Set.disjoint_left.1 hbook.apart (hforeign i hi hused) hf
  · rw [hspace]
    exact hedit.tree
  · rw [hspace]
    exact hedit.tables_eq
  · rw [hspace]
    exact hleaves
  · intro i hi
    rw [hspace, hroot i (Nat.not_lt.2 hi)]
    exact hlive.upper i hi

section Editing

variable {start : System} {memory : ByteMemory} {foreign : Set Nat} {s' : Machine}

/-- The pages are as before when the leaves are. -/
theorem Live.edited_kept (hlive : Live vm (start.vms vm) memory)
    (hedit : Editing map vm start foreign s')
    (hroot : ∀ i, ¬ lowerHalf i → slot s'.memory (start.vms vm).space.rootPhys i =
      slot memory (start.vms vm).space.rootPhys i)
    (hforeign : (start.vms vm).pageFrames ⊆ foreign)
    (hleaves : ∀ w, Address lowerHalf w → PageLeaf (start.vms vm).pages w
      (leafAt (start.vms vm).space.physicalMask (start.vms vm).space.rootPhys (slot s'.memory) w)) :
    Live vm (s'.context.vms vm) s'.memory := by
  have hpages : (s'.context.vms vm).pages = (start.vms vm).pages := hedit.good.only.pages
  have hcount : (s'.context.vms vm).pageCount = (start.vms vm).pageCount :=
    hedit.good.only.pageCount
  have hl := hlive.pageLedger
  have hnew : Live vm { s'.context.vms vm with
      pages := (start.vms vm).pages, pageCount := (start.vms vm).pageCount } s'.memory :=
    hlive.edited hedit hroot ⟨hl.count, hl.distinct_phys, hl.distinct_virt⟩ hlive.page
      (fun i hi hused => hforeign ⟨i, hi, hused, rfl⟩) hleaves
  rw [← hpages, ← hcount] at hnew
  exact hnew

/-- What the editor leaves alone, for the rest of the system. -/
theorem framed_of_editing (hedit : Editing map vm start foreign s')
    (huntouched : Untouched (start.vms vm).space.physicalMask (start.vms vm).space.rootPhys
      lowerHalf (foreign ∪ reservedPages start.pmm) memory s'.memory)
    (hpmm : PmmInv map start.pmm)
    (halloc : allocatedPages start.pmm = foreign ∪ (start.vms vm).tableFrames)
    (htree : (start.vms vm).tableFrames =
      treeFrames (start.vms vm).space.physicalMask (start.vms vm).space.rootPhys lowerHalf
        (slot memory))
    (hsub : elsewhere ⊆ foreign) (hapart : Disjoint foreign (start.vms vm).tableFrames) :
    Framed vm elsewhere ⟨start, memory⟩ s' where
  kernel := hedit.good.only.kernel
  cr3 := hedit.good.only.cr3
  cr4 := hedit.good.only.cr4
  vms := hedit.good.only.vms
  bytes := by
    intro x hx
    refine huntouched.bytes x (Or.inl (hsub hx)) ?_
    rw [← htree]
    exact Set.disjoint_left.1 hapart (hsub hx)
  reserved := hedit.good.reserved
  withdrawn := by
    intro x hx
    refine huntouched.bytes x (Or.inr hx) fun htable => ?_
    refine reserved_not_allocated hpmm.init hx ?_
    rw [halloc, htree]
    exact Or.inr htable

end Editing

theorem Framed.trans {s1 s2 s3 : Machine} (h : Framed vm elsewhere s1 s2)
    (h' : Framed vm elsewhere s2 s3) : Framed vm elsewhere s1 s3 where
  kernel := h'.kernel.trans h.kernel
  cr3 := h'.cr3.trans h.cr3
  cr4 := h'.cr4.trans h.cr4
  vms := fun w hw => (h'.vms w hw).trans (h.vms w hw)
  bytes := fun x hx => (h'.bytes x hx).trans (h.bytes x hx)
  reserved := h'.reserved.trans h.reserved
  withdrawn := fun x hx => (h'.withdrawn x (h.reserved ▸ hx)).trans (h.withdrawn x hx)

/-- Changes of the memory manager, of the object itself and of other bytes are framed. -/
theorem framed_bytes (v : UserVm)
    (hreserved : reservedPages pmm = reservedPages s.context.pmm)
    (hbytes : ∀ x, frameOf x ∈ elsewhere ∪ reservedPages s.context.pmm → memory x = s.memory x) :
    Framed vm elsewhere s ⟨{ s.context with pmm }.setVm vm v, memory⟩ :=
  ⟨rfl, rfl, rfl, fun _ hw => setVm_vms_of_ne hw, fun x hx => hbytes x (Or.inl hx), hreserved,
    fun x hx => hbytes x (Or.inr hx)⟩

theorem framed_write (v : UserVm)
    (hreserved : reservedPages pmm = reservedPages s.context.pmm) :
    Framed vm elsewhere s ⟨{ s.context with pmm }.setVm vm v, s.memory⟩ :=
  framed_bytes v hreserved fun _ _ => rfl

theorem framed_pmm
    (hreserved : reservedPages pmm = reservedPages s.context.pmm) :
    Framed vm elsewhere s ⟨{ s.context with pmm }, s.memory⟩ :=
  ⟨rfl, rfl, rfl, fun _ _ => rfl, fun _ _ => rfl, hreserved, fun _ _ => rfl⟩

/-- The root of the space is where it was, with the same entries in its upper half. -/
structure RootKept (vm : Nat) (s s' : Machine) : Prop where
  space : (s'.context.vms vm).space = (s.context.vms vm).space
  upper : ∀ i, 256 ≤ i → slot s'.memory (s.context.vms vm).space.rootPhys i =
    slot s.memory (s.context.vms vm).space.rootPhys i

theorem RootKept.refl (vm : Nat) (s : Machine) : RootKept vm s s := ⟨rfl, fun _ _ => rfl⟩

theorem RootKept.trans {s1 s2 s3 : Machine} (h : RootKept vm s1 s2) (h' : RootKept vm s2 s3) :
    RootKept vm s1 s3 := by
  refine ⟨h'.space.trans h.space, fun i hi => ?_⟩
  rw [← h.upper i hi, ← h.space]
  exact h'.upper i hi

theorem RootKept.of_bytes
    (hspace : (s'.context.vms vm).space = (s.context.vms vm).space)
    (hbytes : ∀ x, frameOf x = (s.context.vms vm).space.rootPhys → s'.memory x = s.memory x) :
    RootKept vm s s' :=
  ⟨hspace, fun i _ => slot_congr hbytes i⟩

/-- What the operations on the pages of a space guarantee. -/
structure Kept (map : MemoryMap) (vm : Nat) (elsewhere : Set Nat) (s s' : Machine) : Prop where
  holds : Holds map vm elsewhere s'
  framed : Framed vm elsewhere s s'
  initialized : (s'.context.vms vm).initialized = (s.context.vms vm).initialized
  root : RootKept vm s s'

theorem Kept.refl (h : Holds map vm elsewhere s) : Kept map vm elsewhere s s :=
  ⟨h, Framed.refl _ _ _, rfl, RootKept.refl _ _⟩

/-- The frames of the pages and of everyone else, together, are not tables. -/
theorem Holds.foreign (h : Holds map vm elsewhere s)
    (hlive : Live vm (s.context.vms vm) s.memory) :
    Disjoint (elsewhere ∪ (s.context.vms vm).pageFrames) (s.context.vms vm).tableFrames ∧
      allocatedPages s.context.pmm =
        elsewhere ∪ (s.context.vms vm).pageFrames ∪ (s.context.vms vm).tableFrames := by
  constructor
  · rw [Set.disjoint_union_left]
    exact ⟨h.apart.mono_right Set.subset_union_left, hlive.apart.symm⟩
  · rw [h.allocated, UserVm.owned, Set.union_comm (s.context.vms vm).tableFrames, Set.union_assoc]

/-- The leaf of one page is `leaf`; the other leaves and the bytes of the pages are what
they were. -/
structure PageSet (vm virt leaf : Nat) (s s' : Machine) : Prop where
  space : (s'.context.vms vm).space = (s.context.vms vm).space
  leaves : LeafSet (s.context.vms vm).space.physicalMask (s.context.vms vm).space.rootPhys lowerHalf
    s.memory s'.memory virt leaf
  bytes : ∀ x, frameOf x ∈ (s.context.vms vm).pageFrames → s'.memory x = s.memory x

/-- All leaves of the object are what they were. -/
def PagesKept (vm : Nat) (s s' : Machine) : Prop :=
  LeavesKept (s.context.vms vm).space.physicalMask (s.context.vms vm).space.rootPhys lowerHalf
    s.memory s'.memory

/-- The page that a successful `user_vm_alloc_page` has added: all its bytes are 0. -/
structure PageAdded (vm virt phys : Nat) (access : UInt32) (s s' : Machine) : Prop where
  frame : Frame (s.context.vms vm).space.physicalMask phys
  set : PageSet vm virt (phys ||| accessFlags access) s s'
  zero : ∀ x, frameOf x = phys → s'.memory x = 0

/-! ## Allocating a page -/

/-- A new page takes a hole of the ledger. -/
theorem PageLedger.take {v' : UserVm} (hl : PageLedger v) {slot : Nat} {e : UserVmPage}
    (hslot : slot < userVmPageLimit) (hfree : (v.pages slot).allocated = false)
    (he : e.allocated = true) (hphys : e.phys ∉ v.pageFrames)
    (hvirt : ∀ i, i < userVmPageLimit → (v.pages i).allocated = true → (v.pages i).virt ≠ e.virt)
    (hpages : v'.pages = Function.update v.pages slot e) (hcount : v'.pageCount = v.pageCount + 1) :
    PageLedger v' := by
  refine ⟨?_, ?_, ?_⟩
  · rw [hpages, hcount, hl.count]
    exact (card_take hslot hfree he).symm
  · rw [hpages]
    exact hl.distinct_phys.take hphys
  · rw [hpages]
    refine hl.distinct_virt.take ?_
    rintro ⟨i, hi, hused, hkey⟩
    exact hvirt i hi hused hkey

/-- The state in which `user_vm_alloc_page` has its frame: the frame is allocated and belongs to
nobody yet. -/
structure FrameTaken (map : MemoryMap) (vm : Nat) (elsewhere : Set Nat) (phys : Nat) (s : Machine) :
    Prop where
  pmm : PmmInv map s.context.pmm
  live : Live vm (s.context.vms vm) s.memory
  apart : Disjoint elsewhere (s.context.vms vm).owned
  not_elsewhere : phys ∉ elsewhere
  not_owned : phys ∉ (s.context.vms vm).owned
  allocated : allocatedPages s.context.pmm = insert phys (elsewhere ∪ (s.context.vms vm).owned)

/-- Returning the frame restores the space as it was. -/
theorem FrameTaken.release (h : FrameTaken map vm elsewhere phys s) :
    ∃ c, releaseFrame s.context phys = some c ∧ Kept map vm elsewhere s ⟨c, s.memory⟩ := by
  have hmem : phys ∈ allocatedPages s.context.pmm := by
    rw [h.allocated]
    exact Set.mem_insert _ _
  obtain ⟨pmm, hrel, hinv, hset⟩ := releaseFrame_spec h.pmm hmem
  refine ⟨_, hrel, ⟨hinv, Or.inr h.live, h.apart, ?_⟩,
    framed_pmm (releaseFrame_reserved h.pmm hrel), rfl, ⟨rfl, fun _ _ => rfl⟩⟩
  show allocatedPages pmm = _
  rw [hset, h.allocated, Set.insert_sdiff_of_mem _ (Set.mem_singleton phys),
    Set.sdiff_singleton_eq_self]
  rintro (h1 | h1)
  · exact h.not_elsewhere h1
  · exact h.not_owned h1

theorem FrameTaken.foreign (h : FrameTaken map vm elsewhere phys s) :
    Disjoint (insert phys (elsewhere ∪ (s.context.vms vm).pageFrames))
      (s.context.vms vm).tableFrames ∧
      allocatedPages s.context.pmm = insert phys (elsewhere ∪ (s.context.vms vm).pageFrames) ∪
        (s.context.vms vm).tableFrames := by
  constructor
  · rw [Set.disjoint_insert_left, Set.disjoint_union_left]
    exact ⟨fun hf => h.not_owned (Or.inl hf), h.apart.mono_right Set.subset_union_left,
      h.live.apart.symm⟩
  · rw [h.allocated, UserVm.owned, Set.union_comm (s.context.vms vm).tableFrames, ← Set.union_assoc,
      Set.insert_union]

/-- After a failed `vmm_space_map` the tables may have changed, and the frame is still nobody's. -/
theorem FrameTaken.of_editing {start : System}
    (h : FrameTaken map vm elsewhere phys ⟨start, memory⟩)
    (hedit : Editing map vm start (insert phys (elsewhere ∪ (start.vms vm).pageFrames)) s')
    (hlive : Live vm (s'.context.vms vm) s'.memory) : FrameTaken map vm elsewhere phys s' := by
  have hbook := hedit.good
  have hpages : (s'.context.vms vm).pageFrames = (start.vms vm).pageFrames := by
    rw [UserVm.pageFrames, UserVm.pageFrames, hbook.only.pages]
  have hapart := hbook.apart
  rw [Set.disjoint_insert_left, Set.disjoint_union_left] at hapart
  refine ⟨hbook.pmm, hlive, ?_, h.not_elsewhere, ?_, ?_⟩
  · rw [UserVm.owned, Set.disjoint_union_right, hpages]
    exact ⟨hapart.2.1, h.apart.mono_right Set.subset_union_right⟩
  · rintro (h1 | h1)
    · exact hapart.1 h1
    · rw [hpages] at h1
      exact h.not_owned (Or.inr h1)
  · rw [hbook.allocated, UserVm.owned, hpages, Set.insert_union, Set.union_assoc,
      Set.union_comm (start.vms vm).pageFrames]

/-- The leaf of a new page, and those of the others. -/
theorem PageLeaf.take {pages : Nat → UserVmPage} {slot leaf : Nat}
    (hvirt : virt % 4096 = 0) (hslot : slot < userVmPageLimit)
    (hfree : (pages slot).allocated = false) (haccess : validAccess access = true)
    (hleaf : PageLeaf pages w leaf) :
    PageLeaf (Function.update pages slot ⟨virt, phys, true⟩) w
      (if SamePage w virt then phys ||| accessFlags access else leaf) := by
  have hdown := alignDown_self hvirt
  by_cases hpage : SamePage w virt
  · rw [if_pos hpage]
    refine .page slot access hslot ?_ ?_ haccess ?_
    · rw [Function.update_self]
    · rw [Function.update_self, samePage_iff.1 hpage, hdown]
    · rw [Function.update_self]
  · rw [if_neg hpage]
    cases hleaf with
    | absent h0 hno =>
      refine .absent h0 fun i hi hused => ?_
      by_cases his : i = slot
      · rw [his, Function.update_self]
        intro h
        exact hpage (samePage_iff.2 (by rw [hdown, ← h]))
      · rw [Function.update_of_ne his] at hused ⊢
        exact hno i hi hused
    | page i a hi hused hv ha he =>
      have his : i ≠ slot := by
        rintro rfl
        rw [hfree] at hused
        cases hused
      refine .page i a hi ?_ ?_ ha ?_
      · rw [Function.update_of_ne his]
        exact hused
      · rw [Function.update_of_ne his]
        exact hv
      · rw [Function.update_of_ne his]
        exact he

theorem FrameTaken.cleared (h : FrameTaken map vm elsewhere phys s)
    (halign : phys % 4096 = 0) :
    FrameTaken map vm elsewhere phys ⟨s.context, memset s.memory phys 0 memoryPageSize⟩ ∧
      Framed vm elsewhere s ⟨s.context, memset s.memory phys 0 memoryPageSize⟩ := by
  refine ⟨{ h with live := h.live.of_bytes fun x hx => ?_ },
    ⟨rfl, rfl, rfl, fun _ _ => rfl, ?_, rfl, ?_⟩⟩
  · refine clear_page_of_ne halign fun hxp => h.not_owned ?_
    rw [← hxp]
    exact Or.inl hx
  · intro x hx
    refine clear_page_of_ne halign fun hxp => h.not_elsewhere ?_
    rw [← hxp]
    exact hx
  · intro x hx
    refine clear_page_of_ne halign fun hxp => reserved_not_allocated h.pmm.init hx ?_
    rw [hxp, h.allocated]
    exact Set.mem_insert phys _

theorem FrameTaken.cleared_leaf (h : FrameTaken map vm elsewhere phys s)
    (halign : phys % 4096 = 0) (hw : Address lowerHalf w) :
    leafAt (s.context.vms vm).space.physicalMask (s.context.vms vm).space.rootPhys
        (slot (memset s.memory phys 0 memoryPageSize)) w =
      leafAt (s.context.vms vm).space.physicalMask (s.context.vms vm).space.rootPhys
        (slot s.memory) w := by
  refine (h.live.tree_congr fun x hx => ?_).2.2 w hw.own
  refine clear_page_of_ne halign fun hxp => h.not_owned ?_
  rw [← hxp]
  exact Or.inl hx

/-- Entering the new page in the ledger after a successful `vmm_space_map`. -/
theorem FrameTaken.enter {slot : Nat} {start : System}
    (h : FrameTaken map vm elsewhere phys ⟨start, memory⟩)
    (hedit : Editing map vm start (insert phys (elsewhere ∪ (start.vms vm).pageFrames)) s')
    (hroot : ∀ i, ¬ lowerHalf i → Vmm.slot s'.memory (start.vms vm).space.rootPhys i =
      Vmm.slot memory (start.vms vm).space.rootPhys i)
    (hset : LeafSet (start.vms vm).space.physicalMask (start.vms vm).space.rootPhys lowerHalf memory
      s'.memory virt (phys ||| accessFlags access))
    (hslot : slot < userVmPageLimit) (hfree : ((start.vms vm).pages slot).allocated = false)
    (hsound : PageSound (start.vms vm).space.physicalMask ⟨virt, phys, true⟩)
    (haccess : validAccess access = true)
    (habsent : ∀ i, i < userVmPageLimit → ((start.vms vm).pages i).allocated = true →
      ((start.vms vm).pages i).virt ≠ virt) :
    Holds map vm elsewhere ⟨s'.context.setVm vm { s'.context.vms vm with
      pages := Function.update (s'.context.vms vm).pages slot ⟨virt, phys, true⟩
      pageCount := (s'.context.vms vm).pageCount + 1 }, s'.memory⟩ := by
  have hlive := h.live
  have hbook := hedit.good
  have hcount : (s'.context.vms vm).pageCount = (start.vms vm).pageCount := hbook.only.pageCount
  obtain ⟨pages, hpages⟩ : ∃ pages, pages =
    Function.update (start.vms vm).pages slot ⟨virt, phys, true⟩ := ⟨_, rfl⟩
  have hcase : ∀ i, i < userVmPageLimit → (pages i).allocated = true →
      pages i = ⟨virt, phys, true⟩ ∨
        (((start.vms vm).pages i).allocated = true ∧ pages i = (start.vms vm).pages i) := by
    intro i hi hused
    by_cases his : i = slot
    · left
      rw [hpages, his, Function.update_self]
    · right
      rw [hpages, Function.update_of_ne his] at hused ⊢
      exact ⟨hused, rfl⟩
  have hlive' : Live vm { s'.context.vms vm with
      pages, pageCount := (s'.context.vms vm).pageCount + 1 } s'.memory := by
    refine hlive.edited hedit hroot ?_ ?_ ?_ ?_
    · refine hlive.pageLedger.take hslot hfree (e := ⟨virt, phys, true⟩) rfl
        (fun hf => h.not_owned (Or.inr hf)) habsent hpages ?_
      rw [hcount]
    · intro i hi hused
      rcases hcase i hi hused with he | ⟨hold, he⟩
      · rw [he]
        exact hsound
      · rw [he]
        exact hlive.page i hi hold
    · intro i hi hused
      rcases hcase i hi hused with he | ⟨hold, he⟩
      · rw [he]
        exact Set.mem_insert _ _
      · rw [he]
        exact Or.inr (Or.inr ⟨i, hi, hold, rfl⟩)
    · intro w hw
      rw [hset w hw, hpages]
      exact (hlive.leaves w hw).take hsound.align hslot hfree haccess
  have hframes : UserVm.pageFrames { s'.context.vms vm with
      pages, pageCount := (s'.context.vms vm).pageCount + 1 } =
        insert phys (start.vms vm).pageFrames := by
    rw [UserVm.pageFrames, hpages]
    exact keys_take hslot hfree rfl
  have hapart := hbook.apart
  rw [Set.disjoint_insert_left, Set.disjoint_union_left] at hapart
  rw [hbook.only.pages, ← hpages]
  refine ⟨hbook.pmm, Or.inr ?_, ?_, ?_⟩
  · rw [setVm_vms_self]
    exact hlive'
  · rw [setVm_vms_self, UserVm.owned, hframes, Set.disjoint_union_right, Set.disjoint_insert_right]
    exact ⟨hapart.2.1, h.not_elsewhere, h.apart.mono_right Set.subset_union_right⟩
  · rw [setVm_vms_self, UserVm.owned, hframes]
    show allocatedPages s'.context.pmm = _
    rw [hbook.allocated, Set.union_insert, Set.union_insert, Set.insert_union, Set.union_assoc,
      Set.union_comm (start.vms vm).pageFrames]
    rfl

theorem mapNewPage_spec {slot : Nat}
    (h : FrameTaken map vm elsewhere phys s) (hslot : slot < userVmPageLimit)
    (hfree : ((s.context.vms vm).pages slot).allocated = false) (hvirt : validAddress virt = true)
    (halign : virt % 4096 = 0) (haccess : validAccess access = true)
    (habsent : ∀ i, i < userVmPageLimit → ((s.context.vms vm).pages i).allocated = true →
      ((s.context.vms vm).pages i).virt ≠ virt) :
    ∃ s' ok, mapNewPage s vm slot virt phys access = some (s', ok) ∧ Kept map vm elsewhere s s' ∧
      (ok = true → PageAdded vm virt phys access s s') ∧ (ok = false → PagesKept vm s s') := by
  have hv := address_of_valid hvirt
  have hflags := (accessFlags_user haccess).ok
  have hflags64 : accessFlags access < 2 ^ 64 := hflags.within.le.trans_lt (by decide)
  have hmem : phys ∈ allocatedPages s.context.pmm := by
    rw [h.allocated]
    exact Set.mem_insert _ _
  obtain ⟨hpalign, hplt, -⟩ := h.pmm.page_usable hmem
  rw [mapNewPage]
  cases htrans : memoryPhysToVirt s.context.kernel phys memoryPageSize with
  | none =>
    obtain ⟨c, hrel, hkept⟩ := h.release
    refine ⟨_, false, ?_, hkept, nofun, fun _ _ _ => rfl⟩
    simp only [hrel, Option.bind_eq_bind, Option.bind_some, Option.pure_def]
  | some pointer =>
    obtain rfl := memoryPhysToVirt_eq htrans
    obtain ⟨htaken, hframed0⟩ := h.cleared hpalign
    have hlive := htaken.live
    obtain ⟨hfapart, hfalloc⟩ := htaken.foreign
    obtain ⟨s', ok, hmap, hedit, huntouched, hout⟩ :=
      vmmSpaceMap_spec (hlive.contract map _ _) hlive.space_on
        (hlive.editing htaken.pmm hfapart hfalloc) hv.lt hplt hflags64 fun _ => hv.own
    have hframed1 : Framed vm elsewhere _ s' :=
      framed_of_editing hedit huntouched htaken.pmm hfalloc
        (hlive.tableFrames_eq.trans hlive.tables_eq) (fun f hf => Or.inr (Or.inl hf)) hfapart
    have hframed := hframed0.trans hframed1
    have hkeep : ∀ x, frameOf x ∈ insert phys (elsewhere ∪ (s.context.vms vm).pageFrames) →
        s'.memory x = memset s.memory phys 0 memoryPageSize x := by
      intro x hx
      refine huntouched.bytes x (Or.inl hx) fun htree => Set.disjoint_left.1 hfapart hx ?_
      rw [hlive.tableFrames_eq, hlive.tables_eq]
      exact htree
    -- The root is not the new frame, and the editor leaves its upper half alone.
    have hroot : ∀ i, 256 ≤ i → Vmm.slot s'.memory (s.context.vms vm).space.rootPhys i =
        Vmm.slot s.memory (s.context.vms vm).space.rootPhys i := by
      intro i hi
      refine (huntouched.foreign i (Nat.not_lt.2 hi)).trans ?_
      refine slot_congr (fun x hx => clear_page_of_ne hpalign fun hxp => h.not_owned ?_) i
      rw [← hxp, hx]
      exact Or.inl hlive.root_mem
    simp only [hmap, Option.bind_eq_bind, Option.bind_some, Option.pure_def]
    cases hout with
    | failed _ hkept _ =>
      have hlive' := hlive.edited_kept hedit huntouched.foreign
        (fun f hf => Or.inr (Or.inr hf)) fun w hw => by
          rw [hkept w hw]
          exact hlive.leaves w hw
      obtain ⟨c, hrel, hrelease⟩ := (htaken.of_editing hedit hlive').release
      refine ⟨_, false, ?_, ⟨hrelease.holds, hframed.trans hrelease.framed,
        hrelease.initialized.trans hedit.good.only.initialized,
        RootKept.trans ⟨hedit.good.only.space, hroot⟩ hrelease.root⟩, nofun, fun _ w hw => ?_⟩
      · simp [hrel]
      · exact (hkept w hw).trans (h.cleared_leaf hpalign hw)
    | mapped hrequest _ hset =>
      have hholds := htaken.enter hedit huntouched.foreign hset hslot hfree
        ⟨halign, hvirt, hrequest.frame⟩ haccess habsent
      refine ⟨_, true, by simp, ⟨hholds, hframed.trans (framed_write _ rfl), ?_, ⟨?_, hroot⟩⟩,
        fun _ => ⟨hrequest.frame, ⟨?_, ?_, ?_⟩, ?_⟩, nofun⟩
      · rw [setVm_vms_self]
        exact hedit.good.only.initialized
      · rw [setVm_vms_self]
        exact hedit.good.only.space
      · rw [setVm_vms_self]
        exact hedit.good.only.space
      · intro w hw
        rw [hset w hw, h.cleared_leaf hpalign hw]
      · intro x hx
        show s'.memory x = s.memory x
        rw [hkeep x (Or.inr (Or.inr hx)), clear_page_of_ne hpalign fun hxp => ?_]
        rw [hxp] at hx
        exact h.not_owned (Or.inr hx)
      · intro x hx
        show s'.memory x = 0
        rw [hkeep x (Or.inl hx), memset_of_inside]
        · rw [← hx, frameOf]
          omega
        · have hsize : memoryPageSize = 4096 := rfl
          rw [← hx, frameOf, hsize]
          omega

theorem userVmAllocPage_spec (h : Holds map vm elsewhere s) (virt : Nat) (access : UInt32) :
    ∃ s' ok, userVmAllocPage s vm virt access = some (s', ok) ∧ Kept map vm elsewhere s s' ∧
      (ok = true → validAccess access = true ∧ ∃ phys, PageAdded vm virt phys access s s') ∧
      (ok = false → PagesKept vm s s') := by
  have hfail : ∃ s' ok, some (s, false) = some (s', ok) ∧ Kept map vm elsewhere s s' ∧
      (ok = true → validAccess access = true ∧ ∃ phys, PageAdded vm virt phys access s s') ∧
      (ok = false → PagesKept vm s s') :=
    ⟨s, false, rfl, Kept.refl h, nofun, fun _ _ _ => rfl⟩
  rw [userVmAllocPage]
  simp only
  split
  · exact hfail
  rename_i hargs
  simp only [not_or, not_not] at hargs
  cases hquery : queryLocked s vm virt with
  | none => exact hfail
  | some mapping =>
    obtain ⟨hlive, hvirt⟩ := h.live_of_query hquery
    have hout := queryLocked_spec h hlive hvirt
    rw [hquery] at hout
    cases hout with
    | page => exact hfail
    | absent _ hno =>
      simp only [Bool.false_eq_true, if_false]
      split
      · exact hfail
      rename_i hslot
      rcases firstIndex_cases 0 userVmPageLimit
          fun i => !((s.context.vms vm).pages i).allocated with
        ⟨heq, -⟩ | ⟨slot, heq, -, hlt, hfree⟩
      · exact absurd heq hslot
      rw [Bool.not_eq_true'] at hfree
      obtain ⟨pmm, result, halloc, hinv, -, hres⟩ := pmmAllocPage_spec h.pmm
      have hreserved := pmmAllocPage_reserved h.pmm
      rw [halloc] at hreserved
      rw [halloc, heq]
      rcases hres with ⟨rfl, rfl⟩ | ⟨phys, rfl, hnew, hset⟩
      · exact hfail
      · have halign := memoryIsPageAligned_iff.1 hargs.2.1
        rw [alignDown_self halign] at hno
        rw [h.allocated] at hnew hset
        have htaken : FrameTaken map vm elsewhere phys ⟨{ s.context with pmm }, s.memory⟩ :=
          ⟨hinv, hlive, h.apart, fun hf => hnew (Or.inl hf), fun hf => hnew (Or.inr hf), hset⟩
        obtain ⟨s', ok, hcall, hkept, hadded, hsame⟩ :=
          mapNewPage_spec htaken hlt hfree hvirt halign hargs.2.2.1 hno
        refine ⟨s', ok, hcall,
          ⟨hkept.holds, (framed_pmm hreserved).trans hkept.framed, hkept.initialized,
            ⟨hkept.root.space, hkept.root.upper⟩⟩, fun hok => ?_, hsame⟩
        obtain ⟨hframe, ⟨hspace, hleaves, hbytes⟩, hzero⟩ := hadded hok
        exact ⟨hargs.2.2.1, phys, hframe, ⟨hspace, hleaves, hbytes⟩, hzero⟩

/-! ## Changing a page -/

/-- The leaves after a page was dropped. -/
theorem PageLeaf.drop (hl : PageLedger v) {i leaf : Nat}
    (hi : i < userVmPageLimit) (hused : (v.pages i).allocated = true)
    (hvirt : (v.pages i).virt = memoryAlignDown virt) (hleaf : PageLeaf v.pages w leaf) :
    PageLeaf (Function.update v.pages i .zero) w (if SamePage w virt then 0 else leaf) := by
  -- An entry that is still there is not the one of the page.
  have hrest : ∀ j, (Function.update v.pages i .zero j).allocated = true →
      j ≠ i ∧ (v.pages j).allocated = true := by
    intro j hj
    by_cases hji : j = i
    · rw [hji, Function.update_self] at hj
      cases hj
    · rw [Function.update_of_ne hji] at hj
      exact ⟨hji, hj⟩
  by_cases hpage : SamePage w virt
  · rw [if_pos hpage]
    refine .absent rfl fun j hj hjused => ?_
    obtain ⟨hji, hold⟩ := hrest j hjused
    rw [Function.update_of_ne hji, samePage_iff.1 hpage, ← hvirt]
    exact fun heq => hji (hl.distinct_virt j i hj hi hold hused heq)
  · rw [if_neg hpage]
    cases hleaf with
    | absent h0 hno =>
      refine .absent h0 fun j hj hjused => ?_
      obtain ⟨hji, hold⟩ := hrest j hjused
      rw [Function.update_of_ne hji]
      exact hno j hj hold
    | page j a hj hjused hv ha he =>
      have hji : j ≠ i := by
        rintro rfl
        exact hpage (samePage_iff.2 (hv.symm.trans hvirt))
      refine .page j a hj ?_ ?_ ha ?_
      · rw [Function.update_of_ne hji]
        exact hjused
      · rw [Function.update_of_ne hji]
        exact hv
      · rw [Function.update_of_ne hji]
        exact he

/-- Dropping a page whose leaf was cleared, and returning its frame. -/
theorem Holds.drop_page {i : Nat} (h : Holds map vm elsewhere s)
    (hlive : Live vm (s.context.vms vm) s.memory) (hcontext : s'.context = s.context)
    (hedit : Editing map vm s.context (elsewhere ∪ (s.context.vms vm).pageFrames) s')
    (hroot : ∀ i, ¬ lowerHalf i → Vmm.slot s'.memory (s.context.vms vm).space.rootPhys i =
      Vmm.slot s.memory (s.context.vms vm).space.rootPhys i)
    (hset : LeafSet (s.context.vms vm).space.physicalMask (s.context.vms vm).space.rootPhys
      lowerHalf s.memory s'.memory virt 0)
    (hi : i < userVmPageLimit) (hused : ((s.context.vms vm).pages i).allocated = true)
    (hvirt : ((s.context.vms vm).pages i).virt = memoryAlignDown virt) :
    ∃ pmm, releaseFrame s.context ((s.context.vms vm).pages i).phys = some { s.context with pmm } ∧
      Holds map vm elsewhere ⟨{ s.context with pmm }.setVm vm { s.context.vms vm with
        pages := Function.update (s.context.vms vm).pages i .zero
        pageCount := (s.context.vms vm).pageCount - 1 }, s'.memory⟩ := by
  obtain ⟨v, hv⟩ : ∃ v, v = s.context.vms vm := ⟨_, rfl⟩
  rw [← hv] at hlive hroot hset hused hvirt ⊢
  have hl := hlive.pageLedger
  have hmem : (v.pages i).phys ∈ v.pageFrames := ⟨i, hi, hused, rfl⟩
  have hfree : (v.pages i).phys ∈ allocatedPages s.context.pmm := by
    rw [h.allocated, ← hv]
    exact Or.inr (Or.inr hmem)
  obtain ⟨pmm, hrel, hinv, hpages⟩ := releaseFrame_spec h.pmm hfree
  have hsub : ∀ j, (Function.update v.pages i .zero j).allocated = true →
      (v.pages j).allocated = true ∧ Function.update v.pages i .zero j = v.pages j := by
    intro j hj
    by_cases hji : j = i
    · rw [hji, Function.update_self] at hj
      cases hj
    · rw [Function.update_of_ne hji] at hj ⊢
      exact ⟨hj, rfl⟩
  have hlive' : Live vm { v with
      pages := Function.update v.pages i .zero, pageCount := v.pageCount - 1 } s'.memory := by
    have hstart : Live vm (s.context.vms vm) s.memory := hv ▸ hlive
    have hv' : s'.context.vms vm = v := by rw [hcontext, hv]
    rw [← hv']
    rw [hv] at hl hset hsub hroot
    refine hstart.edited hedit hroot ⟨?_, ?_, ?_⟩ ?_ ?_ ?_
    · show (s'.context.vms vm).pageCount - 1 = _
      rw [hcontext, hl.count, ← card_drop hi (hv ▸ hused) (e := .zero) rfl]
      exact Nat.add_sub_cancel _ 1
    · rw [hcontext]
      exact hl.distinct_phys.drop rfl
    · rw [hcontext]
      exact hl.distinct_virt.drop rfl
    · intro j hj hjused
      rw [hcontext] at hjused ⊢
      obtain ⟨hold, heq⟩ := hsub j hjused
      rw [heq]
      exact hstart.page j hj hold
    · intro j hj hjused
      rw [hcontext] at hjused ⊢
      obtain ⟨hold, heq⟩ := hsub j hjused
      rw [heq]
      exact Or.inr ⟨j, hj, hold, rfl⟩
    · intro w hw
      rw [hcontext, hset w hw]
      exact (hstart.leaves w hw).drop hl hi (hv ▸ hused) (hv ▸ hvirt)
  have hframes : UserVm.owned { v with
      pages := Function.update v.pages i .zero, pageCount := v.pageCount - 1 } =
        v.owned \ {(v.pages i).phys} := by
    have hnot : (v.pages i).phys ∉ v.tableFrames := Set.disjoint_right.1 hlive.apart hmem
    have hkeys : UserVm.pageFrames { v with
        pages := Function.update v.pages i .zero, pageCount := v.pageCount - 1 } =
          v.pageFrames \ {(v.pages i).phys} := keys_drop hi hused rfl hl.distinct_phys
    rw [UserVm.owned, UserVm.owned, hkeys, Set.union_sdiff_distrib,
      Set.sdiff_singleton_eq_self hnot]
    rfl
  have hapart := h.apart
  have hallocated := h.allocated
  rw [← hv] at hapart hallocated
  refine ⟨pmm, hrel, hinv, Or.inr ?_, ?_, ?_⟩
  · rw [setVm_vms_self]
    exact hlive'
  · rw [setVm_vms_self, hframes]
    exact hapart.mono_right Set.sdiff_subset
  · rw [setVm_vms_self, hframes]
    show allocatedPages pmm = _
    have hnot : (v.pages i).phys ∉ elsewhere :=
      fun hf => Set.disjoint_left.1 hapart hf (Or.inr hmem)
    rw [hpages, hallocated, Set.union_sdiff_distrib, Set.sdiff_singleton_eq_self hnot]

theorem userVmUnmapPage_spec (h : Holds map vm elsewhere s) (virt : Nat) :
    ∃ s' ok, userVmUnmapPage s vm virt = some (s', ok) ∧ Kept map vm elsewhere s s' ∧
      (ok = true → LeafSet (s.context.vms vm).space.physicalMask (s.context.vms vm).space.rootPhys
        lowerHalf s.memory s'.memory virt 0) ∧ (ok = false → s' = s) := by
  have hfail : ∃ s' ok, some (s, false) = some (s', ok) ∧ Kept map vm elsewhere s s' ∧
      (ok = true → LeafSet (s.context.vms vm).space.physicalMask (s.context.vms vm).space.rootPhys
        lowerHalf s.memory s'.memory virt 0) ∧ (ok = false → s' = s) :=
    ⟨s, false, rfl, Kept.refl h, by rintro ⟨⟩, fun _ => rfl⟩
  rw [userVmUnmapPage]
  split
  · exact hfail
  cases hquery : queryLocked s vm virt with
  | none => exact hfail
  | some mapping =>
    obtain ⟨hlive, hvirt⟩ := h.live_of_query hquery
    have hv := address_of_valid hvirt
    have hout := queryLocked_spec h hlive hvirt
    rw [hquery] at hout
    cases hout with
    | absent => exact hfail
    | page i access hi hused hpage haccess hleaf =>
      obtain ⟨hfapart, hfalloc⟩ := h.foreign hlive
      obtain ⟨s', ok, hunmap, hedit, huntouched, hres⟩ :=
        vmmSpaceUnmap_spec (hlive.contract map _ _) hlive.space_on
          (hlive.editing h.pmm hfapart hfalloc) hv.lt fun _ => hv.own
      have hframed : Framed vm elsewhere s s' :=
        framed_of_editing hedit huntouched h.pmm hfalloc
          (hlive.tableFrames_eq.trans hlive.tables_eq) Set.subset_union_left hfapart
      simp only [not_true_eq_false, if_false]
      rw [hunmap]
      cases hres with
      | failed _ => exact hfail
      | unmapped _ hset hcontext =>
        have hc : s'.context = s.context := by
          rw [hcontext, UserSpace.toVmmSpace]
          exact invalidate_eq virt
        obtain ⟨pmm, hrel, hholds⟩ :=
          h.drop_page hlive hc hedit huntouched.foreign hset hi hused hpage
        have hslot := pageSlot_eq hlive.pageLedger hi hused hpage
        refine ⟨_, true, ?_, ⟨hholds, ?_, ?_, ?_,
          fun i hi => huntouched.foreign i (Nat.not_lt.2 hi)⟩, fun _ => hset, by rintro ⟨⟩⟩
        · simp only [hc, hslot, hrel, Option.bind_eq_bind, Option.bind_some, Option.pure_def]
        · refine framed_bytes _ (releaseFrame_reserved h.pmm hrel) ?_
          rintro x (hx | hx)
          · exact hframed.bytes x hx
          · exact hframed.withdrawn x hx
        · rw [setVm_vms_self]
        · rw [setVm_vms_self]

/-- The entry of the page whose access a successful `user_vm_protect_page` has changed. -/
structure PageProtected (vm virt i : Nat) (access : UInt32) (s s' : Machine) : Prop where
  limit : i < userVmPageLimit
  allocated : ((s.context.vms vm).pages i).allocated = true
  virt_eq : ((s.context.vms vm).pages i).virt = memoryAlignDown virt
  valid : validAccess access = true
  set : PageSet vm virt (((s.context.vms vm).pages i).phys ||| accessFlags access) s s'

theorem userVmProtectPage_spec (h : Holds map vm elsewhere s) (virt : Nat) (access : UInt32) :
    ∃ s' ok, userVmProtectPage s vm virt access = (s', ok) ∧ Kept map vm elsewhere s s' ∧
      (ok = true → ∃ i, PageProtected vm virt i access s s') ∧ (ok = false → s' = s) := by
  have hfail : ∃ s' ok, (s, false) = (s', ok) ∧ Kept map vm elsewhere s s' ∧
      (ok = true → ∃ i, PageProtected vm virt i access s s') ∧ (ok = false → s' = s) :=
    ⟨s, false, rfl, Kept.refl h, by rintro ⟨⟩, fun _ => rfl⟩
  rw [userVmProtectPage]
  split
  · exact hfail
  rename_i hargs
  simp only [not_or, not_not] at hargs
  cases hquery : queryLocked s vm virt with
  | none => exact hfail
  | some mapping =>
    obtain ⟨hlive, hvirt⟩ := h.live_of_query hquery
    have hv := address_of_valid hvirt
    have hout := queryLocked_spec h hlive hvirt
    rw [hquery] at hout
    cases hout with
    | absent => exact hfail
    | page i old hi hused hpage hold hleaf =>
      have hflags := (accessFlags_user hargs.2).ok
      have hflags64 : accessFlags access < 2 ^ 64 := hflags.within.le.trans_lt (by decide)
      obtain ⟨hfapart, hfalloc⟩ := h.foreign hlive
      obtain ⟨s', ok, hprotect, hedit, huntouched, hres⟩ :=
        vmmSpaceProtect_spec (hlive.contract map _ _) hlive.space_on
          (hlive.editing h.pmm hfapart hfalloc) hv.lt hflags64 fun _ => hv.own
      have hframed : Framed vm elsewhere s s' :=
        framed_of_editing hedit huntouched h.pmm hfalloc
          (hlive.tableFrames_eq.trans hlive.tables_eq) Set.subset_union_left hfapart
      simp only [not_true_eq_false, if_false]
      rw [hprotect]
      cases hres with
      | failed _ => exact hfail
      | @replaced _ phys flags _ _ hleaf' hframe hfl hset hcontext =>
        have hc : s'.context = s.context := by
          rw [hcontext, UserSpace.toVmmSpace]
          exact invalidate_eq virt
        -- The frame in the leaf is the one in the ledger.
        have hmask := hlive.tree.mask_within
        obtain rfl : phys = ((s.context.vms vm).pages i).phys := by
          rw [← packed_mask hmask hframe hfl, ← hleaf', hleaf,
            packed_mask hmask (hlive.page i hi hused).frame (accessFlags_user hold).ok]
        have hlive' := hlive.edited_kept hedit huntouched.foreign Set.subset_union_right
          fun w hw => by
            rw [hset w hw]
            by_cases hwv : SamePage w virt
            · rw [if_pos hwv]
              exact .page i access hi hused (hpage.trans (samePage_iff.1 hwv).symm) hargs.2 rfl
            · rw [if_neg hwv]
              exact hlive.leaves w hw
        refine ⟨s', true, rfl, ⟨⟨?_, Or.inr hlive', ?_, ?_⟩, hframed, ?_, ?_,
            fun i hi => huntouched.foreign i (Nat.not_lt.2 hi)⟩,
          fun _ => ⟨i, hi, hused, hpage, hargs.2, ?_, hset, ?_⟩, by rintro ⟨⟩⟩
        · rw [hc]
          exact h.pmm
        · rw [hc]
          exact h.apart
        · rw [hc]
          exact h.allocated
        · rw [hc]
        · rw [hc]
        · rw [hc]
        · intro x hx
          refine huntouched.bytes x (Or.inl (Or.inr hx)) fun htree => ?_
          refine Set.disjoint_left.1 hlive.apart ?_ hx
          rw [hlive.tableFrames_eq, hlive.tables_eq]
          exact htree

/-! ## Copying -/

/-- The chunks of a copy: each of them lies in one page of the space, and for a write the page is
writable. -/
inductive Chunks (v : UserVm) (memory : ByteMemory) (write : Bool) :
    Nat → Nat → List CopyChunk → Prop
  | nil (virt : Nat) : Chunks v memory write virt 0 []
  | cons {virt size remaining i : Nat} {access : UInt32} {rest : List CopyChunk} :
      validAddress virt = true → i < userVmPageLimit → (v.pages i).allocated = true →
      (v.pages i).virt = memoryAlignDown virt → validAccess access = true →
      leafAt v.space.physicalMask v.space.rootPhys (slot memory) virt =
        (v.pages i).phys ||| accessFlags access →
      (write = true → hasFlag (accessFlags access) vmmWritable = true) →
      0 < size → size ≤ 4096 - virt % 4096 →
      Chunks v memory write (virt + size) remaining rest →
      Chunks v memory write virt (size + remaining) (⟨(v.pages i).phys + virt % 4096, size⟩ :: rest)

theorem copyPreflightLoop_spec (h : Holds map vm elsewhere s) {write : Bool} {room remaining : Nat}
    (hrun : copyPreflightLoop s vm write room virt remaining = some chunks) :
    Chunks (s.context.vms vm) s.memory write virt remaining chunks := by
  induction room generalizing virt remaining chunks with
  | zero =>
    rw [copyPreflightLoop] at hrun
    split at hrun
    · cases hrun
    · rename_i hzero
      cases hrun
      rw [not_not.1 hzero]
      exact .nil virt
  | succ room ih =>
    rw [copyPreflightLoop] at hrun
    split at hrun
    · rename_i hne
      cases hquery : queryLocked s vm virt with
      | none =>
        rw [hquery] at hrun
        cases hrun
      | some mapping =>
        obtain ⟨hlive, hvirt⟩ := h.live_of_query hquery
        have hout := queryLocked_spec h hlive hvirt
        rw [hquery] at hout hrun
        simp only [Option.bind_eq_bind, Option.bind_some, Option.pure_def] at hrun
        split at hrun
        · cases hrun
        rename_i hmapped
        generalize hchunk : (if remaining < memoryPageSize - (virt &&& (memoryPageSize - 1)) then
          remaining else memoryPageSize - (virt &&& (memoryPageSize - 1))) = size at hrun
        cases htrans : memoryPhysToVirt s.context.kernel mapping.physical size with
        | none =>
          rw [htrans] at hrun
          cases hrun
        | some aliasPhys =>
          rw [htrans, Option.bind_some] at hrun
          obtain rfl := memoryPhysToVirt_eq htrans
          cases hrest : copyPreflightLoop s vm write room (virt + size) (remaining - size) with
          | none =>
            rw [hrest] at hrun
            cases hrun
          | some rest =>
            rw [hrest, Option.bind_some] at hrun
            cases hrun
            cases hout with
            | absent => exact absurd (Or.inl (by decide)) hmapped
            | page i access hi hused hpage haccess hleaf =>
              -- The chunk ends at the end of the page or of the range.
              have hsize : memoryPageSize = 4096 := rfl
              have hoff : virt &&& (memoryPageSize - 1) = virt % 4096 :=
                Nat.and_two_pow_sub_one_eq_mod virt 12
              rw [hoff, hsize] at hchunk
              have hbounds : 0 < size ∧ size ≤ 4096 - virt % 4096 ∧ size ≤ remaining := by
                split at hchunk <;> omega
              obtain ⟨hpos, hle, hrem⟩ := hbounds
              rw [← Nat.add_sub_cancel' hrem]
              refine .cons hvirt hi hused hpage haccess hleaf ?_ hpos hle (ih hrest)
              intro hwrite
              by_contra hro
              exact hmapped (Or.inr ⟨hwrite, hro⟩)
    · rename_i hzero
      cases hrun
      rw [not_not.1 hzero]
      exact .nil virt

theorem copyPreflight_chunks (h : Holds map vm elsewhere s) {write : Bool} {bytes : Nat}
    (hrun : copyPreflight s vm virt bytes write = some chunks) :
    Chunks (s.context.vms vm) s.memory write virt bytes chunks := by
  rw [copyPreflight] at hrun
  split at hrun
  · cases hrun
  split at hrun
  · rename_i hzero
    cases hrun
    rw [hzero]
    exact .nil virt
  split at hrun
  · cases hrun
  exact copyPreflightLoop_spec h hrun

/-- The chunks of a copy lie in pages of the space. -/
theorem Chunks.frame {write : Bool} {bytes : Nat}
    (hchunks : Chunks v memory write virt bytes chunks)
    (hpage : ∀ i, i < userVmPageLimit → (v.pages i).allocated = true →
    (v.pages i).phys % 4096 = 0) :
    ∀ chunk ∈ chunks, ∀ x, chunk.aliasPhys ≤ x → x < chunk.aliasPhys + chunk.bytes →
      frameOf x ∈ v.pageFrames := by
  induction hchunks with
  | nil => nofun
  | @cons virt size _ i _ rest _ hi hused _ _ _ _ _ hle _ ih =>
    intro chunk hmem x hlo hhi
    rcases List.mem_cons.1 hmem with rfl | hmem
    · have halign := hpage i hi hused
      simp only at hlo hhi
      refine ⟨i, hi, hused, ?_⟩
      rw [frameOf]
      omega
    · exact ih chunk hmem x hlo hhi

theorem copyPreflight_spec (h : Holds map vm elsewhere s) {write : Bool} {bytes : Nat}
    (hrun : copyPreflight s vm virt bytes write = some chunks) :
    ∀ chunk ∈ chunks, ∀ x, chunk.aliasPhys ≤ x → x < chunk.aliasPhys + chunk.bytes →
      frameOf x ∈ (s.context.vms vm).pageFrames := by
  apply (copyPreflight_chunks h hrun).frame
  intro i hi hused
  rcases h.state with hzero | hlive
  · rw [hzero] at hused
    cases hused
  · exact (hlive.page i hi hused).frame.align

/-- A copy writes its chunks only. -/
theorem copyIn_of_outside {source : List UInt8} {x : Nat}
    (h : ∀ chunk ∈ chunks, x < chunk.aliasPhys ∨ chunk.aliasPhys + chunk.bytes ≤ x) :
    copyIn chunks source memory x = memory x := by
  induction chunks generalizing source memory with
  | nil => rfl
  | cons chunk chunks ih =>
    rw [copyIn, ih fun chunk' h' => h chunk' (List.mem_cons_of_mem _ h')]
    apply writeBytes_of_outside
    have hout := h chunk (by simp)
    have hlen := List.length_take_le chunk.bytes source
    omega

theorem userVmCopyTo_spec (h : Holds map vm elsewhere s) (userDst : Nat)
    (kernelSrc : Option (List UInt8)) (bytes : Nat) :
    ∃ s' ok, userVmCopyTo s vm userDst kernelSrc bytes = (s', ok) ∧ Kept map vm elsewhere s s' ∧
      ∀ x, frameOf x ∉ (s.context.vms vm).pageFrames → s'.memory x = s.memory x := by
  rw [userVmCopyTo]
  split
  · exact ⟨s, false, rfl, Kept.refl h, fun _ _ => rfl⟩
  cases hflight : copyPreflight s vm userDst bytes true with
  | none => exact ⟨s, false, rfl, Kept.refl h, fun _ _ => rfl⟩
  | some chunks =>
    have hchunks := copyPreflight_spec h hflight
    -- A byte outside the pages is outside every chunk.
    have hkeep : ∀ x, frameOf x ∉ (s.context.vms vm).pageFrames →
        copyIn chunks (kernelSrc.getD []) s.memory x = s.memory x := by
      intro x hx
      refine copyIn_of_outside fun chunk hmem => ?_
      by_contra hin
      exact hx (hchunks chunk hmem x (by omega) (by omega))
    refine ⟨_, true, rfl, ⟨⟨h.pmm, ?_, h.apart, h.allocated⟩,
      ⟨rfl, rfl, rfl, fun _ _ => rfl, ?_, rfl, ?_⟩, rfl, RootKept.of_bytes rfl ?_⟩, hkeep⟩
    · rcases h.state with hzero | hlive
      · exact Or.inl hzero
      · exact Or.inr (hlive.of_bytes fun x hx => hkeep x (Set.disjoint_left.1 hlive.apart hx))
    · exact fun x hx => hkeep x fun hp => Set.disjoint_left.1 h.apart hx (Or.inr hp)
    · refine fun x hx => hkeep x fun hp => reserved_not_allocated h.pmm.init hx ?_
      rw [h.allocated]
      exact Or.inr (Or.inr hp)
    · intro x hx
      refine hkeep x fun hp => ?_
      rcases h.state with hzero | hlive
      · rw [hzero] at hp
        obtain ⟨i, -, hused, -⟩ := hp
        cases hused
      · rw [hx] at hp
        exact Set.disjoint_left.1 hlive.apart hlive.root_mem hp

end Utamo.AddressSpace
