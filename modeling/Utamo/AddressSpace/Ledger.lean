import Utamo.AddressSpace.Core
import Utamo.Lib.Ledger
import Utamo.Vmm.Mutation
import Mathlib.Order.CompletePartialOrder

/-!
# The ledgers of a private address space

The frames of a `user_vm` are those of its two ledgers. While `vmm_core.c` edits the tables, the
table ledger changes through the callbacks only; `TableBook` is what they maintain, with respect to
the state before the call and to the set `elsewhere` of all other allocated frames. The callbacks
keep the contract that `vmm_core.h` asks for (`userOps_contract`), and none of them panics on a
frame that it handed out.
-/

set_option autoImplicit false

namespace Utamo.AddressSpace

open Lib Lib.Ledger Memory Pmm Vmm

variable {f phys : Nat}

/-! ## Frames -/

/-- A table that is in use. -/
def UserVmTable.inUse (e : UserVmTable) : Bool := e.allocated && e.published

/-- A table whose frame was taken and that is not in use yet. -/
def UserVmTable.inWaiting (e : UserVmTable) : Bool := e.allocated && !e.published

theorem UserVmTable.allocated_of_inWaiting (e : UserVmTable) (h : e.inWaiting = true) :
    e.allocated = true := (Bool.and_eq_true_iff.1 h).1

namespace UserVm

/-- The frames in the table ledger. -/
def tableFrames (v : UserVm) : Set Nat :=
  keys UserVmTable.allocated userVmTableLimit UserVmTable.phys v.tables

/-- The frames of tables that are in use. -/
def publishedFrames (v : UserVm) : Set Nat :=
  keys UserVmTable.inUse userVmTableLimit UserVmTable.phys v.tables

/-- The frames that were taken for tables and are not in use yet. -/
def pendingFrames (v : UserVm) : Set Nat :=
  keys UserVmTable.inWaiting userVmTableLimit UserVmTable.phys v.tables

/-- The frames in the page ledger. -/
def pageFrames (v : UserVm) : Set Nat :=
  keys UserVmPage.allocated userVmPageLimit UserVmPage.phys v.pages

/-- All frames of an address space. -/
def owned (v : UserVm) : Set Nat := v.tableFrames ∪ v.pageFrames

theorem mem_tableFrames {v : UserVm} :
    f ∈ v.tableFrames ↔ f ∈ v.publishedFrames ∨ f ∈ v.pendingFrames := by
  constructor
  · rintro ⟨i, hi, hused, hkey⟩
    cases hp : (v.tables i).published with
    | true => exact Or.inl ⟨i, hi, by rw [UserVmTable.inUse, hused, hp]; rfl, hkey⟩
    | false => exact Or.inr ⟨i, hi, by rw [UserVmTable.inWaiting, hused, hp]; rfl, hkey⟩
  · rintro (⟨i, hi, hused, hkey⟩ | ⟨i, hi, hused, hkey⟩)
    · exact ⟨i, hi, (Bool.and_eq_true_iff.1 hused).1, hkey⟩
    · exact ⟨i, hi, (Bool.and_eq_true_iff.1 hused).1, hkey⟩

end UserVm

/-- What holds of a table ledger at any time. -/
structure TableLedger (v : UserVm) : Prop where
  count : v.tableCount = (occupied UserVmTable.allocated userVmTableLimit v.tables).card
  distinct : Distinct UserVmTable.allocated userVmTableLimit UserVmTable.phys v.tables
  root : v.tables 0 = ⟨v.space.rootPhys, true, true⟩

/-- What holds of a page ledger. -/
structure PageLedger (v : UserVm) : Prop where
  count : v.pageCount = (occupied UserVmPage.allocated userVmPageLimit v.pages).card
  distinct_phys : Distinct UserVmPage.allocated userVmPageLimit UserVmPage.phys v.pages
  distinct_virt : Distinct UserVmPage.allocated userVmPageLimit UserVmPage.virt v.pages

section Slots

variable {v : UserVm}

theorem tableSlot_eq (hl : TableLedger v) {i : Nat} (hi : i < userVmTableLimit)
    (hused : (v.tables i).allocated = true) : tableSlot v (v.tables i).phys = i := by
  refine firstIndex_unique (Nat.zero_le i) hi ?_ ?_
  · rw [decide_eq_true_eq]
    exact ⟨hused, rfl⟩
  · intro j _ hj htest
    rw [decide_eq_true_eq] at htest
    exact hl.distinct j i hj hi htest.1 hused htest.2

theorem tableSlot_eq_limit : tableSlot v f = userVmTableLimit ↔ f ∉ v.tableFrames := by
  rcases firstIndex_cases 0 userVmTableLimit
      fun i => decide ((v.tables i).allocated = true ∧ (v.tables i).phys = f) with
    ⟨heq, hnone⟩ | ⟨i, heq, -, hi, htest⟩
  · refine iff_of_true heq ?_
    rintro ⟨i, hi, hused, hkey⟩
    exact of_decide_eq_false (hnone i (Nat.zero_le i) hi) ⟨hused, hkey⟩
  · rw [decide_eq_true_eq] at htest
    refine iff_of_false ?_ (not_not.2 ⟨i, hi, htest.1, htest.2⟩)
    rw [tableSlot, heq]
    exact Nat.ne_of_lt hi

theorem pageSlot_eq (hl : PageLedger v) {i virt : Nat} (hi : i < userVmPageLimit)
    (hused : (v.pages i).allocated = true) (hvirt : (v.pages i).virt = memoryAlignDown virt) :
    pageSlot v virt = i := by
  refine firstIndex_unique (Nat.zero_le i) hi ?_ ?_
  · rw [decide_eq_true_eq]
    exact ⟨hused, hvirt⟩
  · intro j _ hj htest
    rw [decide_eq_true_eq] at htest
    exact hl.distinct_virt j i hj hi htest.1 hused (htest.2.trans hvirt.symm)

theorem pageSlot_eq_limit {virt : Nat} (h : ∀ i, i < userVmPageLimit →
    (v.pages i).allocated = true → (v.pages i).virt ≠ memoryAlignDown virt) :
    pageSlot v virt = userVmPageLimit := by
  rcases firstIndex_cases 0 userVmPageLimit
      fun i => decide ((v.pages i).allocated = true ∧ (v.pages i).virt = memoryAlignDown virt) with
    ⟨heq, -⟩ | ⟨i, -, -, hi, htest⟩
  · exact heq
  · rw [decide_eq_true_eq] at htest
    exact absurd htest.2 (h i hi htest.1)

end Slots

/-! ## The callbacks -/

@[simp] theorem setVm_vms_self (c : System) (vm : Nat) (v : UserVm) :
    (c.setVm vm v).vms vm = v := by
  rw [System.setVm]
  exact Function.update_self ..

theorem setVm_vms_of_ne {c : System} {vm w : Nat} {v : UserVm} (h : w ≠ vm) :
    (c.setVm vm v).vms w = c.vms w := by
  rw [System.setVm]
  exact Function.update_of_ne h ..

/-- The two states differ in the memory manager and in the table ledger of one object at most. -/
structure TablesOnly (vm : Nat) (c c' : System) : Prop where
  kernel : c'.kernel = c.kernel
  cr3 : c'.cr3 = c.cr3
  cr4 : c'.cr4 = c.cr4
  vms : ∀ w, w ≠ vm → c'.vms w = c.vms w
  space : (c'.vms vm).space = (c.vms vm).space
  pages : (c'.vms vm).pages = (c.vms vm).pages
  pageCount : (c'.vms vm).pageCount = (c.vms vm).pageCount
  initialized : (c'.vms vm).initialized = (c.vms vm).initialized

theorem TablesOnly.refl (vm : Nat) (c : System) : TablesOnly vm c c :=
  ⟨rfl, rfl, rfl, fun _ _ => rfl, rfl, rfl, rfl, rfl⟩

/-- Every callback writes the memory manager and the two fields of the table ledger. -/
theorem TablesOnly.write {vm : Nat} {c c' : System} (h : TablesOnly vm c c') (pmm : PmmState)
    (tables : Nat → UserVmTable) (tableCount : Nat) :
    TablesOnly vm c ({ c' with pmm }.setVm vm { c'.vms vm with tables, tableCount }) where
  kernel := h.kernel
  cr3 := h.cr3
  cr4 := h.cr4
  vms := fun w hw => (setVm_vms_of_ne hw).trans (h.vms w hw)
  space := by rw [setVm_vms_self]; exact h.space
  pages := by rw [setVm_vms_self]; exact h.pages
  pageCount := by rw [setVm_vms_self]; exact h.pageCount
  initialized := by rw [setVm_vms_self]; exact h.initialized

/-- What the callbacks maintain. -/
structure TableBook (map : MemoryMap) (vm : Nat) (start : System) (elsewhere : Set Nat)
    (c : System) :
    Prop where
  pmm : PmmInv map c.pmm
  only : TablesOnly vm start c
  ledger : TableLedger (c.vms vm)
  apart : Disjoint elsewhere (c.vms vm).tableFrames
  allocated : allocatedPages c.pmm = elsewhere ∪ (c.vms vm).tableFrames
  reserved : reservedPages c.pmm = reservedPages start.pmm

section Callbacks

variable {map : MemoryMap} {vm : Nat} {start c : System} {elsewhere : Set Nat}

theorem releaseFrame_spec (hinv : PmmInv map c.pmm) (h : phys ∈ allocatedPages c.pmm) :
    ∃ pmm, releaseFrame c phys = some { c with pmm } ∧ PmmInv map pmm ∧
      allocatedPages pmm = allocatedPages c.pmm \ {phys} := by
  obtain ⟨pmm, hfree, hinv', -, hset⟩ := pmmFreePage_spec hinv h
  refine ⟨pmm, ?_, hinv', hset⟩
  rw [releaseFrame, hfree]

theorem releaseFrame_reserved {c' : System} (hinv : PmmInv map c.pmm)
    (h : releaseFrame c phys = some c') : reservedPages c'.pmm = reservedPages c.pmm := by
  have hsame := pmmFreePage_reserved hinv phys
  rw [releaseFrame] at h
  rcases hfree : pmmFreePage c.pmm phys with ⟨pmm, _ | _⟩
  · rw [hfree] at h
    cases h
  · rw [hfree] at h hsame
    cases h
    exact hsame

theorem invalidate_eq (virt : Nat) : invalidate vm c virt = c := by
  rw [invalidate]
  exact ite_self c

section Book

variable (hbook : TableBook map vm start elsewhere c)

include hbook

/-- The ledger has a hole when its count is below the limit. -/
theorem TableBook.alloc {slot : Nat}
    {pmm : PmmState} (h1 : 1 ≤ slot) (hlt : slot < userVmTableLimit)
    (hfree : ((c.vms vm).tables slot).allocated = false) (hinv : PmmInv map pmm)
    (hnew : phys ∉ allocatedPages c.pmm)
    (hset : allocatedPages pmm = insert phys (allocatedPages c.pmm))
    (hreserved : reservedPages pmm = reservedPages c.pmm) :
    TableBook map vm start elsewhere ({ c with pmm }.setVm vm { c.vms vm with
      tables := Function.update (c.vms vm).tables slot ⟨phys, true, false⟩
      tableCount := (c.vms vm).tableCount + 1 }) := by
  have hl := hbook.ledger
  rw [hbook.allocated, Set.mem_union, not_or] at hnew
  have hframes : UserVm.tableFrames { c.vms vm with
      tables := Function.update (c.vms vm).tables slot ⟨phys, true, false⟩
      tableCount := (c.vms vm).tableCount + 1 } = insert phys (c.vms vm).tableFrames :=
    keys_take hlt hfree rfl
  refine ⟨hinv, hbook.only.write _ _ _, ⟨?_, ?_, ?_⟩, ?_, ?_, hreserved.trans hbook.reserved⟩
  · rw [setVm_vms_self]
    show (c.vms vm).tableCount + 1 = _
    rw [hl.count]
    exact (card_take hlt hfree rfl).symm
  · rw [setVm_vms_self]
    exact hl.distinct.take hnew.2
  · rw [setVm_vms_self]
    show Function.update (c.vms vm).tables slot _ 0 = _
    rw [Function.update_of_ne (by omega)]
    exact hl.root
  · rw [setVm_vms_self, hframes, Set.disjoint_insert_right]
    exact ⟨hnew.1, hbook.apart⟩
  · rw [setVm_vms_self, hframes]
    show allocatedPages pmm = _
    rw [hset, hbook.allocated, Set.union_insert]

/-- The slot of a frame that is not in use yet. -/
theorem TableBook.pending_slot
    (hf : f ∈ (c.vms vm).pendingFrames) :
    ∃ i, tableSlot (c.vms vm) f = i ∧ 1 ≤ i ∧ i < userVmTableLimit ∧
      (c.vms vm).tables i = ⟨f, true, false⟩ := by
  obtain ⟨i, hi, hused, hkey⟩ := hf
  rw [UserVmTable.inWaiting, Bool.and_eq_true, Bool.not_eq_true'] at hused
  have hentry : (c.vms vm).tables i = ⟨f, true, false⟩ := by
    rw [← hused.1, ← hused.2, ← hkey]
  refine ⟨i, ?_, ?_, hi, hentry⟩
  · rw [← hkey]
    exact tableSlot_eq hbook.ledger hi hused.1
  · refine Nat.one_le_iff_ne_zero.2 ?_
    rintro rfl
    rw [hbook.ledger.root] at hentry
    cases hentry

theorem tableAllocate_spec :
    ∃ result c', tableAllocate vm c = (result, c') ∧ TableBook map vm start elsewhere c' ∧
      (c'.vms vm).publishedFrames = (c.vms vm).publishedFrames ∧
      ((result = none ∧ (c'.vms vm).pendingFrames = (c.vms vm).pendingFrames) ∨
        ∃ f, result = some f ∧ f < 2 ^ 64 ∧ f ∉ (c.vms vm).tableFrames ∧
          f ∉ elsewhere ∪ reservedPages start.pmm ∧
          (c'.vms vm).pendingFrames = insert f (c.vms vm).pendingFrames) := by
  rw [tableAllocate]
  simp only
  split
  · exact ⟨none, c, rfl, hbook, rfl, Or.inl ⟨rfl, rfl⟩⟩
  split
  · exact ⟨none, c, rfl, hbook, rfl, Or.inl ⟨rfl, rfl⟩⟩
  rename_i hslot
  rcases firstIndex_cases 1 userVmTableLimit fun i => !((c.vms vm).tables i).allocated with
    ⟨heq, -⟩ | ⟨slot, heq, h1, hlt, hfree⟩
  · exact absurd heq hslot
  rw [Bool.not_eq_true'] at hfree
  obtain ⟨pmm, result, halloc, hinv, -, hout⟩ := pmmAllocPage_spec hbook.pmm
  have hreserved := pmmAllocPage_reserved hbook.pmm
  rw [halloc] at hreserved
  rw [halloc, heq]
  rcases hout with ⟨rfl, rfl⟩ | ⟨phys, rfl, hnew, hset⟩
  · exact ⟨none, c, rfl, hbook, rfl, Or.inl ⟨rfl, rfl⟩⟩
  · have hlow := (hinv.page_usable (hset ▸ Set.mem_insert phys _)).2.1
    have hbook' := hbook.alloc h1 hlt hfree hinv hnew hset hreserved
    refine ⟨some phys, _, rfl, hbook', ?_, Or.inr ⟨phys, rfl, hlow, ?_, ?_, ?_⟩⟩
    · rw [setVm_vms_self]
      exact keys_skip (by rw [UserVmTable.inUse, hfree]; rfl) rfl
    · intro h
      rw [hbook.allocated] at hnew
      exact hnew (Or.inr h)
    · rintro (h | h)
      · rw [hbook.allocated] at hnew
        exact hnew (Or.inl h)
      · -- What was just allocated is available.
        rw [← hbook.reserved, ← hreserved] at h
        exact reserved_not_allocated hinv.init h (hset ▸ Set.mem_insert phys _)
    · rw [setVm_vms_self]
      exact keys_take hlt (by rw [UserVmTable.inWaiting, hfree]; rfl) rfl

theorem tableRelease_spec
    (hf : f ∈ (c.vms vm).pendingFrames) :
    ∃ c', tableRelease vm c f = some c' ∧ TableBook map vm start elsewhere c' ∧
      (c'.vms vm).publishedFrames = (c.vms vm).publishedFrames ∧
      (c'.vms vm).pendingFrames = (c.vms vm).pendingFrames \ {f} := by
  obtain ⟨i, hslot, h1, hi, hentry⟩ := hbook.pending_slot hf
  have hl := hbook.ledger
  have hused : ((c.vms vm).tables i).allocated = true := by rw [hentry]
  have hphys : ((c.vms vm).tables i).phys = f := by rw [hentry]
  have hmem : f ∈ (c.vms vm).tableFrames := UserVm.mem_tableFrames.2 (Or.inr hf)
  have halloc : f ∈ allocatedPages c.pmm := by
    rw [hbook.allocated]
    exact Or.inr hmem
  obtain ⟨pmm, hrel, hinv, hset⟩ := releaseFrame_spec hbook.pmm halloc
  have hframes : UserVm.tableFrames { c.vms vm with
      tables := Function.update (c.vms vm).tables i .zero
      tableCount := (c.vms vm).tableCount - 1 } = (c.vms vm).tableFrames \ {f} := by
    rw [← hphys]
    exact keys_drop hi hused rfl hl.distinct
  refine ⟨{ c with pmm }.setVm vm { c.vms vm with
      tables := Function.update (c.vms vm).tables i .zero
      tableCount := (c.vms vm).tableCount - 1 }, ?_,
    ⟨hinv, hbook.only.write _ _ _, ⟨?_, ?_, ?_⟩, ?_, ?_,
      (releaseFrame_reserved hbook.pmm hrel).trans hbook.reserved⟩, ?_, ?_⟩
  · rw [tableRelease]
    simp only [hslot, hrel, Option.bind_eq_bind, Option.bind_some, Option.pure_def]
    rw [if_neg]
    rw [hentry]
    rintro (h | h | h)
    · omega
    · omega
    · cases h
  · rw [setVm_vms_self]
    show (c.vms vm).tableCount - 1 = _
    rw [hl.count, ← card_drop hi hused (e := .zero) rfl]
    exact Nat.add_sub_cancel _ 1
  · rw [setVm_vms_self]
    exact hl.distinct.drop rfl
  · rw [setVm_vms_self]
    show Function.update (c.vms vm).tables i _ 0 = _
    rw [Function.update_of_ne (by omega)]
    exact hl.root
  · rw [setVm_vms_self, hframes]
    exact hbook.apart.mono_right Set.sdiff_subset
  · rw [setVm_vms_self, hframes]
    show allocatedPages pmm = _
    have hnot : f ∉ elsewhere := fun h => Set.disjoint_left.1 hbook.apart h hmem
    rw [hset, hbook.allocated, Set.union_sdiff_distrib, Set.sdiff_singleton_eq_self hnot]
  · rw [setVm_vms_self]
    exact keys_skip (by rw [hentry]; rfl) rfl
  · rw [setVm_vms_self, ← hphys]
    refine keys_drop hi (by rw [hentry]; rfl) rfl ?_
    exact hl.distinct.of_used UserVmTable.allocated_of_inWaiting

theorem tableCommit_spec
    (hf : f ∈ (c.vms vm).pendingFrames) :
    ∃ c', tableCommit vm c f = some c' ∧ TableBook map vm start elsewhere c' ∧
      (c'.vms vm).publishedFrames = insert f (c.vms vm).publishedFrames ∧
      (c'.vms vm).pendingFrames = (c.vms vm).pendingFrames \ {f} := by
  obtain ⟨i, hslot, h1, hi, hentry⟩ := hbook.pending_slot hf
  have hl := hbook.ledger
  have hused : ((c.vms vm).tables i).allocated = true := by rw [hentry]
  have hphys : ((c.vms vm).tables i).phys = f := by rw [hentry]
  obtain ⟨e, he⟩ : ∃ e : UserVmTable, e = ⟨f, true, true⟩ := ⟨_, rfl⟩
  have hpublished : UserVm.publishedFrames { c.vms vm with
      tables := Function.update (c.vms vm).tables i e } = insert f (c.vms vm).publishedFrames := by
    rw [show f = e.phys by rw [he]]
    exact keys_take hi (by rw [hentry]; rfl) (by rw [he]; rfl)
  have hpending : UserVm.pendingFrames { c.vms vm with
      tables := Function.update (c.vms vm).tables i e } = (c.vms vm).pendingFrames \ {f} := by
    rw [← hphys]
    refine keys_drop hi (by rw [hentry]; rfl) (by rw [he]; rfl) ?_
    exact hl.distinct.of_used UserVmTable.allocated_of_inWaiting
  have hframes : UserVm.tableFrames { c.vms vm with
      tables := Function.update (c.vms vm).tables i e } = (c.vms vm).tableFrames := by
    ext g
    rw [UserVm.mem_tableFrames, UserVm.mem_tableFrames, hpublished, hpending, Set.mem_insert_iff,
      Set.mem_sdiff, Set.mem_singleton_iff]
    constructor
    · rintro ((rfl | h) | h)
      · exact Or.inr hf
      · exact Or.inl h
      · exact Or.inr h.1
    · rintro (h | h)
      · exact Or.inl (Or.inr h)
      · by_cases hg : g = f
        · exact Or.inl (Or.inl hg)
        · exact Or.inr ⟨h, hg⟩
  refine ⟨c.setVm vm { c.vms vm with tables := Function.update (c.vms vm).tables i e }, ?_,
    ⟨hbook.pmm, hbook.only.write c.pmm _ (c.vms vm).tableCount, ⟨?_, ?_, ?_⟩, ?_, ?_,
      hbook.reserved⟩, ?_, ?_⟩
  · rw [tableCommit]
    simp only [hslot]
    rw [if_neg, hentry, he]
    rw [hentry]
    rintro (h | h | h)
    · omega
    · omega
    · cases h
  · rw [setVm_vms_self]
    show (c.vms vm).tableCount = _
    rw [hl.count]
    have hsame : e.allocated = ((c.vms vm).tables i).allocated := by rw [he, hused]
    exact congrArg Finset.card (occupied_keep hsame).symm
  · rw [setVm_vms_self]
    exact hl.distinct.keep (by rw [he, hused]) (by rw [he, hphys])
  · rw [setVm_vms_self]
    show Function.update (c.vms vm).tables i _ 0 = _
    rw [Function.update_of_ne (by omega)]
    exact hl.root
  · rw [setVm_vms_self, hframes]
    exact hbook.apart
  · rw [setVm_vms_self, hframes]
    exact hbook.allocated
  · rw [setVm_vms_self]
    exact hpublished
  · rw [setVm_vms_self]
    exact hpending

end Book

variable (map vm start elsewhere) in
/-- The callbacks keep the contract of `vmm_core.h`. They hand out neither frames of others nor
frames that the memory manager has withdrawn. -/
theorem userOps_contract :
    Contract (userOps vm) (TableBook map vm start elsewhere) (fun c => (c.vms vm).publishedFrames)
      (fun c => (c.vms vm).pendingFrames) (elsewhere ∪ reservedPages start.pmm) where
  alloc_some := by
    intro c f c' hbook halloc
    obtain ⟨result, c'', hcall, hbook', hpub, hout⟩ := tableAllocate_spec hbook
    obtain ⟨rfl, rfl⟩ : result = some f ∧ c'' = c' := Prod.mk.inj (hcall.symm.trans halloc)
    rcases hout with ⟨h, -⟩ | ⟨g, hg, hlt, hnot, havoid, hpend⟩
    · cases h
    · cases hg
      rw [UserVm.mem_tableFrames, not_or] at hnot
      exact ⟨hbook', hpub, hpend, hlt, hnot.1, hnot.2, havoid⟩
  alloc_none := by
    intro c c' hbook halloc
    obtain ⟨result, c'', hcall, hbook', hpub, hout⟩ := tableAllocate_spec hbook
    obtain ⟨rfl, rfl⟩ : result = none ∧ c'' = c' := Prod.mk.inj (hcall.symm.trans halloc)
    rcases hout with ⟨-, hpend⟩ | ⟨g, hg, -⟩
    · exact ⟨hbook', hpub, hpend⟩
    · cases hg
  free := fun c f hbook hf => tableRelease_spec hbook hf
  commit := fun c f hbook hf => tableCommit_spec hbook hf
  invalidate := by
    intro c virt hbook
    have h : (userOps vm).invalidate c virt = c := invalidate_eq virt
    rw [h]
    exact ⟨hbook, rfl, rfl⟩

end Callbacks

end Utamo.AddressSpace
