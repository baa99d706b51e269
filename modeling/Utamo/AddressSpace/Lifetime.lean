import Utamo.AddressSpace.Operations

/-!
# Creating and destroying an address space

`user_vm_create` and `user_vm_destroy`. Creation either leaves everything as it was or makes a live
space whose only frame is its root. On a live space whose tables the direct map reaches,
`ownership_valid` holds (`ownershipValid_live`), so `user_vm_destroy` succeeds unless the space is
the active one; it returns every frame of the space and no other.
-/

set_option autoImplicit false

namespace Utamo.AddressSpace

open Lib Lib.ByteMemory Lib.Ledger Memory Pmm Vmm

variable {map : MemoryMap} {vm : Nat} {elsewhere : Set Nat} {s : Machine}

/-! ## The root table -/

section Root

variable {memory : ByteMemory} {phys : Nat} {upper : Nat → Nat} (halign : phys % 4096 = 0)

include halign

/-- The lower half of the root is empty, the upper half has the entries of the kernel. -/
theorem slot_rootMemory (i : Nat) : slot (rootMemory memory phys upper) phys i =
    if 256 ≤ i ∧ i < 512 then upper (i - 256) &&& notU64 vmmUser else 0 := by
  have hlt : ∀ j, upper j &&& notU64 vmmUser < 2 ^ 64 :=
    fun j => Nat.and_lt_two_pow _ (by decide)
  -- After `k` rounds the first `k` entries of the upper half are filled.
  have hloop : ∀ j, slot (rootMemory memory phys upper) phys j =
      if 256 ≤ j ∧ j < 256 + 256 then upper (j - 256) &&& notU64 vmmUser else 0 := by
    rw [rootMemory]
    refine forRange_invariant (P := fun (k : Nat) (m : ByteMemory) => ∀ j, slot m phys j =
      if 256 ≤ j ∧ j < 256 + k then upper (j - 256) &&& notU64 vmmUser else 0) (by decide) ?_ ?_
    · intro j
      rw [slot_clear halign, Radix.clear_self, if_neg (by omega)]
    · intro k m _ hk hm j
      rw [slot_store halign (by omega) (hlt k)]
      by_cases hj : j = 256 + k
      · rw [hj, Radix.setSlot_self, if_pos (by omega), Nat.add_sub_cancel_left]
      · rw [Radix.setSlot_of_ne fun h => hj h.2, hm j]
        by_cases hin : 256 ≤ j ∧ j < 256 + k
        · rw [if_pos hin, if_pos (by omega)]
        · rw [if_neg hin, if_neg (by omega)]
  exact hloop i

theorem rootMemory_of_ne {x : Nat} (hx : frameOf x ≠ phys) :
    rootMemory memory phys upper x = memory x := by
  rw [rootMemory]
  refine forRange_invariant (P := fun (_ : Nat) (m : ByteMemory) => m x = memory x)
    (by decide) ?_ ?_
  · exact clear_page_of_ne halign hx
  · intro k m _ hk hm
    rw [store64_entry_of_ne halign (by omega) hx]
    exact hm

/-- No entry of a new root is open to users above the lower half. -/
theorem rootMemory_upper (i : Nat) :
    hasFlag (slot (rootMemory memory phys upper) phys i) vmmUser = false := by
  rw [slot_rootMemory halign, hasFlag_eq_false]
  split
  · rw [Nat.and_assoc]
    have h : notU64 vmmUser &&& vmmUser = 0 := by decide
    rw [h, Nat.and_zero]
  · exact Nat.zero_and _

end Root

/-! ## Creation -/

/-- The object with nothing but a root table in its ledger. -/
def rootOnly (phys : Nat) : UserVm :=
  { UserVm.zero with
    tables := Function.update UserVm.zero.tables 0 ⟨phys, true, true⟩
    tableCount := 1 }

theorem rootOnly_tables (phys : Nat) :
    (rootOnly phys).publishedFrames = {phys} ∧ (rootOnly phys).pendingFrames = ∅ ∧
      (rootOnly phys).pageFrames = ∅ := by
  refine ⟨?_, ?_, ?_⟩
  · have hempty : UserVm.zero.publishedFrames = ∅ := by
      refine Set.eq_empty_iff_forall_notMem.2 ?_
      rintro f ⟨i, -, ⟨⟩, -⟩
    have htake : (rootOnly phys).publishedFrames = insert phys UserVm.zero.publishedFrames :=
      keys_take (by decide) rfl rfl
    rw [htake, hempty]
    exact insert_empty_eq phys
  · have hempty : UserVm.zero.pendingFrames = ∅ := by
      refine Set.eq_empty_iff_forall_notMem.2 ?_
      rintro f ⟨i, -, ⟨⟩, -⟩
    rw [← hempty]
    exact keys_skip rfl rfl
  · refine Set.eq_empty_iff_forall_notMem.2 ?_
    rintro f ⟨i, -, ⟨⟩, -⟩

theorem rootOnly_owned (phys : Nat) : (rootOnly phys).owned = {phys} := by
  obtain ⟨hpub, hpend, hpages⟩ := rootOnly_tables phys
  ext f
  rw [UserVm.owned, Set.mem_union, UserVm.mem_tableFrames, hpub, hpend, hpages]
  simp

theorem occupied_of_unused {α : Type} {used : α → Bool} {limit : Nat} {entries : Nat → α}
    (h : ∀ i, used (entries i) = false) : (occupied used limit entries).card = 0 := by
  rw [Finset.card_eq_zero, Finset.eq_empty_iff_forall_notMem]
  intro i hi
  rw [mem_occupied, h i] at hi
  cases hi.2

/-- A space with a fresh root. -/
theorem live_rootOnly {memory : ByteMemory} {phys mask : Nat} (hvm : vm ≠ 0)
    (hmask : Within mask vmmAddressMask) (hframe : Frame mask phys)
    (hlower : ∀ i, lowerHalf i → slot memory phys i = 0)
    (hupper : ∀ i, hasFlag (slot memory phys i) vmmUser = false) :
    Live vm { rootOnly phys with
      space := ⟨phys, mask, true, true, vm⟩, initialized := true } memory := by
  obtain ⟨hpub, hpend, hpages⟩ := rootOnly_tables phys
  obtain ⟨htree, hframes⟩ := tables_empty true hmask hframe hlower
  refine ⟨hvm, rfl, rfl, rfl, rfl, ⟨?_, ?_, rfl⟩, ⟨?_, nofun, nofun⟩, nofun, ?_, hpend, htree, ?_,
    ?_, fun i _ => hupper i⟩
  · have hzero : (occupied UserVmTable.allocated userVmTableLimit UserVm.zero.tables).card = 0 :=
      occupied_of_unused fun _ => rfl
    have hcard : (occupied UserVmTable.allocated userVmTableLimit (rootOnly phys).tables).card =
        0 + 1 := by
      rw [← hzero]
      exact card_take (by decide) rfl rfl
    exact hcard.symm
  · refine Distinct.take (fun i j _ _ h => by cases h) ?_
    rintro ⟨i, -, ⟨⟩, -⟩
  · exact (occupied_of_unused fun _ => rfl).symm
  · refine Set.disjoint_right.2 ?_
    rintro f ⟨i, -, ⟨⟩, -⟩
  · exact hpub.trans hframes.symm
  · exact fun w hw => .absent (leafAt_empty hlower hw.own) nofun

/-- An unused object, with nothing of its own allocated. -/
theorem holds_zero {c : System} {memory : ByteMemory} (hpmm : PmmInv map c.pmm)
    (hzero : c.vms vm = .zero) (halloc : allocatedPages c.pmm = elsewhere) :
    Holds map vm elsewhere ⟨c, memory⟩ := by
  refine ⟨hpmm, Or.inl hzero, ?_, ?_⟩
  · rw [hzero, owned_zero]
    exact Set.disjoint_empty _
  · rw [hzero, owned_zero, Set.union_empty]
    exact halloc

/-- What a successful `user_vm_create` has made: a live space without pages, whose upper half is
that of the kernel, closed to users. -/
structure Created (kernel : KernelVmm) (upper : Nat → Nat) (vm : Nat) (s' : Machine) : Prop where
  live : Live vm (s'.context.vms vm) s'.memory
  pages : (s'.context.vms vm).pageFrames = ∅
  mask : memoryPhysicalMask kernel.information.physicalBits =
    some (s'.context.vms vm).space.physicalMask
  upper : ∀ i, 256 ≤ i → i < 512 → slot s'.memory (s'.context.vms vm).space.rootPhys i =
    upper (i - 256) &&& notU64 vmmUser

theorem createRoot_spec {phys : Nat} {kernel : KernelVmm} {info : VmmInfo}
    (hinfo : kernel.information = info) (upper : Nat → Nat) (hvm : vm ≠ 0)
    (hpmm : PmmInv map s.context.pmm) (hroot : s.context.vms vm = rootOnly phys)
    (hnot : phys ∉ elsewhere) (halloc : allocatedPages s.context.pmm = insert phys elsewhere) :
    ∃ s' ok, createRoot s vm phys info upper = some (s', ok) ∧ Holds map vm elsewhere s' ∧
      Framed vm elsewhere s s' ∧ (ok = true → Created kernel upper vm s') ∧
      (ok = false → s'.context.vms vm = .zero) := by
  have hmem : phys ∈ allocatedPages s.context.pmm := by
    rw [halloc]
    exact Set.mem_insert _ _
  obtain ⟨halign, hlt, -⟩ := hpmm.page_usable hmem
  obtain ⟨pmm, hrel, hinv, hset⟩ := releaseFrame_spec hpmm hmem
  rw [halloc, Set.insert_sdiff_of_mem _ (Set.mem_singleton phys), Set.sdiff_singleton_eq_self hnot]
    at hset
  -- Giving the frame back leaves an unused object.
  have hundo : ∀ memory, Holds map vm elsewhere ⟨{ s.context with pmm }.setVm vm .zero, memory⟩ :=
    fun memory => holds_zero hinv (setVm_vms_self _ _ _) hset
  have hreserved := releaseFrame_reserved hpmm hrel
  have hbytes : ∀ x, frameOf x ∈ elsewhere ∪ reservedPages s.context.pmm →
      rootMemory s.memory phys upper x = s.memory x := by
    intro x hx
    refine rootMemory_of_ne halign fun hxp => ?_
    rw [hxp] at hx
    rcases hx with hx | hx
    · exact hnot hx
    · exact reserved_not_allocated hpmm.init hx hmem
  rw [createRoot]
  simp only
  split
  · refine ⟨⟨{ s.context with pmm }.setVm vm .zero, s.memory⟩, false, ?_, hundo _,
      framed_write _ hreserved, by rintro ⟨⟩, fun _ => setVm_vms_self _ _ _⟩
    simp only [hrel, Option.bind_eq_bind, Option.bind_some, Option.pure_def]
  cases hinit : vmmSpaceInit s.context phys info.physicalBits true (userOps vm) with
  | none =>
    refine ⟨⟨{ s.context with pmm }.setVm vm .zero, rootMemory s.memory phys upper⟩, false, ?_,
      hundo _, framed_bytes _ hreserved hbytes, by rintro ⟨⟩, fun _ => setVm_vms_self _ _ _⟩
    simp only [hrel, Option.bind_eq_bind, Option.bind_some, Option.pure_def]
  | some space =>
    obtain ⟨mask, hmask, hframe, hspace, -⟩ := vmmSpaceInit_spec hlt hinit
    have hlower : ∀ i, lowerHalf i → slot (rootMemory s.memory phys upper) phys i = 0 := by
      intro i hi
      rw [lowerHalf] at hi
      rw [slot_rootMemory halign, if_neg (by omega)]
    have hupper : ∀ i, hasFlag (slot (rootMemory s.memory phys upper) phys i) vmmUser = false :=
      rootMemory_upper halign
    have hkernel : ∀ i, 256 ≤ i → i < 512 → slot (rootMemory s.memory phys upper) phys i =
        upper (i - 256) &&& notU64 vmmUser := by
      intro i h1 h2
      rw [slot_rootMemory halign, if_pos ⟨h1, h2⟩]
    have hbits := vmmSpaceInit_mask hinit
    rw [hspace.physicalMask, ← hinfo] at hbits
    generalize rootMemory s.memory phys upper = memory at hlower hupper hkernel hbytes ⊢
    have hlive : Live vm _ memory := live_rootOnly hvm hmask hframe hlower hupper
    have howned : UserVm.owned { rootOnly phys with
        space := ⟨phys, mask, true, true, vm⟩, initialized := true } = {phys} := rootOnly_owned phys
    refine ⟨⟨s.context.setVm vm { rootOnly phys with
        space := ⟨phys, mask, true, true, vm⟩, initialized := true }, memory⟩, true,
      ?_, ⟨hpmm, Or.inr ?_, ?_, ?_⟩, framed_bytes _ rfl hbytes,
        fun _ => ⟨?_, ?_, ?_, ?_⟩, by rintro ⟨⟩⟩
    · simp only [hspace.rootPhys, hspace.physicalMask, hspace.nxEnabled, hspace.initialized, hroot]
    · rw [setVm_vms_self]
      exact hlive
    · rw [setVm_vms_self, howned]
      exact Set.disjoint_singleton_right.2 hnot
    · rw [setVm_vms_self, howned, Set.union_singleton]
      exact halloc
    · rw [setVm_vms_self]
      exact hlive
    · rw [setVm_vms_self]
      exact (rootOnly_tables phys).2.2
    · rw [setVm_vms_self]
      exact hbits
    · rw [setVm_vms_self]
      exact hkernel

theorem userVmCreate_spec (h : Holds map vm elsewhere s) :
    ∃ s' ok, userVmCreate s vm = some (s', ok) ∧ Holds map vm elsewhere s' ∧
      Framed vm elsewhere s s' ∧
      (ok = true → s.context.vms vm = .zero ∧
        ∃ upper, vmmCopyKernelHalf s.context.kernel s.memory = some upper ∧
          Created s.context.kernel upper vm s') ∧
      (ok = false → s' = s ∨ s'.context.vms vm = .zero) := by
  have hfail : ∃ s' ok, some (s, false) = some (s', ok) ∧ Holds map vm elsewhere s' ∧
      Framed vm elsewhere s s' ∧
      (ok = true → s.context.vms vm = .zero ∧
        ∃ upper, vmmCopyKernelHalf s.context.kernel s.memory = some upper ∧
          Created s.context.kernel upper vm s') ∧
      (ok = false → s' = s ∨ s'.context.vms vm = .zero) :=
    ⟨s, false, rfl, h, Framed.refl _ _ _, nofun, fun _ => Or.inl rfl⟩
  rw [userVmCreate]
  split
  · exact hfail
  rename_i hargs
  simp only [not_or] at hargs
  have hzero : s.context.vms vm = .zero := by
    rcases h.state with hzero | hlive
    · exact hzero
    · exact absurd hlive.initialized hargs.2.1
  cases hget : vmmGetInfo s.context.kernel with
  | none => exact hfail
  | some info =>
    have hinfo : s.context.kernel.information = info := by
      rw [vmmGetInfo] at hget
      split at hget
      · exact Option.some.inj hget
      · cases hget
    simp only
    split
    · exact hfail
    generalize vmmCopyKernelHalf s.context.kernel s.memory = copied at hfail ⊢
    cases copied with
    | none => exact hfail
    | some upper =>
      obtain ⟨pmm, result, halloc, hinv, -, hres⟩ := pmmAllocPage_spec h.pmm
      have hreserved := pmmAllocPage_reserved h.pmm
      rw [halloc] at hreserved
      rw [halloc]
      rcases hres with ⟨rfl, rfl⟩ | ⟨phys, rfl, hnew, hset⟩
      · exact hfail
      · have hallocated := h.allocated
        rw [hzero, owned_zero, Set.union_empty] at hallocated
        rw [hallocated] at hnew hset
        have hroot : ({ s.context with pmm }.setVm vm { s.context.vms vm with
            tables := Function.update (s.context.vms vm).tables 0 ⟨phys, true, true⟩
            tableCount := 1 }).vms vm = rootOnly phys := by
          rw [setVm_vms_self, hzero]
          rfl
        obtain ⟨s', ok, hcall, hholds, hframed, hcreated, hundone⟩ :=
          createRoot_spec (s := ⟨_, s.memory⟩) hinfo upper hargs.1 hinv hroot hnew hset
        exact ⟨s', ok, hcall, hholds, (framed_write _ hreserved).trans hframed,
          fun hok => ⟨hzero, upper, rfl, hcreated hok⟩, fun hok => Or.inr (hundone hok)⟩

/-! ## Ownership -/

/-- The direct map reaches the tables of the object. -/
def TablesMapped (s : Machine) (vm : Nat) : Prop :=
  ∀ f ∈ (s.context.vms vm).tableFrames,
    (memoryPhysToVirt s.context.kernel f memoryPageSize).isSome = true

section Ownership

variable (h : Holds map vm elsewhere s) (hlive : Live vm (s.context.vms vm) s.memory)

include h hlive

/-- A walk is not refused a table when the direct map reaches the tables. -/
theorem not_refused (hmapped : TablesMapped s vm) {virt : Nat} (hv : Address lowerHalf virt) :
    ¬ Refused (s.context.vms vm).space.physicalMask (s.context.vms vm).space.rootPhys
      (slot s.memory) (tableAccess (s.context.vms vm).space.context s.context) virt := by
  rintro ⟨depth, f, hd, hf, htable⟩
  have hmem : f ∈ (s.context.vms vm).tableFrames := by
    rw [hlive.tableFrames_eq, hlive.tables_eq]
    exact ⟨_, path_dom hd hv.own, hf⟩
  have hallocated : f ∈ allocatedPages s.context.pmm := by
    rw [h.allocated]
    exact Or.inr (Or.inl hmem)
  rw [hlive.context, tableAccess, decide_eq_false_iff_not, not_not] at htable
  rcases htable with h1 | h1 | h1
  · exact absurd hmem (tableSlot_eq_limit.1 h1)
  · exact absurd hallocated h1
  · rw [Option.isNone_iff_eq_none] at h1
    have := hmapped f hmem
    rw [h1] at this
    cases this

/-- A query finds a page of the ledger when the direct map reaches the tables. -/
theorem queryLocked_mapped (hmapped : TablesMapped s vm) {i : Nat} (hi : i < userVmPageLimit)
    (hused : ((s.context.vms vm).pages i).allocated = true) :
    ∃ mapping, queryLocked s vm ((s.context.vms vm).pages i).virt = some mapping ∧
      mapping.mapped = true ∧ mapping.physical = ((s.context.vms vm).pages i).phys := by
  have hsound := hlive.page i hi hused
  have hv := address_of_valid hsound.valid
  have hdown := alignDown_self hsound.align
  have hout := queryLocked_spec h hlive hsound.valid
  generalize queryLocked s vm ((s.context.vms vm).pages i).virt = result at hout
  cases hout with
  | refused href => exact absurd href (not_refused h hlive hmapped hv)
  | absent _ hno => exact absurd hdown.symm (hno i hi hused)
  | page j access hj hjused hpage _ _ =>
    obtain rfl : j = i :=
      hlive.pageLedger.distinct_virt j i hj hi hjused hused (hpage.trans hdown)
    refine ⟨_, rfl, rfl, ?_⟩
    have halign := hsound.align
    show ((s.context.vms vm).pages j).phys + _ = _
    omega

/-- One round of the first loop of `ownership_valid`. -/
theorem tableEntryValid_live {i n : Nat} (hi : i < userVmTableLimit) :
    tableEntryValid s vm i n =
      some (n + if ((s.context.vms vm).tables i).allocated = true then 1 else 0) := by
  rw [tableEntryValid]
  simp only
  cases hused : ((s.context.vms vm).tables i).allocated with
  | false => simp
  | true =>
    have hpublished : ((s.context.vms vm).tables i).published = true := by
      by_contra hnot
      rw [Bool.not_eq_true] at hnot
      have hmem : ((s.context.vms vm).tables i).phys ∈ (s.context.vms vm).pendingFrames :=
        ⟨i, hi, by rw [UserVmTable.inWaiting, hused, hnot]; rfl, rfl⟩
      rw [hlive.pending] at hmem
      exact hmem
    have hallocated : ((s.context.vms vm).tables i).phys ∈ allocatedPages s.context.pmm := by
      rw [h.allocated]
      exact Or.inr (Or.inl ⟨i, hi, hused, rfl⟩)
    have hother : anyRange 0 i (fun j => ((s.context.vms vm).tables j).allocated = true ∧
        ((s.context.vms vm).tables j).phys = ((s.context.vms vm).tables i).phys) = false := by
      rw [anyRange_eq_false]
      intro j _ hj
      rw [decide_eq_false_iff_not]
      rintro ⟨hjused, hphys⟩
      have := hlive.tableLedger.distinct j i (hj.trans hi) hi hjused hused hphys
      omega
    have hpmm : pmmIsAllocatedPage s.context.pmm ((s.context.vms vm).tables i).phys = true :=
      hallocated
    have hok : ¬ (¬ ((s.context.vms vm).tables i).published = true ∨
        ¬ pmmIsAllocatedPage s.context.pmm ((s.context.vms vm).tables i).phys = true) := by
      simp [hpublished, hpmm]
    rw [if_neg (not_not.2 rfl), if_neg hok, hother]
    rfl

/-- One round of the second loop of `ownership_valid`. -/
theorem pageEntryValid_live (hmapped : TablesMapped s vm) {i n : Nat} (hi : i < userVmPageLimit) :
    pageEntryValid s vm i n =
      some (n + if ((s.context.vms vm).pages i).allocated = true then 1 else 0) := by
  rw [pageEntryValid]
  simp only
  cases hused : ((s.context.vms vm).pages i).allocated with
  | false => simp
  | true =>
    have halign := memoryIsPageAligned_iff.2 (hlive.page i hi hused).align
    have hnotable : tableSlot (s.context.vms vm) ((s.context.vms vm).pages i).phys =
        userVmTableLimit :=
      tableSlot_eq_limit.2 (Set.disjoint_right.1 hlive.apart ⟨i, hi, hused, rfl⟩)
    obtain ⟨mapping, hquery, hm, hphys⟩ := queryLocked_mapped h hlive hmapped hi hused
    have hother : anyRange 0 i (fun j => ((s.context.vms vm).pages j).allocated = true ∧
        (((s.context.vms vm).pages j).phys = ((s.context.vms vm).pages i).phys ∨
          ((s.context.vms vm).pages j).virt = ((s.context.vms vm).pages i).virt)) = false := by
      rw [anyRange_eq_false]
      intro j _ hj
      rw [decide_eq_false_iff_not]
      rintro ⟨hjused, hsame | hsame⟩
      · have := hlive.pageLedger.distinct_phys j i (hj.trans hi) hi hjused hused hsame
        omega
      · have := hlive.pageLedger.distinct_virt j i (hj.trans hi) hi hjused hused hsame
        omega
    have hok : ¬ (¬ memoryIsPageAligned ((s.context.vms vm).pages i).virt = true ∨
        tableSlot (s.context.vms vm) ((s.context.vms vm).pages i).phys ≠ userVmTableLimit) := by
      simp [halign, hnotable]
    have hok' : ¬ (¬ mapping.mapped = true ∨
        mapping.physical ≠ ((s.context.vms vm).pages i).phys) := by
      simp [hm, hphys]
    rw [if_neg (not_not.2 rfl), if_neg hok, hquery]
    simp only [Option.bind_eq_bind, Option.bind_some]
    rw [if_neg hok', hother]
    rfl

/-- The ledger of a live space passes its own check. -/
theorem ownershipValid_live (hmapped : TablesMapped s vm) : ownershipValid s vm = true := by
  -- Both loops count the slots in use.
  obtain ⟨tables, htables, htcount⟩ :
      ∃ n, forRangeM 0 userVmTableLimit (tableEntryValid s vm) 0 = some n ∧
        n = (occupied UserVmTable.allocated userVmTableLimit (s.context.vms vm).tables).card :=
    forRangeM_invariant
      (P := fun i n => n = (occupied UserVmTable.allocated i (s.context.vms vm).tables).card)
      (by decide) rfl fun i n _ hi hn =>
        ⟨_, tableEntryValid_live h hlive hi, by rw [hn, card_occupied_succ]⟩
  obtain ⟨pages, hpages, hpcount⟩ :
      ∃ n, forRangeM 0 userVmPageLimit (pageEntryValid s vm) 0 = some n ∧
        n = (occupied UserVmPage.allocated userVmPageLimit (s.context.vms vm).pages).card :=
    forRangeM_invariant
      (P := fun i n => n = (occupied UserVmPage.allocated i (s.context.vms vm).pages).card)
      (by decide) rfl fun i n _ hi hn =>
        ⟨_, pageEntryValid_live h hlive hmapped hi, by rw [hn, card_occupied_succ]⟩
  rw [ownershipValid, htables, hpages]
  simp only [decide_eq_true_eq]
  exact ⟨htcount.trans hlive.tableLedger.count.symm, hpcount.trans hlive.pageLedger.count.symm⟩

end Ownership

/-! ## Destruction -/

/-- The state of a loop that releases the frames of the used slots below `k`. -/
def Released (map : MemoryMap) (c : System) (used : Nat → Bool) (frame : Nat → Nat) (k : Nat)
    (c' : System) : Prop :=
  ∃ pmm, c' = { c with pmm } ∧ PmmInv map pmm ∧
    reservedPages pmm = reservedPages c.pmm ∧
    allocatedPages pmm = allocatedPages c.pmm \ {f | ∃ i, i < k ∧ used i = true ∧ frame i = f}

section Release

variable {c : System} {n : Nat} (used : Nat → Bool) (frame : Nat → Nat) (hinv : PmmInv map c.pmm)
  (hdist : ∀ i j, i < n → j < n → used i = true → used j = true → frame i = frame j → i = j)
  (hin : ∀ i, i < n → used i = true → frame i ∈ allocatedPages c.pmm)

include hdist hin

omit hdist hin in
theorem released_succ (k : Nat) : {f | ∃ i, i < k + 1 ∧ used i = true ∧ frame i = f} =
    {f | ∃ i, i < k ∧ used i = true ∧ frame i = f} ∪ {f | used k = true ∧ frame k = f} :=
  Set.ext fun _ => Nat.exists_lt_succ_right

theorem releaseLoop_step {k : Nat} {c' : System} (hk : k < n) (h : Released map c used frame k c') :
    ∃ c'', (if used k = true then releaseFrame c' (frame k) else some c') = some c'' ∧
      Released map c used frame (k + 1) c'' := by
  obtain ⟨pmm, rfl, hinv', hres, hset⟩ := h
  cases hused : used k with
  | false =>
    refine ⟨_, if_neg (by simp), pmm, rfl, hinv', hres, ?_⟩
    rw [hset, released_succ, hused]
    simp
  | true =>
    have hmem : frame k ∈ allocatedPages pmm := by
      rw [hset]
      refine ⟨hin k hk hused, ?_⟩
      rintro ⟨i, hi, hu, hf⟩
      have := hdist i k (hi.trans hk) hk hu hused hf
      omega
    obtain ⟨pmm', hrel, hinv'', hset'⟩ := releaseFrame_spec (c := { c with pmm }) hinv' hmem
    have hres' := releaseFrame_reserved (c := { c with pmm }) hinv' hrel
    refine ⟨_, (if_pos rfl).trans hrel, pmm', rfl, hinv'', hres'.trans hres, ?_⟩
    rw [hset']
    show allocatedPages pmm \ _ = _
    have hlast : {f | used k = true ∧ frame k = f} = {frame k} := by
      ext f
      simp [hused, eq_comm]
    rw [hset, released_succ, hlast, Set.sdiff_sdiff]

include hinv

/-- A loop that releases distinct allocated frames. -/
theorem releaseLoop_spec :
    ∃ c', forRangeM 0 n (fun i c => if used i = true then releaseFrame c (frame i) else some c) c =
        some c' ∧ Released map c used frame n c' :=
  forRangeM_invariant (P := Released map c used frame) (Nat.zero_le n)
    ⟨c.pmm, rfl, hinv, rfl, by simp⟩
    fun _ _ _ hk h => releaseLoop_step used frame hdist hin hk h

end Release

/-- The frames released by the loops and by the last step are those of the space. -/
theorem owned_eq_released {v : UserVm} (hl : TableLedger v) :
    v.owned = {f | ∃ i, i < userVmPageLimit ∧ (v.pages i).allocated = true ∧ (v.pages i).phys = f} ∪
      {f | ∃ k, k < userVmTableLimit - 1 ∧ (v.tables (userVmTableLimit - 1 - k)).allocated = true ∧
        (v.tables (userVmTableLimit - 1 - k)).phys = f} ∪ {(v.tables 0).phys} := by
  have hlimit : userVmTableLimit = 64 := rfl
  ext f
  rw [UserVm.owned, hlimit]
  constructor
  · rintro (⟨i, hi, hused, hf⟩ | hf)
    · by_cases h0 : i = 0
      · subst h0
        exact Or.inr hf.symm
      · refine Or.inl (Or.inr ⟨63 - i, by omega, ?_⟩)
        rw [show 64 - 1 - (63 - i) = i by omega]
        exact ⟨hused, hf⟩
    · exact Or.inl (Or.inl hf)
  · rintro ((hf | ⟨k, hk, hused, hf⟩) | hf)
    · exact Or.inr hf
    · exact Or.inl ⟨64 - 1 - k, by omega, hused, hf⟩
    · refine Or.inl ⟨0, by decide, ?_, hf.symm⟩
      rw [hl.root]

/-- When `user_vm_destroy` must succeed. -/
def Destroyable (s : Machine) (vm : Nat) : Prop :=
  ready s.context vm = true ∧ ownershipValid s vm = true ∧
    s.context.cr3 &&& (s.context.vms vm).space.physicalMask ≠ (s.context.vms vm).space.rootPhys

theorem userVmDestroy_spec (h : Holds map vm elsewhere s) :
    ∃ s' ok, userVmDestroy s vm = some (s', ok) ∧ Holds map vm elsewhere s' ∧
      Framed vm elsewhere s s' ∧ (ok = true → s'.context.vms vm = .zero) ∧
      (Destroyable s vm → ok = true) ∧ (ok = false → s' = s) := by
  rw [userVmDestroy]
  simp only
  split
  · rename_i hargs
    refine ⟨s, false, rfl, h, Framed.refl _ _ _, nofun, ?_, fun _ => rfl⟩
    rintro ⟨h1, h2, h3⟩
    rcases hargs with h' | h' | h'
    · exact absurd h1 h'
    · exact absurd h' h3
    · exact absurd h2 h'
  rename_i hargs
  simp only [not_or, not_not] at hargs
  have hlive := h.live_of_ready hargs.1
  obtain ⟨v, hv⟩ : ∃ v, v = s.context.vms vm := ⟨_, rfl⟩
  have hapart := h.apart
  have hallocated := h.allocated
  rw [← hv] at hlive hapart hallocated ⊢
  have hlimit : userVmTableLimit = 64 := rfl
  have hroot := hlive.tableLedger.root
  -- The three groups of frames are disjoint, so each release finds its frame allocated.
  have hpageIn : ∀ i, i < userVmPageLimit → (v.pages i).allocated = true →
      (v.pages i).phys ∈ allocatedPages s.context.pmm := by
    intro i hi hused
    rw [hallocated]
    exact Or.inr (Or.inr ⟨i, hi, hused, rfl⟩)
  obtain ⟨c1, hloop1, pmm1, rfl, hinv1, hres1, hset1⟩ :=
    releaseLoop_spec (fun i => (v.pages i).allocated)
    (fun i => (v.pages i).phys) h.pmm hlive.pageLedger.distinct_phys hpageIn
  have htableDist : ∀ i j, i < userVmTableLimit - 1 → j < userVmTableLimit - 1 →
      (v.tables (userVmTableLimit - 1 - i)).allocated = true →
      (v.tables (userVmTableLimit - 1 - j)).allocated = true →
      (v.tables (userVmTableLimit - 1 - i)).phys = (v.tables (userVmTableLimit - 1 - j)).phys →
      i = j := by
    intro i j hi hj hui huj hf
    have := hlive.tableLedger.distinct _ _ (by omega) (by omega) hui huj hf
    omega
  have htableIn : ∀ k, k < userVmTableLimit - 1 →
      (v.tables (userVmTableLimit - 1 - k)).allocated = true →
      (v.tables (userVmTableLimit - 1 - k)).phys ∈ allocatedPages pmm1 := by
    intro k hk hused
    have hmem : (v.tables (userVmTableLimit - 1 - k)).phys ∈ v.tableFrames :=
      ⟨_, by omega, hused, rfl⟩
    rw [hset1, hallocated]
    exact ⟨Or.inr (Or.inl hmem), Set.disjoint_left.1 hlive.apart hmem⟩
  obtain ⟨c2, hloop2, pmm2, rfl, hinv2, hres2, hset2⟩ := releaseLoop_spec
    (c := { s.context with pmm := pmm1 })
    (fun k => (v.tables (userVmTableLimit - 1 - k)).allocated)
    (fun k => (v.tables (userVmTableLimit - 1 - k)).phys) hinv1 htableDist htableIn
  have hrootMem : (v.tables 0).phys ∈ allocatedPages pmm2 := by
    have hmem : (v.tables 0).phys ∈ v.tableFrames := ⟨0, by decide, by rw [hroot], rfl⟩
    rw [hset2]
    show _ ∈ allocatedPages pmm1 \ _
    rw [hset1, hallocated]
    refine ⟨⟨Or.inr (Or.inl hmem), Set.disjoint_left.1 hlive.apart hmem⟩, ?_⟩
    rintro ⟨k, hk, hused, hf⟩
    have := hlive.tableLedger.distinct _ 0 (by omega) (by decide) hused (by rw [hroot]) hf
    omega
  obtain ⟨pmm3, hrel, hinv3, hset3⟩ :=
    releaseFrame_spec (c := { s.context with pmm := pmm2 }) hinv2 hrootMem
  have hres3 : reservedPages pmm3 = reservedPages s.context.pmm :=
    (releaseFrame_reserved (c := { s.context with pmm := pmm2 }) hinv2 hrel).trans
      (hres2.trans hres1)
  have hfinal : allocatedPages pmm3 = elsewhere := by
    rw [hset3]
    show allocatedPages pmm2 \ _ = _
    rw [hset2]
    show (allocatedPages pmm1 \ _) \ _ = _
    rw [hset1, hallocated, Set.sdiff_sdiff, Set.sdiff_sdiff, ← Set.union_assoc,
      ← owned_eq_released hlive.tableLedger, Set.union_sdiff_right]
    exact hapart.sdiff_eq_left
  refine ⟨⟨{ s.context with pmm := pmm3 }.setVm vm .zero, s.memory⟩, true, ?_,
    holds_zero hinv3 (setVm_vms_self _ _ _) hfinal, framed_write _ hres3,
    fun _ => setVm_vms_self _ _ _, fun _ => rfl, nofun⟩
  rw [hloop1]
  simp only [Option.bind_eq_bind, Option.bind_some, Option.pure_def]
  rw [hloop2, Option.bind_some, hrel, Option.bind_some]

end Utamo.AddressSpace
