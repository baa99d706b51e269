import Utamo.AddressSpace.Ledger

/-!
# Address spaces in order

`Live` is the invariant of a `user_vm` between two operations: its tables are those of the tree
below its root, the pages of its ledger are the leaves of that tree, each with the flags of a valid
access, and the upper half of its root is not for users. `Holds` puts it into the system: the
frames of the space are allocated, and `elsewhere` are all others. `Framed` is what an operation on
one space leaves alone.

In such a state `query_locked` never contradicts the ledger (`queryLocked_eq`), and its answer
depends on the space itself only (`queryLocked_congr`).
-/

set_option autoImplicit false

namespace Utamo.AddressSpace

open Lib Lib.ByteMemory Lib.Ledger Memory Pmm Vmm

variable {virt : Nat} {c : System}

/-! ## Accesses and addresses -/

/-- The three accesses that are valid. -/
theorem validAccess_cases {access : UInt32} (h : validAccess access = true) :
    access = 0 ∨ access = 1 ∨ access = 2 := by
  rw [validAccess, decide_eq_true_eq] at h
  have hbits : ∀ i, 2 ≤ i → access.toNat.testBit i = false := by
    intro i hi
    have hand := congrArg (fun x : UInt32 => x.toNat.testBit i) h.1
    simp only [UInt32.toNat_and, Nat.testBit_and] at hand
    by_cases hlt : i < 32
    · have hmask : (~~~(userVmWrite ||| userVmExec)).toNat.testBit i = true := by
        interval_cases i <;> decide
      rw [hmask, Bool.and_true] at hand
      rw [hand]
      exact Nat.zero_testBit i
    · exact Nat.testBit_lt_two_pow
        (access.toNat_lt.trans_le (Nat.pow_le_pow_right (by decide) (by omega)))
  have hlt : access.toNat < 2 ^ 2 := Nat.lt_pow_two_of_testBit _ hbits
  have hne : access.toNat ≠ 3 := fun h3 => h.2 (UInt32.toNat_inj.1 h3)
  have hcases : access.toNat = 0 ∨ access.toNat = 1 ∨ access.toNat = 2 := by omega
  rcases hcases with h0 | h1 | h2
  · exact Or.inl (UInt32.toNat_inj.1 h0)
  · exact Or.inr (Or.inl (UInt32.toNat_inj.1 h1))
  · exact Or.inr (Or.inr (UInt32.toNat_inj.1 h2))

/-- The flags of a page that a user may access: never writable and executable. -/
structure UserFlags (flags : Nat) : Prop where
  ok : FlagsOk true flags
  user : flags &&& (vmmPresent ||| vmmUser) = vmmPresent ||| vmmUser
  leaf : flags &&& notU64 userVmLeafFlags = 0
  exclusive : ¬ (hasFlag flags vmmWritable = true ∧ ¬ hasFlag flags vmmNx = true)

theorem accessFlags_user {access : UInt32} (h : validAccess access = true) :
    UserFlags (accessFlags access) := by
  rcases validAccess_cases h with rfl | rfl | rfl
  · exact ⟨⟨by rw [Within]; decide, by decide, Or.inl rfl⟩, by decide, by decide, by decide⟩
  · exact ⟨⟨by rw [Within]; decide, by decide, Or.inl rfl⟩, by decide, by decide, by decide⟩
  · exact ⟨⟨by rw [Within]; decide, by decide, Or.inl rfl⟩, by decide, by decide, by decide⟩

/-- The flags of a valid access never include the global bit. -/
theorem UserFlags.not_global {flags : Nat} (h : UserFlags flags) :
    hasFlag flags vmmGlobal = false := by
  have hwithin : Within flags userVmLeafFlags :=
    within_of_and_not (h.ok.within.le.trans_lt (by decide)) h.leaf
  rw [hasFlag_eq_false]
  exact hwithin.and_eq_zero (by decide)

theorem UserFlags.user_bit {flags : Nat} (h : UserFlags flags) : hasFlag flags vmmUser = true := by
  have hbit : flags &&& vmmUser = vmmUser := by
    have hmask : (vmmPresent ||| vmmUser) &&& vmmUser = vmmUser := by decide
    rw [← hmask, ← Nat.and_assoc, h.user]
  rw [hasFlag, hbit]
  rfl

/-- The root entries of the lower half. -/
def lowerHalf (i : Nat) : Prop := i < 256

theorem address_iff : Address lowerHalf virt ↔ virt < userVmEnd := by
  have hend : userVmEnd = 2 ^ 47 := rfl
  have hindex : memoryPageIndex virt 4 = virt / 2 ^ 39 % 512 :=
    memoryPageIndex_eq (by decide) (by decide)
  constructor
  · rintro ⟨hcan, hlt, hown⟩
    rw [lowerHalf, hindex] at hown
    rw [memoryIsCanonical, decide_eq_true_eq] at hcan
    omega
  · intro h
    refine ⟨?_, by omega, ?_⟩
    · rw [memoryIsCanonical, decide_eq_true_eq]
      omega
    · rw [lowerHalf, hindex]
      omega

theorem address_of_valid (h : validAddress virt = true) : Address lowerHalf virt := by
  rw [validAddress, decide_eq_true_eq] at h
  exact address_iff.2 h.2

theorem alignDown_page (virt : Nat) : memoryAlignDown virt = virt / 4096 * 4096 := by
  have hsize : memoryPageSize = 4096 := rfl
  rw [memoryAlignDown, alignDown, hsize]
  omega

theorem alignDown_self (h : virt % 4096 = 0) : memoryAlignDown virt = virt := by
  rw [alignDown_page]
  omega

theorem samePage_iff {v w : Nat} : SamePage v w ↔ memoryAlignDown v = memoryAlignDown w := by
  rw [SamePage, alignDown_page, alignDown_page]
  omega

/-! ## The invariant -/

/-- The leaf of a page is what the ledger says: empty without an entry, and otherwise the frame of
the entry with the flags of a valid access. -/
inductive PageLeaf (pages : Nat → UserVmPage) (virt leaf : Nat) : Prop
  | absent : leaf = 0 → (∀ i, i < userVmPageLimit → (pages i).allocated = true →
      (pages i).virt ≠ memoryAlignDown virt) → PageLeaf pages virt leaf
  | page (i : Nat) (access : UInt32) : i < userVmPageLimit → (pages i).allocated = true →
      (pages i).virt = memoryAlignDown virt → validAccess access = true →
      leaf = (pages i).phys ||| accessFlags access → PageLeaf pages virt leaf

/-- An entry of the page ledger that is in use. -/
structure PageSound (mask : Nat) (entry : UserVmPage) : Prop where
  align : entry.virt % 4096 = 0
  valid : validAddress entry.virt = true
  frame : Frame mask entry.phys

/-- A `user_vm` between two operations. -/
structure Live (vm : Nat) (v : UserVm) (memory : ByteMemory) : Prop where
  address : vm ≠ 0
  initialized : v.initialized = true
  space_initialized : v.space.initialized = true
  nx : v.space.nxEnabled = true
  context : v.space.context = vm
  tableLedger : TableLedger v
  pageLedger : PageLedger v
  page : ∀ i, i < userVmPageLimit → (v.pages i).allocated = true →
    PageSound v.space.physicalMask (v.pages i)
  apart : Disjoint v.tableFrames v.pageFrames
  pending : v.pendingFrames = ∅
  tree : Tables v.space.physicalMask true lowerHalf v.space.rootPhys (slot memory)
  tables_eq : v.publishedFrames =
    treeFrames v.space.physicalMask v.space.rootPhys lowerHalf (slot memory)
  leaves : ∀ w, Address lowerHalf w →
    PageLeaf v.pages w (leafAt v.space.physicalMask v.space.rootPhys (slot memory) w)
  upper : ∀ i, 256 ≤ i → hasFlag (slot memory v.space.rootPhys i) vmmUser = false

/-- A `user_vm` in the system: unused or live, with its frames allocated. `elsewhere` are the
allocated frames of everyone else. -/
structure Holds (map : MemoryMap) (vm : Nat) (elsewhere : Set Nat) (s : Machine) : Prop where
  pmm : PmmInv map s.context.pmm
  state : s.context.vms vm = .zero ∨ Live vm (s.context.vms vm) s.memory
  apart : Disjoint elsewhere (s.context.vms vm).owned
  allocated : allocatedPages s.context.pmm = elsewhere ∪ (s.context.vms vm).owned

/-- What an operation on one `user_vm` leaves alone. -/
structure Framed (vm : Nat) (elsewhere : Set Nat) (s s' : Machine) : Prop where
  kernel : s'.context.kernel = s.context.kernel
  cr3 : s'.context.cr3 = s.context.cr3
  cr4 : s'.context.cr4 = s.context.cr4
  vms : ∀ w, w ≠ vm → s'.context.vms w = s.context.vms w
  bytes : ∀ x, frameOf x ∈ elsewhere → s'.memory x = s.memory x
  reserved : reservedPages s'.context.pmm = reservedPages s.context.pmm
  withdrawn : ∀ x, frameOf x ∈ reservedPages s.context.pmm → s'.memory x = s.memory x

theorem Framed.refl (vm : Nat) (elsewhere : Set Nat) (s : Machine) : Framed vm elsewhere s s :=
  ⟨rfl, rfl, rfl, fun _ _ => rfl, fun _ _ => rfl, rfl, fun _ _ => rfl⟩

section Live

variable {vm : Nat} {v : UserVm} {memory : ByteMemory} (hlive : Live vm v memory)

include hlive

theorem Live.space_on : SpaceOn v.space.toVmmSpace v.space.physicalMask true v.space.rootPhys :=
  ⟨hlive.space_initialized, rfl, hlive.nx, rfl⟩

theorem Live.tableFrames_eq : v.tableFrames = v.publishedFrames := by
  ext f
  rw [UserVm.mem_tableFrames, hlive.pending]
  simp

/-- The tables of the space are frames. -/
theorem Live.table_frame {f : Nat} (hf : f ∈ v.tableFrames) : Frame v.space.physicalMask f := by
  rw [hlive.tableFrames_eq, hlive.tables_eq] at hf
  obtain ⟨p, hp, hdesc⟩ := hf
  exact hlive.tree.frame hp hdesc

theorem Live.root_mem : v.space.rootPhys ∈ v.tableFrames := by
  have hroot := hlive.tableLedger.root
  exact ⟨0, by decide, by rw [hroot], by rw [hroot]⟩

/-- The tree depends on the bytes of the tables only. -/
theorem Live.tree_congr {memory' : ByteMemory}
    (h : ∀ x, frameOf x ∈ v.tableFrames → memory' x = memory x) :
    Tables v.space.physicalMask true lowerHalf v.space.rootPhys (slot memory') ∧
    (∀ p, Dom lowerHalf p →
      Radix.descend (next v.space.physicalMask) (slot memory') v.space.rootPhys p =
        Radix.descend (next v.space.physicalMask) (slot memory) v.space.rootPhys p) ∧
    ∀ w, lowerHalf (memoryPageIndex w 4) →
      leafAt v.space.physicalMask v.space.rootPhys (slot memory') w =
        leafAt v.space.physicalMask v.space.rootPhys (slot memory) w := by
  apply hlive.tree.congr
  intro p f i hp hf
  refine slot_congr (fun x hx => h x ?_) i
  rw [hx, hlive.tableFrames_eq, hlive.tables_eq]
  exact ⟨p, hp, hf⟩

/-- The invariant depends on the bytes of the tables only. -/
theorem Live.of_bytes {memory' : ByteMemory}
    (h : ∀ x, frameOf x ∈ v.tableFrames → memory' x = memory x) : Live vm v memory' := by
  obtain ⟨htree, hdesc, hleaf⟩ := hlive.tree_congr h
  refine { hlive with tree := htree, tables_eq := ?_, leaves := ?_, upper := ?_ }
  · rw [hlive.tables_eq, treeFrames_congr hdesc]
  · intro w hw
    rw [hleaf w hw.own]
    exact hlive.leaves w hw
  · intro i hi
    have hroot : slot memory' v.space.rootPhys i = slot memory v.space.rootPhys i := by
      refine slot_congr (fun x hx => h x ?_) i
      rw [hx]
      exact hlive.root_mem
    rw [hroot]
    exact hlive.upper i hi

end Live

theorem owned_zero : UserVm.zero.owned = ∅ := by
  ext f
  constructor
  · rintro (⟨i, -, ⟨⟩, -⟩ | ⟨i, -, ⟨⟩, -⟩)
  · rintro ⟨⟩

/-- A live space passes `ready`, an unused one does not. -/
theorem Live.ready {vm : Nat} {memory : ByteMemory}
    (hlive : Live vm (c.vms vm) memory) : AddressSpace.ready c vm = true := by
  have hroot := hlive.tableLedger.root
  have hmem : 0 ∈ occupied UserVmTable.allocated userVmTableLimit (c.vms vm).tables :=
    mem_occupied.2 ⟨by decide, by rw [hroot]⟩
  have hpos := Finset.card_pos.2 ⟨0, hmem⟩
  have hcount := hlive.tableLedger.count
  have hpages := hlive.pageLedger.count
  have h1 := card_occupied_le UserVmTable.allocated userVmTableLimit (c.vms vm).tables
  have h2 := card_occupied_le UserVmPage.allocated userVmPageLimit (c.vms vm).pages
  rw [AddressSpace.ready, decide_eq_true_eq, hroot]
  exact ⟨hlive.address, hlive.initialized, hlive.space_initialized, hlive.nx, hlive.context,
    by omega, by omega, by omega, rfl, rfl, rfl⟩

theorem ready_zero {vm : Nat} (h : c.vms vm = .zero) : ready c vm = false := by
  rw [ready, decide_eq_false_iff_not, h]
  rintro ⟨-, h, -⟩
  cases h

/-! ## Queries -/

section Query

variable {map : MemoryMap} {vm : Nat} {elsewhere : Set Nat} {s : Machine}

theorem Holds.live_of_ready (h : Holds map vm elsewhere s) (hready : ready s.context vm = true) :
    Live vm (s.context.vms vm) s.memory := by
  rcases h.state with hzero | hlive
  · rw [ready_zero hzero] at hready
    cases hready
  · exact hlive

/-- Only a live space answers queries. -/
theorem Holds.live_of_query (h : Holds map vm elsewhere s) {mapping : VmmMapping}
    (hquery : queryLocked s vm virt = some mapping) :
    Live vm (s.context.vms vm) s.memory ∧ validAddress virt = true := by
  rw [queryLocked] at hquery
  simp only at hquery
  split at hquery
  · cases hquery
  · rename_i hargs
    simp only [not_or, not_not] at hargs
    exact ⟨h.live_of_ready hargs.1, hargs.2⟩

/-- What a query of a live space reports: it is refused a table, or it finds what the
ledger says. -/
inductive QueryOutcome (s : Machine) (v : UserVm) (virt : Nat) : Option VmmMapping → Prop
  | refused : Refused v.space.physicalMask v.space.rootPhys (slot s.memory)
      (tableAccess v.space.context s.context) virt → QueryOutcome s v virt none
  | absent : leafAt v.space.physicalMask v.space.rootPhys (slot s.memory) virt = 0 →
      (∀ i, i < userVmPageLimit → (v.pages i).allocated = true →
        (v.pages i).virt ≠ memoryAlignDown virt) →
      QueryOutcome s v virt (some ⟨false, 0, 0, 0⟩)
  | page (i : Nat) (access : UInt32) : i < userVmPageLimit → (v.pages i).allocated = true →
      (v.pages i).virt = memoryAlignDown virt → validAccess access = true →
      leafAt v.space.physicalMask v.space.rootPhys (slot s.memory) virt =
        (v.pages i).phys ||| accessFlags access →
      QueryOutcome s v virt
        (some ⟨true, (v.pages i).phys + virt % 4096, accessFlags access, 4096⟩)

theorem vmmSpaceQuery_live {memory : ByteMemory} {v : UserVm} (hlive : Live vm v memory)
    (hvirt : validAddress virt = true) :
    QueryOutcome ⟨c, memory⟩ v virt (vmmSpaceQuery v.space.toVmmSpace ⟨c, memory⟩ virt) := by
  have hv := address_of_valid hvirt
  rcases vmmSpaceQuery_spec (s := ⟨c, memory⟩) hlive.space_on hlive.tree hv.canonical hv.own with
    ⟨hnone, href⟩ | hsome
  · rw [hnone]
    exact .refused href
  · rw [hsome]
    cases hlive.leaves virt hv with
    | absent hleaf hno =>
      rw [hleaf]
      exact .absent hleaf hno
    | page i access hi hused hpage haccess hleaf =>
      have hframe := (hlive.page i hi hused).frame
      have hflags := (accessFlags_user haccess).ok
      have hmask := hlive.tree.mask_within
      rw [hleaf, mappingOf, if_neg (packed_ne_zero hmask hframe hflags),
        packed_mask hmask hframe hflags, packed_flags hmask hframe hflags]
      exact .page i access hi hused hpage haccess hleaf

/-- The checks of `query_locked` against the ledger never fail. -/
theorem queryLocked_eq (h : Holds map vm elsewhere s)
    (hlive : Live vm (s.context.vms vm) s.memory) (hvirt : validAddress virt = true) :
    queryLocked s vm virt = vmmSpaceQuery (s.context.vms vm).space.toVmmSpace s virt := by
  have hargs : ¬ (¬ ready s.context vm = true ∨ ¬ validAddress virt = true) := by
    rw [hlive.ready, hvirt]
    simp
  have hout := vmmSpaceQuery_live hlive (c := s.context) hvirt
  rw [queryLocked]
  simp only [if_neg hargs]
  generalize hres : vmmSpaceQuery (s.context.vms vm).space.toVmmSpace s virt = result at hout ⊢
  cases hout with
  | refused _ => rfl
  | absent _ hno =>
    have hslot := pageSlot_eq_limit hno
    simp [hslot]
  | page i access hi hused hpage haccess _ =>
    have hsize : memoryPageSize = 4096 := rfl
    have hslot := pageSlot_eq hlive.pageLedger hi hused hpage
    have hflags := accessFlags_user haccess
    have hframe := (hlive.page i hi hused).frame
    have hdown : memoryAlignDown (((s.context.vms vm).pages i).phys + virt % 4096) =
        ((s.context.vms vm).pages i).phys := by
      have halign := hframe.align
      rw [alignDown_page]
      omega
    have halloc : pmmIsAllocatedPage s.context.pmm ((s.context.vms vm).pages i).phys = true := by
      have hmem : ((s.context.vms vm).pages i).phys ∈ allocatedPages s.context.pmm := by
        rw [h.allocated]
        exact Or.inr (Or.inr ⟨i, hi, hused, rfl⟩)
      exact hmem
    have howned : mappingOwned s.context (s.context.vms vm) i
        ⟨true, ((s.context.vms vm).pages i).phys + virt % 4096,
          accessFlags access, 4096⟩ = true := by
      rw [mappingOwned, decide_eq_true_eq]
      rintro (h1 | h1 | h1 | h1 | h1 | h1 | h1)
      · exact Nat.ne_of_lt hi h1
      · exact h1 hsize.symm
      · exact h1 hdown
      · exact h1 halloc
      · exact h1 hflags.user
      · exact h1 hflags.leaf
      · exact hflags.exclusive h1
    simp [hslot, howned]

theorem queryLocked_spec (h : Holds map vm elsewhere s)
    (hlive : Live vm (s.context.vms vm) s.memory) (hvirt : validAddress virt = true) :
    QueryOutcome s (s.context.vms vm) virt (queryLocked s vm virt) := by
  rw [queryLocked_eq h hlive hvirt]
  exact vmmSpaceQuery_live hlive hvirt

/-- A query depends on the object, its tables and the state of its own frames only. -/
theorem queryLocked_congr {s' : Machine} (hvm : s'.context.vms vm = s.context.vms vm)
    (hkernel : s'.context.kernel = s.context.kernel)
    (halloc : ∀ f ∈ (s.context.vms vm).owned,
      pmmIsAllocatedPage s'.context.pmm f = pmmIsAllocatedPage s.context.pmm f)
    (hcontext : (s.context.vms vm).space.context = vm)
    (hbytes : ∀ f ∈ (s.context.vms vm).tableFrames,
      f % 4096 = 0 ∧ ∀ x, frameOf x = f → s'.memory x = s.memory x) (virt : Nat) :
    queryLocked s' vm virt = queryLocked s vm virt := by
  have htable : ∀ f, tableAccess vm s'.context f = tableAccess vm s.context f := by
    intro f
    rw [tableAccess, tableAccess, hvm, hkernel]
    by_cases hf : f ∈ (s.context.vms vm).tableFrames
    · rw [halloc f (Or.inl hf)]
    · rw [tableSlot_eq_limit.2 hf]
      simp
  have hgranted : ∀ f, tableAccess vm s.context f = true → f ∈ (s.context.vms vm).tableFrames := by
    intro f hf
    by_contra hnot
    rw [tableAccess, decide_eq_true_eq] at hf
    exact hf (Or.inl (tableSlot_eq_limit.2 hnot))
  have hquery : vmmSpaceQuery (s.context.vms vm).space.toVmmSpace s' virt =
      vmmSpaceQuery (s.context.vms vm).space.toVmmSpace s virt := by
    have hops : (s.context.vms vm).space.toVmmSpace.ops.table = tableAccess vm := by
      rw [UserSpace.toVmmSpace, hcontext]
      rfl
    apply vmmSpaceQuery_congr
    · rw [hops]
      exact htable
    · rw [hops]
      exact fun f hf => hbytes f (hgranted f hf)
  have hready : ready s'.context vm = ready s.context vm := by
    rw [ready, ready, hvm]
  have howned : ∀ mapping, mappingOwned s'.context (s.context.vms vm)
      (pageSlot (s.context.vms vm) virt) mapping =
        mappingOwned s.context (s.context.vms vm) (pageSlot (s.context.vms vm) virt) mapping := by
    intro mapping
    rw [mappingOwned, mappingOwned]
    rcases firstIndex_cases 0 userVmPageLimit fun i =>
        decide (((s.context.vms vm).pages i).allocated =
        true ∧ ((s.context.vms vm).pages i).virt = memoryAlignDown virt) with
      ⟨hslot, -⟩ | ⟨i, hslot, -, hi, htest⟩
    · rw [pageSlot, hslot]
      simp
    · rw [decide_eq_true_eq] at htest
      rw [pageSlot, hslot, halloc _ (Or.inr ⟨i, hi, htest.1, rfl⟩)]
  rw [queryLocked, queryLocked]
  simp only [hvm, hready, hquery, howned]

end Query

end Utamo.AddressSpace
