import Utamo.AddressSpace.Lifetime
import Utamo.Lib.Transition
import Utamo.Pmm.Runs

/-!
# All address spaces over one memory manager

A run of the system starts with a memory manager in any state it can reach and with all objects
unused. The calls come in any order, on any objects and with any arguments; between them the rest of
the kernel and the programs may load the control registers, write every byte outside the page tables
of the spaces, and take and return frames of their own.

`SystemInv` is the invariant of these runs. Its step lemma `SystemInv.step` needs of an operation
only what `Holds` and `Framed` say. Isolation follows from it, and with the frames of everyone else
held fixed the same two facts give the ledger invariant of one space from its creation to its
destruction.
-/

set_option autoImplicit false

namespace Utamo.AddressSpace

open Lib Lib.ByteMemory Lib.Ledger Memory Pmm Vmm

variable {vm : Nat} {s : Machine}

/-! ## Calls -/

/-- The calls on an object. -/
inductive UserVmCall
  | create
  | allocPage (virt : Nat) (access : UInt32)
  | unmapPage (virt : Nat)
  | protectPage (virt : Nat) (access : UInt32)
  | query (virt : Nat)
  | copyFrom (kernelDst userSrc bytes : Nat)
  | copyTo (userDst : Nat) (kernelSrc : Option (List UInt8)) (bytes : Nat)
  | destroy

/-- A call on the object at `vm`; `none` is a panic. -/
def callExec (s : Machine) (vm : Nat) : UserVmCall → Option (Machine × Bool)
  | .create => userVmCreate s vm
  | .allocPage virt access => userVmAllocPage s vm virt access
  | .unmapPage virt => userVmUnmapPage s vm virt
  | .protectPage virt access => some (userVmProtectPage s vm virt access)
  | .query virt => some (s, (userVmQuery s vm virt).isSome)
  | .copyFrom kernelDst userSrc bytes =>
    some (s, (userVmCopyFrom s vm kernelDst userSrc bytes).isSome)
  | .copyTo userDst kernelSrc bytes => some (userVmCopyTo s vm userDst kernelSrc bytes)
  | .destroy => userVmDestroy s vm

/-- A call on a space in use returns, keeps it in order and leaves everyone else alone. -/
theorem callExec_use {map : MemoryMap} {elsewhere : Set Nat}
    (h : Holds map vm elsewhere s) {call : UserVmCall} (huse : call ≠ .create ∧ call ≠ .destroy) :
    ∃ s' ok, callExec s vm call = some (s', ok) ∧ Kept map vm elsewhere s s' := by
  cases call with
  | create => exact absurd rfl huse.1
  | allocPage virt access =>
    obtain ⟨s', ok, hcall, hkept, -⟩ := userVmAllocPage_spec h virt access
    exact ⟨s', ok, hcall, hkept⟩
  | unmapPage virt =>
    obtain ⟨s', ok, hcall, hkept, -⟩ := userVmUnmapPage_spec h virt
    exact ⟨s', ok, hcall, hkept⟩
  | protectPage virt access =>
    obtain ⟨s', ok, hcall, hkept, -⟩ := userVmProtectPage_spec h virt access
    exact ⟨s', ok, congrArg some hcall, hkept⟩
  | query virt => exact ⟨s, _, rfl, Kept.refl h⟩
  | copyFrom kernelDst userSrc bytes => exact ⟨s, _, rfl, Kept.refl h⟩
  | copyTo userDst kernelSrc bytes =>
    obtain ⟨s', ok, hcall, hkept, -⟩ := userVmCopyTo_spec h userDst kernelSrc bytes
    exact ⟨s', ok, congrArg some hcall, hkept⟩
  | destroy => exact absurd rfl huse.2

/-- So does every call. -/
theorem callExec_spec {map : MemoryMap} {elsewhere : Set Nat}
    (h : Holds map vm elsewhere s) (call : UserVmCall) :
    ∃ s' ok, callExec s vm call = some (s', ok) ∧ Holds map vm elsewhere s' ∧
      Framed vm elsewhere s s' := by
  by_cases hcreate : call = .create
  · obtain ⟨s', ok, hcall, hholds, hframed, -⟩ := userVmCreate_spec h
    exact ⟨s', ok, by rw [hcreate]; exact hcall, hholds, hframed⟩
  by_cases hdestroy : call = .destroy
  · obtain ⟨s', ok, hcall, hholds, hframed, -⟩ := userVmDestroy_spec h
    exact ⟨s', ok, by rw [hdestroy]; exact hcall, hholds, hframed⟩
  obtain ⟨s', ok, hcall, hkept⟩ := callExec_use h ⟨hcreate, hdestroy⟩
  exact ⟨s', ok, hcall, hkept.holds, hkept.framed⟩

/-! ## Runs of the system -/

/-- What happens to the system. -/
inductive SystemEvent
  | call (vm : Nat) (call : UserVmCall)
  | run (memory : ByteMemory) (cr3 cr4 : Nat)
  | take
  | give (phys : Nat)

def systemExec (s : Machine) : SystemEvent → Option Machine
  | .call vm call => (callExec s vm call).map Prod.fst
  | .run memory cr3 cr4 => some ⟨{ s.context with cr3, cr4 }, memory⟩
  | .take => some ⟨{ s.context with pmm := (pmmAllocPage s.context.pmm).1 }, s.memory⟩
  | .give phys => some ⟨{ s.context with pmm := (pmmFreePage s.context.pmm phys).1 }, s.memory⟩

/-- The rest of the kernel and the programs write no page table of a space and return no frame of a
space. -/
def systemEnabled (s : Machine) : SystemEvent → Prop
  | .call _ _ => True
  | .run memory _ _ =>
    ∀ vm x, frameOf x ∈ (s.context.vms vm).tableFrames → memory x = s.memory x
  | .take => True
  | .give phys => ∀ vm, phys ∉ (s.context.vms vm).owned

/-- A memory manager in a state it can reach, and no address spaces. -/
def systemStart (s : Machine) : Prop :=
  (∃ run, PmmReachable run ∧ run.state = s.context.pmm) ∧ ∀ vm, s.context.vms vm = .zero

def SystemReachable (s : Machine) : Prop := Reachable systemStart systemEnabled systemExec s

/-! ## The invariant of the system -/

structure SystemInv (map : MemoryMap) (s : Machine) : Prop where
  pmm : PmmInv map s.context.pmm
  state : ∀ vm, s.context.vms vm = .zero ∨ Live vm (s.context.vms vm) s.memory
  apart : ∀ v w, v ≠ w → Disjoint (s.context.vms v).owned (s.context.vms w).owned
  allocated : ∀ vm, (s.context.vms vm).owned ⊆ allocatedPages s.context.pmm

/-- The allocated frames that are not those of the object. -/
def elsewhereOf (s : Machine) (vm : Nat) : Set Nat :=
  allocatedPages s.context.pmm \ (s.context.vms vm).owned

section System

variable {map : MemoryMap} {s s' : Machine}

theorem SystemInv.holds (h : SystemInv map s) (vm : Nat) : Holds map vm (elsewhereOf s vm) s :=
  ⟨h.pmm, h.state vm, Set.disjoint_sdiff_left, (Set.sdiff_union_of_subset (h.allocated vm)).symm⟩

/-- The frames of one object are elsewhere for another. -/
theorem SystemInv.owned_elsewhere (h : SystemInv map s) {v w : Nat} (hne : w ≠ v) :
    (s.context.vms w).owned ⊆ elsewhereOf s v :=
  fun _ hf => ⟨h.allocated w hf, Set.disjoint_left.1 (h.apart w v hne) hf⟩

/-- An operation that keeps its own space in order and leaves everyone else alone keeps the
invariant. -/
theorem SystemInv.step (h : SystemInv map s)
    (hholds : Holds map vm (elsewhereOf s vm) s') (hframed : Framed vm (elsewhereOf s vm) s s') :
    SystemInv map s' := by
  have hother : ∀ w, w ≠ vm → Disjoint (s'.context.vms vm).owned (s'.context.vms w).owned := by
    intro w hw
    rw [hframed.vms w hw]
    exact (hholds.apart.mono_left (h.owned_elsewhere hw)).symm
  refine ⟨hholds.pmm, ?_, ?_, ?_⟩
  · intro w
    by_cases hw : w = vm
    · rw [hw]
      exact hholds.state
    · rw [hframed.vms w hw]
      rcases h.state w with hzero | hlive
      · exact Or.inl hzero
      · refine Or.inr (hlive.of_bytes fun x hx => hframed.bytes x ?_)
        exact h.owned_elsewhere hw (Or.inl hx)
  · intro v w hvw
    by_cases hv : v = vm
    · rw [hv] at hvw ⊢
      exact hother w hvw.symm
    · by_cases hw : w = vm
      · rw [hw]
        exact (hother v hv).symm
      · rw [hframed.vms v hv, hframed.vms w hw]
        exact h.apart v w hvw
  · intro w
    rw [hholds.allocated]
    by_cases hw : w = vm
    · rw [hw]
      exact Set.subset_union_right
    · rw [hframed.vms w hw]
      exact (h.owned_elsewhere hw).trans Set.subset_union_left

/-- Without any spaces there is only the memory manager. -/
theorem SystemInv.of_unused (hpmm : PmmInv map s.context.pmm)
    (hzero : ∀ vm, s.context.vms vm = .zero) :
    SystemInv map s := by
  refine ⟨hpmm, fun vm => Or.inl (hzero vm), fun v w _ => ?_, fun vm => ?_⟩
  · rw [hzero v, owned_zero]
    exact Set.empty_disjoint _
  · rw [hzero vm, owned_zero]
    exact Set.empty_subset _

theorem systemInv_start (h : systemStart s) : ∃ map, SystemInv map s := by
  obtain ⟨⟨run, hrun, hpmm⟩, hzero⟩ := h
  have hinv := (goodPmmRun_of_reachable hrun).inv
  rw [hpmm] at hinv
  exact ⟨run.map, .of_unused hinv hzero⟩

/-- Other owners of frames do not touch those of the spaces. -/
theorem SystemInv.of_pmm (h : SystemInv map s) {pmm : PmmState} (hinv : PmmInv map pmm)
    (hkeep : ∀ vm, (s.context.vms vm).owned ⊆ allocatedPages pmm) :
    SystemInv map ⟨{ s.context with pmm }, s.memory⟩ :=
  ⟨hinv, h.state, h.apart, hkeep⟩

theorem systemInv_step (h : SystemInv map s) {event : SystemEvent} (hen : systemEnabled s event)
    (hexec : systemExec s event = some s') : SystemInv map s' := by
  cases event with
  | call vm call =>
    obtain ⟨t, ok, hcall, hholds, hframed⟩ := callExec_spec (h.holds vm) call
    rw [systemExec, hcall] at hexec
    cases hexec
    exact h.step hholds hframed
  | run memory cr3 cr4 =>
    cases hexec
    refine ⟨h.pmm, fun vm => ?_, h.apart, h.allocated⟩
    rcases h.state vm with hzero | hlive
    · exact Or.inl hzero
    · exact Or.inr (hlive.of_bytes (hen vm))
  | take =>
    obtain ⟨pmm, result, halloc, hinv, -, hres⟩ := pmmAllocPage_spec h.pmm
    rw [systemExec, halloc] at hexec
    cases hexec
    refine h.of_pmm hinv fun vm => (h.allocated vm).trans ?_
    rcases hres with ⟨-, rfl⟩ | ⟨phys, -, -, hset⟩
    · exact subset_rfl
    · rw [hset]
      exact Set.subset_insert _ _
  | give phys =>
    obtain ⟨pmm, ok, hfree, hinv, hset⟩ := pmmFreePage_any h.pmm phys
    rw [systemExec, hfree] at hexec
    cases hexec
    refine h.of_pmm hinv fun vm f hf => hset ⟨h.allocated vm hf, ?_⟩
    rintro rfl
    exact hen vm hf

theorem systemInv_of_reachable (h : SystemReachable s) : ∃ map, SystemInv map s := by
  have hstart : ∀ t, systemStart t → ∃ map, SystemInv map t := fun _ => systemInv_start
  refine h.invariant hstart ?_
  rintro t event t' ⟨map, hinv⟩ hen hexec
  exact ⟨map, systemInv_step hinv hen hexec⟩

/-! ## What other spaces see -/

section Others

variable (h : SystemInv map s) {vm w : Nat} (hw : w ≠ vm) (h' : SystemInv map s')
  (hframed : Framed vm (elsewhereOf s vm) s s')

include h hw h' hframed

theorem SystemInv.query_other (virt : Nat) : queryLocked s' w virt = queryLocked s w virt := by
  have hvm := hframed.vms w hw
  rcases h.state w with hzero | hlive
  · rw [queryLocked, queryLocked, ready_zero hzero, ready_zero (hvm.trans hzero)]
    rfl
  · refine queryLocked_congr hvm hframed.kernel ?_ hlive.context ?_ virt
    · intro f hf
      have hbefore : pmmIsAllocatedPage s.context.pmm f = true := h.allocated w hf
      have hafter : pmmIsAllocatedPage s'.context.pmm f = true := h'.allocated w (hvm.symm ▸ hf)
      rw [hbefore, hafter]
    · refine fun f hf => ⟨(hlive.table_frame hf).align, fun x hx => hframed.bytes x ?_⟩
      refine h.owned_elsewhere hw ?_
      rw [hx]
      exact Or.inl hf

omit h hw h' hframed in
theorem copyPreflightLoop_congr (hquery : ∀ virt, queryLocked s' w virt = queryLocked s w virt)
    (hkernel : s'.context.kernel = s.context.kernel) (write : Bool) (room virt remaining : Nat) :
    copyPreflightLoop s' w write room virt remaining =
      copyPreflightLoop s w write room virt remaining := by
  induction room generalizing virt remaining with
  | zero => rfl
  | succ room ih =>
    rw [copyPreflightLoop, copyPreflightLoop]
    simp only [hquery, hkernel, ih]

theorem SystemInv.copyFrom_other (kernelDst userSrc bytes : Nat) :
    userVmCopyFrom s' w kernelDst userSrc bytes = userVmCopyFrom s w kernelDst userSrc bytes := by
  have hquery := h.query_other hw h' hframed
  have hready : ready s'.context w = ready s.context w := by
    rw [ready, ready, hframed.vms w hw]
  have hflight : copyPreflight s' w userSrc bytes false =
      copyPreflight s w userSrc bytes false := by
    rw [copyPreflight, copyPreflight, hready,
      copyPreflightLoop_congr hquery hframed.kernel false _ _ _]
  rw [userVmCopyFrom, userVmCopyFrom, hflight]
  split
  · rfl
  cases hchunks : copyPreflight s w userSrc bytes false with
  | none => rfl
  | some chunks =>
    -- The chunks lie in pages of the other space, and their bytes are what they were.
    have hin := copyPreflight_spec (h.holds w) hchunks
    have hbytes : copyOut s'.memory chunks = copyOut s.memory chunks := by
      refine List.flatMap_congr fun chunk hmem => ?_
      refine List.map_congr_left fun i hi => hframed.bytes _ ?_
      rw [List.mem_range] at hi
      exact h.owned_elsewhere hw (Or.inr (hin chunk hmem _ (by omega) (by omega)))
    simp only [Option.bind_eq_bind, Option.bind_some, Option.pure_def, hbytes]

end Others

end System

/-! ## A small machine -/

/-- Sixteen usable frames, and one of the boot loader with the root table of the kernel. -/
def tinyMap : MemoryMap :=
  ⟨[⟨0, 0x10000, .usable⟩, ⟨0x10000, 0x1000, .bootloaderReclaimable⟩], 0x10000, 0x1000⟩

theorem tinyMap_built : MapBuilt tinyMap := @MapBuilt.run _ _ .init tinyMap.regions (by decide)

/-- The memory manager for the map, with its bitmaps at `0x100`. -/
def tinyRun : PmmRun :=
  ⟨tinyMap, (pmmCoreInit zeroState tinyMap ⟨0x1000, 0x1000, 2, 16⟩ 0x100).getD zeroState, ∅, ∅, ∅⟩

theorem tinyRun_start : pmmStart tinyRun :=
  pmmStart_init tinyMap_built (by decide) (by decide +kernel)

/-- The kernel after `memory_init`. -/
def tinyKernel : KernelVmm where
  directMap := (hhdmInit ⟨tinyMap, 0, 0, false⟩ tinyMap 0xffff800000000000 36).getD
    ⟨tinyMap, 0, 0, false⟩
  information := ⟨0x10000, 36, true⟩
  ready := true

/-- The machine before the first address space; the root of the kernel has an entry for the dynamic
part of the upper half. -/
def tinyMachine : Machine where
  context := ⟨tinyRun.state, tinyKernel, fun _ => .zero, 0x10000, 0⟩
  memory := store64 (fun _ => 0) (entryAddress 0x10000 (memoryPageIndex vmmDynamicBase 4))
    vmmNewParentFlags

theorem tinyMachine_reachable : SystemReachable tinyMachine :=
  .start ⟨⟨tinyRun, .start tinyRun_start, rfl⟩, fun _ => rfl⟩

/-- The small machine after the calls. -/
def tinyAfter (calls : List (Nat × UserVmCall)) : Machine :=
  (calls.map fun c => SystemEvent.call c.1 c.2).foldl
    (fun s event => (systemExec s event).getD s) tinyMachine

theorem tinyAfter_reachable (calls : List (Nat × UserVmCall)) :
    SystemReachable (tinyAfter calls) := by
  refine tinyMachine_reachable.foldl_getD fun event hmem t => ?_
  obtain ⟨c, -, rfl⟩ := List.mem_map.1 hmem
  trivial

/-- In every run, distinct address spaces own disjoint frames; and every call on one of them returns
and changes neither the object of another, nor what a query of another reports, nor the bytes that a
copy from another reads. -/
theorem user_vm_isolation {s : Machine} (h : SystemReachable s) :
    (∀ v w, v ≠ w → Disjoint ((s.context.vms v).tableFrames ∪ (s.context.vms v).pageFrames)
      ((s.context.vms w).tableFrames ∪ (s.context.vms w).pageFrames)) ∧
    ∀ v call, ∃ s' ok, callExec s v call = some (s', ok) ∧ ∀ w, w ≠ v →
      s'.context.vms w = s.context.vms w ∧
      (∀ virt, userVmQuery s' w virt = userVmQuery s w virt) ∧
      ∀ kernelDst userSrc bytes,
        userVmCopyFrom s' w kernelDst userSrc bytes =
          userVmCopyFrom s w kernelDst userSrc bytes := by
  obtain ⟨map, hinv⟩ := systemInv_of_reachable h
  refine ⟨hinv.apart, fun v call => ?_⟩
  obtain ⟨s', ok, hcall, hholds, hframed⟩ := callExec_spec (hinv.holds v) call
  have hinv' := hinv.step hholds hframed
  refine ⟨s', ok, hcall, fun w hw => ⟨hframed.vms w hw, ?_, ?_⟩⟩
  · exact hinv.query_other hw hinv' hframed
  · exact hinv.copyFrom_other hw hinv' hframed

/-- Two spaces with a page at the same address: different frames, of which neither is
the other's. -/
theorem user_vm_isolation_two :
    ∃ s, SystemReachable s ∧ (s.context.vms 8).pages 0 = ⟨0x40000, 0x3000, true⟩ ∧
      (s.context.vms 16).pages 0 = ⟨0x40000, 0x8000, true⟩ ∧
      0x3000 ∉ (s.context.vms 16).tableFrames ∪ (s.context.vms 16).pageFrames := by
  let calls : List (Nat × UserVmCall) :=
    [(8, .create), (8, .allocPage 0x40000 1), (16, .create), (16, .allocPage 0x40000 2)]
  have hpages : ((tinyAfter calls).context.vms 8).pages 0 = ⟨0x40000, 0x3000, true⟩ ∧
      ((tinyAfter calls).context.vms 16).pages 0 = ⟨0x40000, 0x8000, true⟩ := by decide +kernel
  have hreach := tinyAfter_reachable calls
  have hmem : 0x3000 ∈ ((tinyAfter calls).context.vms 8).tableFrames ∪
      ((tinyAfter calls).context.vms 8).pageFrames :=
    Or.inr ⟨0, by decide, by rw [hpages.1], by rw [hpages.1]⟩
  have hapart := (user_vm_isolation hreach).1 8 16 (by decide)
  exact ⟨_, hreach, hpages.1, hpages.2, Set.disjoint_left.1 hapart hmem⟩

/-! ## One space from creation to destruction -/

/-- What happens to a space in use: calls other than creation and destruction, writes of others
outside its page tables, and loads of the control registers. -/
inductive UseEvent
  | call (call : UserVmCall)
  | run (memory : ByteMemory) (cr3 cr4 : Nat)

def useExec (vm : Nat) (s : Machine) : UseEvent → Option Machine
  | .call call => (callExec s vm call).map Prod.fst
  | .run memory cr3 cr4 => some ⟨{ s.context with cr3, cr4 }, memory⟩

def useEnabled (vm : Nat) (s : Machine) : UseEvent → Prop
  | .call call => call ≠ .create ∧ call ≠ .destroy
  | .run memory _ _ => ∀ x, frameOf x ∈ (s.context.vms vm).tableFrames → memory x = s.memory x

/-- The states of a space after a successful `user_vm_create` in the state `start`. -/
def UseReachable (start : Machine) (vm : Nat) (s : Machine) : Prop :=
  Reachable (fun s => userVmCreate start vm = some (s, true)) (useEnabled vm) (useExec vm) s

/-- The ledgers are exactly the tables and pages of the tree below the root. -/
structure LedgerExact (s : Machine) (v : UserVm) : Prop where
  published : v.tableFrames = v.publishedFrames
  tables : v.publishedFrames =
    treeFrames v.space.physicalMask v.space.rootPhys lowerHalf (slot s.memory)
  pages : ∀ virt phys, virt % 4096 = 0 → virt < userVmEnd →
    ((∃ i, i < userVmPageLimit ∧ v.pages i = ⟨virt, phys, true⟩) ↔
      leafAt v.space.physicalMask v.space.rootPhys (slot s.memory) virt ≠ 0 ∧
        leafAt v.space.physicalMask v.space.rootPhys (slot s.memory) virt &&& v.space.physicalMask =
          phys)
  allocated : v.owned ⊆ allocatedPages s.context.pmm
  apart : Disjoint v.tableFrames v.pageFrames
  distinct_tables : Distinct UserVmTable.allocated userVmTableLimit UserVmTable.phys v.tables
  distinct_frames : Distinct UserVmPage.allocated userVmPageLimit UserVmPage.phys v.pages
  distinct_pages : Distinct UserVmPage.allocated userVmPageLimit UserVmPage.virt v.pages
  tableCount : v.tableCount = (occupied UserVmTable.allocated userVmTableLimit v.tables).card
  pageCount : v.pageCount = (occupied UserVmPage.allocated userVmPageLimit v.pages).card

section Use

variable {map : MemoryMap} {vm : Nat} {elsewhere : Set Nat} {s : Machine}

theorem Live.page_iff {v : UserVm} {memory : ByteMemory} (hlive : Live vm v memory)
    {virt phys : Nat} (halign : virt % 4096 = 0) (hvirt : virt < userVmEnd) :
    (∃ i, i < userVmPageLimit ∧ v.pages i = ⟨virt, phys, true⟩) ↔
      leafAt v.space.physicalMask v.space.rootPhys (slot memory) virt ≠ 0 ∧
        leafAt v.space.physicalMask v.space.rootPhys (slot memory) virt &&& v.space.physicalMask =
          phys := by
  have hmask := hlive.tree.mask_within
  have hdown := alignDown_self halign
  have hleaf := hlive.leaves virt (address_iff.2 hvirt)
  generalize leafAt v.space.physicalMask v.space.rootPhys (slot memory) virt = leaf at hleaf ⊢
  cases hleaf with
  | absent h0 hno =>
    refine iff_of_false ?_ fun h => h.1 h0
    rintro ⟨i, hi, he⟩
    refine hno i hi (by rw [he]) ?_
    rw [he, hdown]
  | page j access hj hused hpage haccess he =>
    have hframe := (hlive.page j hj hused).frame
    have hflags := (accessFlags_user haccess).ok
    rw [he, packed_mask hmask hframe hflags]
    constructor
    · rintro ⟨i, hi, hei⟩
      refine ⟨packed_ne_zero hmask hframe hflags, ?_⟩
      have hij : i = j := hlive.pageLedger.distinct_virt i j hi hj (by rw [hei]) hused
        (by rw [hei, hpage, hdown])
      rw [← hij, hei]
    · rintro ⟨-, hphys⟩
      refine ⟨j, hj, ?_⟩
      rw [← hphys, ← hdown, ← hpage, ← hused]

theorem Holds.ledger_exact (h : Holds map vm elsewhere s)
    (hlive : Live vm (s.context.vms vm) s.memory) : LedgerExact s (s.context.vms vm) where
  published := hlive.tableFrames_eq
  tables := hlive.tables_eq
  pages := fun _ _ halign hvirt => hlive.page_iff halign hvirt
  allocated := by
    rw [h.allocated]
    exact Set.subset_union_right
  apart := hlive.apart
  distinct_tables := hlive.tableLedger.distinct
  distinct_frames := hlive.pageLedger.distinct_phys
  distinct_pages := hlive.pageLedger.distinct_virt
  tableCount := hlive.tableLedger.count
  pageCount := hlive.pageLedger.count

theorem Holds.live (h : Holds map vm elsewhere s)
    (hinit : (s.context.vms vm).initialized = true) : Live vm (s.context.vms vm) s.memory := by
  rcases h.state with hzero | hlive
  · rw [hzero] at hinit
    cases hinit
  · exact hlive

/-- The invariant of a space in use: everyone else owns what was allocated before its creation. -/
structure InUse (map : MemoryMap) (vm : Nat) (elsewhere : Set Nat) (s : Machine) : Prop where
  holds : Holds map vm elsewhere s
  initialized : (s.context.vms vm).initialized = true

theorem InUse.start {start : Machine} (hinv : SystemInv map start)
    (hcreate : userVmCreate start vm = some (s, true)) :
    InUse map vm (allocatedPages start.context.pmm) s := by
  obtain ⟨s', ok, hcall, hholds, -, hlive, -⟩ := userVmCreate_spec (hinv.holds vm)
  rw [hcreate] at hcall
  cases hcall
  obtain ⟨hzero, upper, -, hcreated⟩ := hlive rfl
  rw [elsewhereOf, hzero, owned_zero, Set.sdiff_empty] at hholds
  exact ⟨hholds, hcreated.live.initialized⟩

theorem InUse.step (h : InUse map vm elsewhere s) {event : UseEvent} (hen : useEnabled vm s event)
    {s' : Machine} (hexec : useExec vm s event = some s') : InUse map vm elsewhere s' := by
  cases event with
  | call call =>
    obtain ⟨t, ok, hcall, hkept⟩ := callExec_use h.holds hen
    rw [useExec, hcall] at hexec
    cases hexec
    exact ⟨hkept.holds, hkept.initialized.trans h.initialized⟩
  | run memory cr3 cr4 =>
    cases hexec
    have hlive := (h.holds.live h.initialized).of_bytes hen
    exact ⟨⟨h.holds.pmm, Or.inr hlive, h.holds.apart, h.holds.allocated⟩, h.initialized⟩

theorem inUse_of_reachable {start : Machine} (hinv : SystemInv map start)
    (h : UseReachable start vm s) : InUse map vm (allocatedPages start.context.pmm) s :=
  h.invariant (fun _ => InUse.start hinv) fun _ _ _ hs hen hexec => hs.step hen hexec

end Use

/-- From a successful creation on, in every run of calls: no call panics; the ledgers are exactly
the tables and pages of the space; and where the direct map reaches every allocated frame,
`ownership_valid` holds and `user_vm_destroy` succeeds unless the root is active, after which the
allocated frames are those from before the creation. -/
theorem user_vm_ledger {start s : Machine} {vm : Nat} (hstart : SystemReachable start)
    (h : UseReachable start vm s) :
    (∀ call, ∃ s' ok, callExec s vm call = some (s', ok)) ∧
    LedgerExact s (s.context.vms vm) ∧
    ((∀ f ∈ allocatedPages s.context.pmm,
        (memoryPhysToVirt s.context.kernel f memoryPageSize).isSome = true) →
      ownershipValid s vm = true ∧
      (s.context.cr3 &&& (s.context.vms vm).space.physicalMask ≠ (s.context.vms vm).space.rootPhys →
        ∃ s', userVmDestroy s vm = some (s', true) ∧ s'.context.vms vm = .zero ∧
          allocatedPages s'.context.pmm = allocatedPages start.context.pmm)) := by
  obtain ⟨map, hinv⟩ := systemInv_of_reachable hstart
  have huse := inUse_of_reachable hinv h
  have hholds := huse.holds
  have hlive := hholds.live huse.initialized
  refine ⟨fun call => ?_, hholds.ledger_exact hlive, fun hdirect => ?_⟩
  · obtain ⟨s', ok, hcall, -, -⟩ := callExec_spec hholds call
    exact ⟨s', ok, hcall⟩
  · have hmapped : TablesMapped s vm := by
      intro f hf
      refine hdirect f ?_
      rw [hholds.allocated]
      exact Or.inr (Or.inl hf)
    have hvalid := ownershipValid_live hholds hlive hmapped
    refine ⟨hvalid, fun hinactive => ?_⟩
    obtain ⟨s', ok, hcall, hholds', -, hzero, hok, -⟩ := userVmDestroy_spec hholds
    obtain rfl := hok ⟨hlive.ready, hvalid, hinactive⟩
    refine ⟨s', hcall, hzero rfl, ?_⟩
    rw [hholds'.allocated, hzero rfl, owned_zero, Set.union_empty]

/-- A page is mapped and the space destroyed again; the direct map reaches all sixteen frames. -/
theorem user_vm_ledger_one :
    ∃ s s', UseReachable tinyMachine 8 s ∧ (s.context.vms 8).pages 0 = ⟨0x40000, 0x3000, true⟩ ∧
      userVmDestroy s 8 = some (s', true) ∧
      allocatedPages s'.context.pmm = allocatedPages tinyMachine.context.pmm := by
  have hcreated : (userVmCreate tinyMachine 8).map Prod.snd = some true := by decide +kernel
  obtain ⟨⟨t, ok⟩, hcreate, hok⟩ := Option.map_eq_some_iff.1 hcreated
  obtain rfl : ok = true := hok
  have hvalues : ((userVmCreate tinyMachine 8).bind fun r =>
      useExec 8 r.1 (.call (.allocPage 0x40000 1))).map (fun s =>
        ((s.context.vms 8).pages 0, s.context.pmm.initialized, s.context.pmm.plan.spanFrames,
          s.context.cr3 &&& (s.context.vms 8).space.physicalMask, (s.context.vms 8).space.rootPhys,
          (List.range 16).all fun i =>
            (memoryPhysToVirt s.context.kernel (4096 * i) memoryPageSize).isSome)) =
      some (⟨0x40000, 0x3000, true⟩, true, 16, 0x10000, 0x2000, true) := by decide +kernel
  rw [hcreate, Option.bind_some] at hvalues
  obtain ⟨s, halloc, heq⟩ := Option.map_eq_some_iff.1 hvalues
  simp only [Prod.mk.injEq, List.all_eq_true, List.mem_range] at heq
  obtain ⟨hpage, hinit, hspan, hcr3, hroot, hdirect⟩ := heq
  have hstart : UseReachable tinyMachine 8 t := Reachable.start hcreate
  have hen : useEnabled 8 t (.call (.allocPage 0x40000 1)) := ⟨nofun, nofun⟩
  have hreach : UseReachable tinyMachine 8 s := hstart.step hen halloc
  obtain ⟨-, -, hledger⟩ := user_vm_ledger tinyMachine_reachable hreach
  have hmapped : ∀ f ∈ allocatedPages s.context.pmm,
      (memoryPhysToVirt s.context.kernel f memoryPageSize).isSome = true := by
    intro f hf
    obtain ⟨halign, hlt, -⟩ := (mem_allocatedPages hinit).1 hf
    obtain ⟨i, rfl⟩ : ∃ i, f = 4096 * i := ⟨f / 4096, by omega⟩
    exact hdirect i (by omega)
  obtain ⟨-, hdestroy⟩ := hledger hmapped
  obtain ⟨s', hcall, -, hpages⟩ := hdestroy (by rw [hcr3, hroot]; decide)
  exact ⟨s, s', hreach, hpage, hcall, hpages⟩

end Utamo.AddressSpace
