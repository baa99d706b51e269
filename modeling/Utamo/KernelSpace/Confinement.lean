import Utamo.KernelSpace.Runs

/-!
# The arena of the kernel

From the state that `memory_init` leaves, pages are mapped, unmapped and protected with arbitrary
arguments. `Confined` is what such a run keeps: the tables that the boot loader made are what they
were, except for the one entry of the root that leads to the dynamic part; all tables below that
entry are frames that the memory manager had at the start; and every page that is mapped was mapped
by `vmm_map_page`, in a state in which its frame was usable and allocated.

The other operations of the system may happen in between, except that no device aperture is mapped.
-/

set_option autoImplicit false

namespace Utamo.KernelSpace

open Lib Lib.ByteMemory Memory Pmm Vmm AddressSpace

variable {event : KernelEvent} {m : Machine} {virt : Nat}

/-! ## Runs -/

/-- The calls on pages, and what the rest of the system does: it does not write the tables of the
boot loader either. -/
def arenaEnabled (start s : KernelMachine) : KernelEvent → Prop
  | .mapMmio _ _ _ _ => False
  | event => kernelEnabled s event ∧ ∀ memory cr3 cr4, event = .user (.run memory cr3 cr4) →
      ∀ level phys, BootTable start level phys → ∀ x, frameOf x = phys → memory x = s.memory x

/-- The states after `s`, in a run that began in `start`. -/
def ArenaRun (start s : KernelMachine) : KernelMachine → Prop :=
  Reachable (fun t => t = s) (arenaEnabled start) kernelExec

/-- A page is mapped to `phys` by an earlier call of `vmm_map_page`, in the state `t`. -/
structure MappedAt (start s : KernelMachine) (virt phys : Nat) (t : KernelMachine) : Prop where
  before : ArenaRun start start t
  call : ∃ page flags t', SamePage page virt ∧ vmmMapPage t page phys flags = some (t', true) ∧
    ArenaRun start t' s
  usable : ∃ region, hhdmRegion t.context.system.kernel.directMap phys memoryPageSize =
    some region ∧
    region.type = .usable
  allocated : pmmIsAllocatedPage t.context.system.pmm phys = true

/-- A page with a permitted mapping. -/
structure Mapping (start s : KernelMachine) (virt phys flags : Nat) : Prop where
  leaf : kernelLeaf s virt = phys ||| flags
  frame : Frame (kernelMask s.context.system.kernel) phys
  valid : FlagsOk s.context.system.kernel.information.nxEnabled flags
  allowed : flags &&& refusedFlags = 0
  address : dynamicAddress virt = true
  mapped : ∃ t, MappedAt start s virt phys t

/-! ## The invariant -/

/-- The tables that the boot loader made are what they were at the start. -/
structure Inherits (start s : KernelMachine) : Prop where
  kernel : s.context.system.kernel = start.context.system.kernel
  reserved : reservedPages start.context.system.pmm ⊆ reservedPages s.context.system.pmm
  tables : ∀ f ∈ kernelTables s, f = start.context.system.kernel.information.rootPhys ∨
    f ∉ reservedPages start.context.system.pmm
  inherited : ∀ level phys, BootTable start level phys → ∀ i,
    ¬ (phys = start.context.system.kernel.information.rootPhys ∧ i = 384) →
    slot s.memory phys i = slot start.memory phys i

structure Confined (map : MemoryMap) (start s : KernelMachine) : Prop extends Inherits start s where
  run : ArenaRun start start s
  inv : KernelInv map s
  pages : ∀ virt, InDynamic virt → kernelLeaf s virt ≠ 0 →
    ∃ phys flags, Mapping start s virt phys flags

/-- The addresses of a page are in the arena together. -/
theorem dynamicAddress_samePage {v w : Nat} (h : SamePage v w) (hw : dynamicAddress w = true) :
    dynamicAddress v = true := by
  have hbase : vmmDynamicBase + 0x80000000 = mmioBase := rfl
  have hvalue : vmmDynamicBase = 0xffffc00000000000 := rfl
  have hsize : vmmDynamicSize = 2 ^ 39 := rfl
  have hwindow : mmioSize = 0x400000 := rfl
  rw [dynamicAddress, decide_eq_true_eq] at hw ⊢
  rw [SamePage] at h
  omega

section Mappings

variable {start s s' : KernelMachine} {virt phys flags : Nat}

theorem MappedAt.step {t : KernelMachine} (h : MappedAt start s virt phys t)
    (hen : arenaEnabled start s event) (hexec : kernelExec s event = some s') :
    MappedAt start s' virt phys t := by
  obtain ⟨page, flags, t', hsame, hcall, hrun⟩ := h.call
  exact ⟨h.before, ⟨page, flags, t', hsame, hcall, hrun.step hen hexec⟩, h.usable, h.allocated⟩

/-- A mapping stays as long as the entry of its page does. -/
theorem Mapping.step (h : Mapping start s virt phys flags)
    (hen : arenaEnabled start s event) (hexec : kernelExec s event = some s')
    (hkernel : s'.context.system.kernel = s.context.system.kernel)
    (hleaf : kernelLeaf s' virt = kernelLeaf s virt) : Mapping start s' virt phys flags := by
  obtain ⟨t, hmapped⟩ := h.mapped
  exact ⟨hleaf.trans h.leaf, hkernel ▸ h.frame, hkernel ▸ h.valid, h.allowed, h.address,
    t, hmapped.step hen hexec⟩

end Mappings

section Inherited

variable {map : MemoryMap} {start s s' : KernelMachine} (hstart : MemoryInitialized map start)
  (h : Inherits start s)

include hstart

/-- The tables of the boot loader are withdrawn from the memory manager. -/
theorem MemoryInitialized.inherited {level phys : Nat} (htable : BootTable start level phys) :
    phys % 4096 = 0 ∧ phys ∈ reservedPages start.context.system.pmm := by
  have haccepted := (hstart.tables level phys htable).1
  have halign : phys % 4096 = 0 := by
    have haccess := haccepted.access
    rw [kernelTableAccess] at haccess
    split at haccess
    · cases haccess
    split at haccess
    · cases haccess
    rename_i hok
    simp only [not_or, not_not] at hok
    exact memoryIsPageAligned_iff.1 hok.1
  exact ⟨halign, hstart.boot_reserved halign haccepted⟩

/-- At the start the root has no entry for the dynamic part. -/
theorem MemoryInitialized.dynamic_empty : ∀ i, dynamicSlot i →
    slot start.memory start.context.system.kernel.information.rootPhys i = 0 := by
  rintro i rfl
  rw [slot_eq hstart.root_frame.align (by decide)]
  exact hstart.empty

theorem inherits_start : Inherits start start := by
  have hmask := memoryPhysicalMask_within hstart.direct_map.mask
  obtain ⟨-, hframes⟩ := tables_empty start.context.system.kernel.information.nxEnabled hmask
    hstart.root_frame hstart.dynamic_empty
  refine ⟨rfl, subset_rfl, fun f hf => ?_, fun _ _ _ _ _ => rfl⟩
  rw [kernelTables, hframes] at hf
  exact Or.inl hf

include h

/-- Work on the kernel's space writes no inherited table, except for the dynamic entry
of the root. -/
theorem Inherits.of_work (hwork : KernelWork map s s') : Inherits start s' := by
  refine ⟨hwork.kernel.trans h.kernel, h.reserved.trans hwork.reserved, fun f hf => ?_,
    fun level phys htable i hi => ?_⟩
  · rw [hwork.tables] at hf
    rcases hf with hf | ⟨-, hnew⟩
    · exact h.tables f hf
    · exact Or.inr fun hold => hnew (h.reserved hold)
  · rw [← h.inherited level phys htable i hi]
    by_cases hroot : phys = start.context.system.kernel.information.rootPhys
    · have hforeign := hwork.untouched.foreign i fun hown => hi ⟨hroot, hown⟩
      rw [h.kernel] at hforeign
      rw [hroot]
      exact hforeign
    · have hreserved := (hstart.inherited htable).2
      refine slot_congr (fun x hx => hwork.untouched.bytes x ?_ ?_) i
      · rw [hx]
        exact Or.inr (h.reserved hreserved)
      · rw [hx]
        intro hmem
        rcases h.tables phys hmem with hphys | hnot
        · exact hroot hphys
        · exact hnot hreserved

/-- What an event of the rest of the system leaves alone. -/
structure UserFrame (start s : KernelMachine) (m : Machine) : Prop where
  kernel : m.context.kernel = s.context.system.kernel
  reserved : reservedPages m.context.pmm = reservedPages s.context.system.pmm
  bytes : ∀ x, frameOf x ∈ kernelTables s → m.memory x = s.memory x
  boot : ∀ level phys, BootTable start level phys → ∀ x, frameOf x = phys → m.memory x = s.memory x

omit hstart in
/-- Neither does what leaves all tables alone. -/
theorem Inherits.of_user (hinv : KernelInv map s) (hframe : UserFrame start s m) :
    Inherits start (withUserPart s m) := by
  obtain ⟨-, htables, -⟩ := hinv.user_tree hframe.kernel hframe.bytes
  refine ⟨hframe.kernel.trans h.kernel, ?_, fun f hf => ?_, fun level phys htable i hi => ?_⟩
  · show _ ⊆ reservedPages m.context.pmm
    rw [hframe.reserved]
    exact h.reserved
  · rw [htables] at hf
    exact h.tables f hf
  · rw [← h.inherited level phys htable i hi]
    exact slot_congr (hframe.boot level phys htable) i

/-- A private space writes frames of its own only, and programs write no table. -/
theorem userFrame_of_exec (hinv : KernelInv map s) {event : SystemEvent}
    (hen : kernelEnabled s (.user event))
    (hboot : ∀ memory cr3 cr4, KernelEvent.user event = .user (.run memory cr3 cr4) →
      ∀ level phys, BootTable start level phys → ∀ x, frameOf x = phys → memory x = s.memory x)
        (hexec : systemExec (userPart s) event = some m) : UserFrame start s m := by
  cases event with
  | call vm call =>
    obtain ⟨m', ok, hcall, -, hframed⟩ := callExec_spec (hinv.system.holds vm) call
    rw [systemExec, hcall] at hexec
    cases hexec
    refine ⟨hframed.kernel, hframed.reserved,
      fun x hx => hframed.withdrawn x (hinv.reserved hx), ?_⟩
    intro level phys htable x hx
    apply hframed.withdrawn
    rw [hx]
    exact h.reserved (hstart.inherited htable).2
  | run memory cr3 cr4 =>
    cases hexec
    exact ⟨rfl, rfl, hen.2 memory cr3 cr4 rfl, hboot memory cr3 cr4 rfl⟩
  | take =>
    cases hexec
    exact ⟨rfl, pmmAllocPage_reserved hinv.system.pmm, fun _ _ => rfl, fun _ _ _ _ _ => rfl⟩
  | give phys =>
    cases hexec
    exact ⟨rfl, pmmFreePage_reserved hinv.system.pmm phys, fun _ _ => rfl, fun _ _ _ _ _ => rfl⟩

/-- An entry of an inherited table, as the processor reads it. -/
theorem Inherits.load {level phys : Nat} (htable : BootTable start level phys) {i : Nat}
    (hi : i < 512) (hne : ¬ (phys = start.context.system.kernel.information.rootPhys ∧ i = 384)) :
    load64 s.memory (entryAddress phys i) = load64 start.memory (entryAddress phys i) := by
  have halign := (hstart.inherited htable).1
  rw [← slot_eq halign hi, ← slot_eq halign hi]
  exact h.inherited level phys htable i hne

/-- Outside the dynamic part a walk reads inherited tables only. -/
theorem Inherits.query_outside (hword : virt < 2 ^ 64) (hout : ¬ InDynamic virt) :
    vmmQueryPage s virt = vmmQueryPage start virt := by
  rw [vmmQueryPage, vmmQueryPage, h.kernel]
  split
  · by_cases hcan : memoryIsCanonical virt = true
    · have hslot : memoryPageIndex virt 4 ≠ 384 := fun hown =>
        hout (inDynamic_iff.2 ⟨hcan, hword, hown⟩)
      apply vmmSpaceQuery_congr_at (BootTable start)
      · intro f
        show (kernelTableAccess _ f).isSome = (kernelTableAccess _ f).isSome
        rw [h.kernel]
      · intro level f htable _
        have hlevel := htable.level_le
        refine h.load hstart htable (memoryPageIndex_lt (by omega) hlevel) ?_
        -- The root is no table of a lower level, and its entry is not the dynamic one.
        rintro ⟨hroot, hindex⟩
        have h4 := (hstart.tables _ f htable).2 hroot
        rw [h4] at hindex
        exact hslot hindex
      · intro level f htable hpresent hhuge
        have hlevel := htable.level_le
        exact .entry _ htable (memoryPageIndex_lt (by omega) hlevel) hpresent hhuge
      · exact .root
    · rw [vmmSpaceQuery, vmmSpaceQuery, walk, walk, if_pos (Or.inr hcan), if_pos (Or.inr hcan)]
  · rfl

end Inherited

section Steps

variable {map : MemoryMap} {start s s' : KernelMachine} (hstart : MemoryInitialized map start)
  (h : Confined map start s)

include hstart

theorem confined_start : Confined map start start := by
  refine ⟨inherits_start hstart, .start rfl, hstart.inv, fun virt hvirt hpresent => ?_⟩
  -- Without a table below the root no page has an entry.
  exact absurd (leafAt_empty hstart.dynamic_empty (inDynamic_iff.1 hvirt).own) hpresent

include h

/-- An operation on the kernel's space, given what it does to the entries of the pages. -/
theorem Confined.of_step (hen : arenaEnabled start s event)
    (hexec : kernelExec s event = some s') (hstep : KernelStep map s s')
    (hpages : ∀ virt, InDynamic virt → kernelLeaf s' virt ≠ 0 →
      kernelLeaf s' virt = kernelLeaf s virt ∨ ∃ phys flags, Mapping start s' virt phys flags) :
    Confined map start s' := by
  refine ⟨h.toInherits.of_work hstart hstep.toKernelWork, h.run.step hen hexec, hstep.inv,
    fun virt hvirt hpresent => ?_⟩
  rcases hpages virt hvirt hpresent with hsame | hmapping
  · rw [hsame] at hpresent
    obtain ⟨phys, flags, hmapping⟩ := h.pages virt hvirt hpresent
    exact ⟨phys, flags, hmapping.step hen hexec hstep.kernel hsame⟩
  · exact hmapping

omit hstart in
theorem Confined.of_user (hen : arenaEnabled start s event)
    (hexec : kernelExec s event = some (withUserPart s m)) (hsystem : SystemInv map m)
    (hframe : UserFrame start s m) : Confined map start (withUserPart s m) := by
  obtain ⟨-, -, hleaf⟩ := h.inv.user_tree hframe.kernel hframe.bytes
  refine ⟨h.toInherits.of_user h.inv hframe, h.run.step hen hexec,
    h.inv.of_user hframe.kernel hframe.bytes hsystem hframe.reserved, fun virt hvirt hpresent => ?_⟩
  rw [hleaf virt hvirt] at hpresent
  obtain ⟨phys, flags, hmapping⟩ := h.pages virt hvirt hpresent
  exact ⟨phys, flags, hmapping.step hen hexec hframe.kernel (hleaf virt hvirt)⟩

theorem confined_user {event : SystemEvent} (hen : arenaEnabled start s (.user event))
    (hexec : systemExec (userPart s) event = some m) : Confined map start (withUserPart s m) := by
  have hkernel : kernelExec s (.user event) = some (withUserPart s m) := by
    rw [kernelExec, hexec]
    rfl
  have hsystem := systemInv_step h.inv.system hen.1.1 hexec
  exact h.of_user hen hkernel hsystem
    (userFrame_of_exec hstart h.toInherits h.inv hen.1 hen.2 hexec)

theorem confined_step (hen : arenaEnabled start s event)
    (hexec : kernelExec s event = some s') : Confined map start s' := by
  cases event with
  | mapMmio physical bytes edx pat => exact hen.elim
  | mapPage virt phys flags =>
    obtain ⟨t, ok, hcall, hstep, hok, hnot⟩ :=
      vmmMapPage_spec h.inv virt.toNat phys.toNat flags.toNat_lt
    have hstate := hexec
    rw [kernelExec, hcall] at hstate
    cases hstate
    refine h.of_step hstart hen hexec hstep fun w hw hpresent => ?_
    cases ok with
    | false => exact Or.inl (hnot rfl w hw)
    | true =>
      obtain ⟨hgrant, hmap, hleaf⟩ := hok rfl
      by_cases hsame : SamePage w virt.toNat
      · -- The page itself: the call is the one that mapped it.
        refine Or.inr ⟨phys.toNat, flags.toNat, ?_, hstep.kernel ▸ hmap.frame,
          hstep.kernel ▸ hmap.flags, hgrant.flags, dynamicAddress_samePage hsame hgrant.address, s,
          h.run, ⟨virt.toNat, flags.toNat, t, hsame.symm, hcall, .start rfl⟩, hgrant.usable,
          hgrant.allocated⟩
        rw [hleaf w hw, if_pos hsame]
      · exact Or.inl (hleaf.of_ne hw hsame)
  | unmapPage virt =>
    obtain ⟨t, ok, hcall, hstep, -, hok, hnot⟩ := vmmUnmapPage_spec h.inv virt.toNat
    have hstate := hexec
    rw [kernelExec, hcall] at hstate
    cases hstate
    refine h.of_step hstart hen hexec hstep fun w hw hpresent => ?_
    cases ok with
    | false => exact Or.inl (by rw [(hnot rfl).1])
    | true =>
      have hleaf := (hok rfl).2
      by_cases hsame : SamePage w virt.toNat
      · rw [hleaf w hw, if_pos hsame] at hpresent
        exact absurd rfl hpresent
      · exact Or.inl (hleaf.of_ne hw hsame)
  | protectPage virt flags =>
    obtain ⟨t, ok, hcall, hstep, hok, hnot⟩ := vmmProtectPage_spec h.inv virt.toNat flags.toNat_lt
    have hstate := hexec
    rw [kernelExec, hcall] at hstate
    cases hstate
    refine h.of_step hstart hen hexec hstep fun w hw hpresent => ?_
    cases ok with
    | false => exact Or.inl (by rw [hnot rfl])
    | true =>
      obtain ⟨haddress, hrefused, hflags, phys, old, hold, hframe, holdOk, hleaf⟩ := hok rfl
      by_cases hsame : SamePage w virt.toNat
      · -- The frame of the page is the one it was mapped to.
        have hmask := memoryPhysicalMask_within h.inv.direct.mask
        have hentry : kernelLeaf s w = phys ||| old := (kernelLeaf_samePage hsame s).trans hold
        obtain ⟨frame, flags', hmapping⟩ := h.pages w hw (by
          rw [hentry]
          exact packed_ne_zero hmask hframe holdOk)
        have hphys : frame = phys := by
          rw [← packed_mask hmask hmapping.frame hmapping.valid, ← hmapping.leaf, hentry,
            packed_mask hmask hframe holdOk]
        subst hphys
        obtain ⟨t', hmapped⟩ := hmapping.mapped
        refine Or.inr ⟨frame, flags.toNat, ?_, hstep.kernel ▸ hframe, hstep.kernel ▸ hflags,
          hrefused, hmapping.address, t', hmapped.step hen hexec⟩
        rw [hleaf w hw, if_pos hsame]
      · exact Or.inl (hleaf.of_ne hw hsame)
  | user event =>
    rw [kernelExec, Option.map_eq_some_iff] at hexec
    obtain ⟨m, hm, rfl⟩ := hexec
    exact confined_user hstart h hen hm

omit h in
theorem confined_of_run (hrun : ArenaRun start start s) : Confined map start s := by
  refine hrun.invariant (fun t ht => ?_) fun t event t' hinv hen hexec =>
    confined_step hstart hinv hen hexec
  rw [ht]
  exact confined_start hstart

end Steps

/-! ## What queries see -/

section Queries

variable {map : MemoryMap} {start s : KernelMachine} (hstart : MemoryInitialized map start)
  (h : Confined map start s)

include hstart h

/-- In the window of the devices nothing is mapped. -/
theorem Confined.query_window (h1 : mmioBase ≤ virt) (h2 : virt < mmioBase + mmioSize) :
    vmmQueryPage s virt = vmmQueryPage start virt := by
  have hin := inDynamic_of_mmio h1 h2
  have hzero : ∀ t, Confined map start t → kernelLeaf t virt = 0 := by
    intro t ht
    by_contra hpresent
    obtain ⟨phys, flags, hmapping⟩ := ht.pages virt hin hpresent
    have haddress := hmapping.address
    rw [dynamicAddress, decide_eq_true_eq] at haddress
    omega
  rw [h.inv.query hin, hstart.inv.query hin, hzero s h,
    hzero start (confined_start hstart), h.kernel]

omit hstart in
/-- A page that is mapped has a permitted mapping. -/
theorem Confined.query_mapped (hin : InDynamic virt) {mapping : VmmMapping}
    (hquery : vmmQueryPage s virt = some mapping) (hmapped : mapping.mapped = true) :
    mapping.flags &&& refusedFlags = 0 ∧
      ∃ phys t, mapping.physical = phys + virt % 4096 ∧ MappedAt start s virt phys t := by
  rw [h.inv.query hin] at hquery
  obtain rfl := Option.some.inj hquery
  by_cases hpresent : kernelLeaf s virt = 0
  · rw [mappingOf, if_pos hpresent] at hmapped
    cases hmapped
  · obtain ⟨phys, flags, hmapping⟩ := h.pages virt hin hpresent
    obtain ⟨t, ht⟩ := hmapping.mapped
    have hmask := memoryPhysicalMask_within h.inv.direct.mask
    rw [mappingOf, if_neg hpresent, hmapping.leaf, packed_mask hmask hmapping.frame hmapping.valid,
      packed_flags hmask hmapping.frame hmapping.valid]
    exact ⟨hmapping.allowed, phys, t, rfl, ht⟩

end Queries

/-- From a state that `memory_init` has left, whatever pages are mapped, unmapped and protected: the
queries of all addresses outside the dynamic part and in the window of the devices are what they
were, and so are the entries of all inherited tables except for the dynamic one of the root; and a
page of the dynamic part that is mapped is neither open to users nor uncached, and was mapped when
its frame was usable and allocated. -/
theorem kernel_arena_confinement {map : MemoryMap} {start s : KernelMachine}
    (hstart : MemoryInitialized map start) (hrun : ArenaRun start start s) :
    (∀ virt, virt < 2 ^ 64 →
      ¬ (vmmDynamicBase ≤ virt ∧ virt < vmmDynamicBase + vmmDynamicSize) →
      vmmQueryPage s virt = vmmQueryPage start virt) ∧
    (∀ virt, mmioBase ≤ virt → virt < mmioBase + mmioSize →
      vmmQueryPage s virt = vmmQueryPage start virt) ∧
    (∀ level phys, BootTable start level phys → ∀ i, i < 512 →
      ¬ (phys = start.context.system.kernel.information.rootPhys ∧
        i = memoryPageIndex vmmDynamicBase 4) →
      load64 s.memory (entryAddress phys i) = load64 start.memory (entryAddress phys i)) ∧
    ∀ virt, vmmDynamicBase ≤ virt → virt < vmmDynamicBase + vmmDynamicSize →
      ∀ mapping, vmmQueryPage s virt = some mapping → mapping.mapped = true →
        mapping.flags &&& (vmmUser ||| vmmCacheDisable ||| vmmWriteThrough) = 0 ∧
        ∃ phys t, mapping.physical = phys + virt % 4096 ∧ MappedAt start s virt phys t := by
  have hconfined := confined_of_run hstart hrun
  refine ⟨fun virt hword hout => hconfined.toInherits.query_outside hstart hword hout,
    fun virt h1 h2 => hconfined.query_window hstart h1 h2, ?_, ?_⟩
  · rw [dynamicBase_index]
    exact fun level phys htable i hi hne => hconfined.toInherits.load hstart htable hi hne
  · exact fun virt h1 h2 mapping hquery hmapped => hconfined.query_mapped ⟨h1, h2⟩ hquery hmapped

/-- A frame is taken and mapped, the page is made read-only, and a page that is mapped already is
requested again: the frame was allocated when it was mapped, and the page of the boot loader is
what it was. -/
theorem kernel_arena_confinement_page :
    ∃ s, ArenaRun bootMachine bootMachine s ∧
      vmmQueryPage s 0xffffc00000000123 = some ⟨true, 0x2123, 0x8000000000000001, 4096⟩ ∧
      (∃ t, MappedAt bootMachine s 0xffffc00000000123 0x2000 t) ∧
      vmmQueryPage s 0xffffffff80000000 = some ⟨true, 0, 0x87, 0x40000000⟩ := by
  let events : List KernelEvent :=
    [.user .take, .mapPage 0xffffc00000000000 0x2000 0x8000000000000003,
      .protectPage 0xffffc00000000000 0x8000000000000001,
      .mapPage 0xffffc00000000000 0x2000 0x8000000000000003]
  obtain ⟨s, hs⟩ : ∃ s, s = bootAfter events := ⟨_, rfl⟩
  have hquery : vmmQueryPage s 0xffffc00000000123 =
      some ⟨true, 0x2123, 0x8000000000000001, 4096⟩ := by
    rw [hs]
    decide +kernel
  have hboot : vmmQueryPage bootMachine 0xffffffff80000000 = some ⟨true, 0, 0x87, 0x40000000⟩ := by
    decide +kernel
  have hstart : ArenaRun bootMachine bootMachine bootMachine := .start rfl
  have hrun : ArenaRun bootMachine bootMachine s := by
    rw [hs]
    exact hstart.foldl_getD (by simp [events, arenaEnabled, kernelEnabled, systemEnabled])
  obtain ⟨houtside, -, -, hmapped⟩ := kernel_arena_confinement bootMachine_initialized hrun
  obtain ⟨-, phys, t, hphys, ht⟩ := hmapped _ (by decide) (by decide) _ hquery rfl
  obtain rfl : phys = 0x2000 := by
    simp only at hphys
    omega
  refine ⟨s, hrun, hquery, ⟨t, ht⟩, ?_⟩
  rw [houtside _ (by decide) (by decide)]
  exact hboot

end Utamo.KernelSpace
