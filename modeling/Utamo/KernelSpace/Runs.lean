import Utamo.KernelSpace.Operations
import Utamo.Vmm.Hardware

/-!
# One kernel, many private roots

A run starts in a state that `memory_init` has accepted, with the dynamic entry of the kernel's root
empty. From there on the kernel maps, unmaps and protects pages of the dynamic part and maps device
apertures, while private address spaces are created, used and destroyed, in any order and with any
arguments.

A private root has its own copy of the upper 256 entries of the kernel's root, made once. It stays
equal to them (`SharesHalf`), because the dynamic entry is present before the first copy is made, an
entry that refers to a table never changes, and nobody writes the upper half of a private root.
Below the root both walks read the same tables, so they agree on every address
(`hardwareTranslate_half`).
-/

set_option autoImplicit false

namespace Utamo.KernelSpace

open Lib Lib.ByteMemory Memory Pmm Vmm AddressSpace

variable {s : KernelMachine} {phys vm : Nat} {m : Machine}

/-! ## The state after `memory_init` -/

/-- The tables that are reached from the root of the kernel, with their levels. -/
inductive BootTable (s : KernelMachine) : Nat → Nat → Prop
  | root : BootTable s 4 s.context.system.kernel.information.rootPhys
  | entry {level phys : Nat} (index : Nat) : BootTable s (level + 2) phys → index < 512 →
      hasFlag (load64 s.memory (entryAddress phys index)) vmmPresent = true →
      hasFlag (load64 s.memory (entryAddress phys index)) vmmHuge = false →
      BootTable s (level + 1)
        (load64 s.memory (entryAddress phys index) &&& kernelMask s.context.system.kernel)

theorem BootTable.level_le {level : Nat} (h : BootTable s level phys) :
    level ≤ 4 := by
  induction h with
  | root => exact le_refl 4
  | entry index htable hindex hpresent hhuge ih => omega

/-- A table that `validate_boot_tables` accepts. -/
structure BootAccepted (s : KernelMachine) (phys : Nat) : Prop where
  region : ∃ region, hhdmRegion s.context.system.kernel.directMap phys memoryPageSize =
    some region ∧
    region.type = .bootloaderReclaimable
  access : (kernelTableAccess s.context.system.kernel phys).isSome = true

/-- What `memory_init` has checked and left behind. -/
structure MemoryInitialized (map : MemoryMap) (s : KernelMachine) : Prop where
  built : MapBuilt map
  direct : ∃ context offset, hhdmInit context map offset
    s.context.system.kernel.information.physicalBits = some s.context.system.kernel.directMap
  pmm : ∃ run, PmmReachable run ∧ run.map = map ∧ run.state = s.context.system.pmm
  root : ∃ cr3, s.context.system.kernel.information.rootPhys =
    cr3 &&& kernelMask s.context.system.kernel
  space : vmmSpaceInit s.context s.context.system.kernel.information.rootPhys
    s.context.system.kernel.information.physicalBits
    s.context.system.kernel.information.nxEnabled kernelOps =
      some (kernelSpace s.context.system.kernel)
  tables : ∀ level phys, BootTable s level phys → BootAccepted s phys ∧
    (phys = s.context.system.kernel.information.rootPhys → level = 4)
  empty : load64 s.memory (entryAddress s.context.system.kernel.information.rootPhys
    (memoryPageIndex vmmDynamicBase 4)) = 0
  ready : s.context.system.kernel.ready = true
  unused : ∀ vm, s.context.system.vms vm = .zero
  mmio : s.context.mmio = ⟨0, []⟩

/-- What `validate_boot_tables` has checked of a present entry of a table: its bits, the translation
of a leaf, or the table below. -/
structure EntryChecked (s : KernelMachine) (level phys base index : Nat) (ancestors : List Nat)
    (value : Nat) : Prop where
  bits : ¬ (value &&& vmmAddressMask &&& notU64 (kernelMask s.context.system.kernel) ≠ 0 ∨
    (¬ s.context.system.kernel.information.nxEnabled = true ∧ hasFlag value vmmNx = true) ∨
    (level + 1 = 4 ∧ hasFlag value vmmHuge = true))
  leaf : level + 1 = 1 ∨ hasFlag value vmmHuge = true → ∃ mapping,
    vmmSpaceQuery (kernelSpace s.context.system.kernel) s (bootAddress base (level + 1) index) =
      some mapping
  next : level ≠ 0 → hasFlag value vmmHuge = false → ∃ visits,
    (validateBootTables s level (value &&& kernelMask s.context.system.kernel)
      (bootAddress base (level + 1) index) (phys :: ancestors) visits).1 = true

/-- A loop that was not left has accepted every entry. -/
theorem validateEntries_round {entry : Nat → Nat → Bool × Nat} {rounds index visits i : Nat}
    (h : (validateEntries entry rounds index visits).1 = true) (hlow : index ≤ i)
    (hhigh : i < index + rounds) : ∃ v, (entry i v).1 = true := by
  induction rounds generalizing index visits with
  | zero => omega
  | succ rounds ih =>
    rw [validateEntries] at h
    rcases hentry : entry index visits with ⟨ok, v⟩
    rw [hentry] at h
    cases ok with
    | false => cases h
    | true =>
      rcases hlow.eq_or_lt with rfl | hlt
      · exact ⟨visits, by rw [hentry]⟩
      · exact ih h hlt (by omega)

/-- A call of `validate_boot_tables` that succeeds accepts every table it visits. -/
theorem validateBootTables_step {level base visits : Nat} {ancestors : List Nat}
    (h : (validateBootTables s (level + 1) phys base ancestors visits).1 = true) :
    BootAccepted s phys ∧ phys ∉ ancestors ∧ ∀ index, index < 512 →
      hasFlag (load64 s.memory (entryAddress phys index)) vmmPresent = true →
      EntryChecked s level phys base index ancestors
        (load64 s.memory (entryAddress phys index)) := by
  rw [validateBootTables] at h
  simp only at h
  split at h
  · cases h
  cases hregion : hhdmRegion s.context.system.kernel.directMap phys memoryPageSize with
  | none =>
    rw [hregion] at h
    cases h
  | some region =>
    rw [hregion] at h
    simp only at h
    split at h
    · cases h
    rename_i hchecks
    simp only [not_or, not_not] at hchecks
    refine ⟨⟨⟨region, hregion, hchecks.1⟩, hchecks.2.2⟩, hchecks.2.1, ?_⟩
    intro index hindex hpresent
    obtain ⟨v, hbody⟩ := validateEntries_round h (Nat.zero_le index) (by omega)
    generalize load64 s.memory (entryAddress phys index) = value at hpresent hbody ⊢
    simp only [hpresent, not_true_eq_false, if_false] at hbody
    split at hbody
    · cases hbody
    rename_i hbits
    refine ⟨hbits, fun hleaf => ?_, fun hlevel hhuge => ?_⟩
    · rw [if_pos hleaf] at hbody
      cases hquery : vmmSpaceQuery (kernelSpace s.context.system.kernel) s
          (bootAddress base (level + 1) index) with
      | none =>
        rw [hquery] at hbody
        cases hbody
      | some mapping => exact ⟨mapping, rfl⟩
    · have hend : ¬ (level + 1 = 1 ∨ hasFlag value vmmHuge = true) := by
        rintro (h1 | h1)
        · omega
        · rw [hhuge] at h1
          cases h1
      rw [if_neg hend] at hbody
      exact ⟨v, hbody⟩

/-- So the check of the root covers every table that is reached from it, and the root is not among
those below it. -/
theorem bootAccepted_of_validate
    (h : (validateBootTables s 4 s.context.system.kernel.information.rootPhys 0 [] 0).1 = true) :
    ∀ level phys, BootTable s level phys → BootAccepted s phys ∧
      (phys = s.context.system.kernel.information.rootPhys → level = 4) := by
  -- Every table was visited below the root.
  have hvisited : ∀ level phys, BootTable s level phys → ∃ l base ancestors v, level = l + 1 ∧
      (level = 4 ∨ s.context.system.kernel.information.rootPhys ∈ ancestors) ∧
      (level = 4 → phys = s.context.system.kernel.information.rootPhys) ∧
      (validateBootTables s (l + 1) phys base ancestors v).1 = true := by
    intro level phys htable
    induction htable with
    | root => exact ⟨3, 0, [], 0, rfl, Or.inl rfl, fun _ => rfl, h⟩
    | @entry level phys index htable hindex hpresent hhuge ih =>
      have hlevel := htable.level_le
      obtain ⟨l, base, ancestors, v, hl, hbelow, hroot, hvalid⟩ := ih
      obtain rfl : l = level + 1 := by omega
      obtain ⟨v', hrec⟩ :=
        ((validateBootTables_step hvalid).2.2 index hindex hpresent).next (by omega) hhuge
      refine ⟨level, _, _, v', rfl, Or.inr ?_, fun h4 => by omega, hrec⟩
      rcases hbelow with h4 | hmem
      · rw [hroot h4]
        exact List.mem_cons_self
      · exact List.mem_cons_of_mem _ hmem
  intro level phys htable
  obtain ⟨l, base, ancestors, v, -, hbelow, -, hvalid⟩ := hvisited level phys htable
  obtain ⟨haccepted, hnew, -⟩ := validateBootTables_step hvalid
  refine ⟨haccepted, fun hroot => hbelow.resolve_right ?_⟩
  rw [← hroot]
  exact hnew

section Start

variable {map : MemoryMap} {s : KernelMachine} (h : MemoryInitialized map s)

include h

theorem MemoryInitialized.direct_map : Direct map s.context.system.kernel :=
  ⟨h.built.sound, h.direct⟩

theorem MemoryInitialized.pmm_inv : PmmInv map s.context.system.pmm := by
  obtain ⟨run, hrun, hmap, hstate⟩ := h.pmm
  have hinv := (goodPmmRun_of_reachable hrun).inv
  rw [hmap, hstate] at hinv
  exact hinv

theorem MemoryInitialized.root_frame :
    Frame (kernelMask s.context.system.kernel) s.context.system.kernel.information.rootPhys := by
  obtain ⟨cr3, hcr3⟩ := h.root
  have hmask := memoryPhysicalMask_within h.direct_map.mask
  have hlt : s.context.system.kernel.information.rootPhys < 2 ^ 64 := by
    rw [hcr3]
    exact (Nat.and_le_right.trans hmask.le).trans_lt (by decide)
  obtain ⟨mask, -, hframe, hon, -⟩ := vmmSpaceInit_spec hlt h.space
  have hsame : kernelMask s.context.system.kernel = mask := hon.physicalMask
  rw [hsame]
  exact hframe

/-- A table in a region of the boot loader is withdrawn from the memory manager. -/
theorem MemoryInitialized.boot_reserved (halign : phys % 4096 = 0)
    (haccepted : BootAccepted s phys) : phys ∈ reservedPages s.context.system.pmm := by
  obtain ⟨context, offset, hinit⟩ := h.direct
  obtain ⟨region, hregion, htype⟩ := haccepted.region
  refine h.pmm_inv.mem_reserved halign ?_
  exact not_usable_of_region h.built.sound hinit halign hregion (by rw [htype]; decide)

theorem MemoryInitialized.inv : KernelInv map s := by
  have hroot := h.root_frame
  have hmask := memoryPhysicalMask_within h.direct_map.mask
  have hempty : ∀ i, dynamicSlot i →
      slot s.memory s.context.system.kernel.information.rootPhys i = 0 := by
    rintro i rfl
    rw [slot_eq hroot.align (by decide)]
    exact h.empty
  obtain ⟨htree, hframes⟩ :=
    tables_empty s.context.system.kernel.information.nxEnabled hmask hroot hempty
  have haccepted := (h.tables 4 _ .root).1
  refine ⟨.of_unused h.pmm_inv h.unused, h.direct_map, h.ready, htree, ?_, ?_, ?_⟩
  · rw [kernelTables, hframes, Set.singleton_subset_iff]
    exact h.boot_reserved hroot.align haccepted
  · rw [kernelTables, hframes]
    rintro f rfl
    exact haccepted.access
  · rw [h.mmio]
    exact Nat.zero_le _

end Start

/-! ## Events -/

/-- What happens to the machine. -/
inductive KernelEvent
  | mapPage (virt phys flags : UInt64)
  | unmapPage (virt : UInt64)
  | protectPage (virt flags : UInt64)
  | mapMmio (physical bytes : UInt64) (edx pat : Nat)
  | user (event : SystemEvent)

def kernelExec (s : KernelMachine) : KernelEvent → Option KernelMachine
  | .mapPage virt phys flags => (vmmMapPage s virt.toNat phys.toNat flags.toNat).map Prod.fst
  | .unmapPage virt => some (vmmUnmapPage s virt.toNat).1
  | .protectPage virt flags => some (vmmProtectPage s virt.toNat flags.toNat).1
  | .mapMmio physical bytes edx pat =>
    (vmmMapMmio s physical.toNat bytes.toNat edx pat).map Prod.fst
  | .user event => (systemExec (userPart s) event).map (withUserPart s)

/-- The rest of the kernel and the programs write no page table of the kernel or of a private
space. -/
def kernelEnabled (s : KernelMachine) : KernelEvent → Prop
  | .user event => systemEnabled (userPart s) event ∧
      ∀ memory cr3 cr4, event = .run memory cr3 cr4 →
        ∀ x, frameOf x ∈ kernelTables s → memory x = s.memory x
  | _ => True

def KernelReachable (s : KernelMachine) : Prop :=
  Reachable (fun s => ∃ map, MemoryInitialized map s) kernelEnabled kernelExec s

/-! ## The shared half -/

/-- The upper half of a private root is that of the kernel, closed to users. -/
structure SharesHalf (s : KernelMachine) (v : UserVm) : Prop where
  mask : v.space.physicalMask = kernelMask s.context.system.kernel
  present : slot s.memory s.context.system.kernel.information.rootPhys 384 ≠ 0
  entry : ∀ i, 256 ≤ i → i < 512 → slot s.memory v.space.rootPhys i =
    slot s.memory s.context.system.kernel.information.rootPhys i &&& notU64 vmmUser

/-- The invariant of the runs. -/
structure CoherentInv (map : MemoryMap) (s : KernelMachine) : Prop where
  inv : KernelInv map s
  shares : ∀ vm, (s.context.system.vms vm).initialized = true →
    SharesHalf s (s.context.system.vms vm)

section Coherence

variable {map : MemoryMap} {s s' : KernelMachine}

theorem KernelInv.live (h : KernelInv map s)
    (hinit : (s.context.system.vms vm).initialized = true) :
    Live vm (s.context.system.vms vm) s.memory :=
  (h.system.holds vm).live hinit

/-- What leaves the tables of the kernel alone leaves its root alone. -/
theorem root_slots_of_kernelTables {memory : ByteMemory}
    (hbytes : ∀ x, frameOf x ∈ kernelTables s → memory x = s.memory x) :
    ∀ i, slot memory s.context.system.kernel.information.rootPhys i =
      slot s.memory s.context.system.kernel.information.rootPhys i := by
  refine slot_congr fun x hx => hbytes x ?_
  rw [hx]
  exact root_mem_kernelTables

/-- A root that is where it was, with the same upper half, shares it still. -/
theorem SharesHalf.congr {v v' : UserVm} (h : SharesHalf s v)
    (hkernel : s'.context.system.kernel = s.context.system.kernel) (hspace : v'.space = v.space)
    (hroot : ∀ i, slot s'.memory s.context.system.kernel.information.rootPhys i =
      slot s.memory s.context.system.kernel.information.rootPhys i)
    (hupper : ∀ i, 256 ≤ i → slot s'.memory v.space.rootPhys i = slot s.memory v.space.rootPhys i) :
    SharesHalf s' v' := by
  refine ⟨?_, ?_, fun i h1 h2 => ?_⟩
  · rw [hspace, hkernel]
    exact h.mask
  · rw [hkernel, hroot]
    exact h.present
  · rw [hspace, hkernel, hroot, hupper i h1]
    exact h.entry i h1 h2

/-- An operation on the kernel's space does not change what private roots have copied. -/
theorem CoherentInv.of_step (h : CoherentInv map s) (hstep : KernelStep map s s') :
    CoherentInv map s' := by
  refine ⟨hstep.inv, fun vm hinit => ?_⟩
  rw [hstep.vms] at hinit ⊢
  have hlive := h.inv.live hinit
  -- The private root is allocated and no table of the kernel.
  have hprivate : ∀ i, slot s'.memory (s.context.system.vms vm).space.rootPhys i =
      slot s.memory (s.context.system.vms vm).space.rootPhys i := by
    have howned : (s.context.system.vms vm).space.rootPhys ∈ (s.context.system.vms vm).owned :=
      Or.inl hlive.root_mem
    refine slot_congr fun x hx => hstep.untouched.bytes x (Or.inl ?_) ?_
    · rw [hx]
      exact h.inv.system.allocated vm howned
    · rw [hx]
      exact h.inv.owned_not_table howned
  -- The dynamic entry is present, and the others are not the kernel's to change.
  have hroot : ∀ i, slot s'.memory s.context.system.kernel.information.rootPhys i =
      slot s.memory s.context.system.kernel.information.rootPhys i := by
    intro i
    by_cases hi : dynamicSlot i
    · rw [dynamicSlot] at hi
      subst hi
      exact hstep.untouched.linked 384 (h.shares vm hinit).present
    · exact hstep.untouched.foreign i hi
  exact (h.shares vm hinit).congr hstep.kernel rfl hroot fun i _ => hprivate i

/-- A new private root has a copy of the upper half. -/
theorem KernelInv.shares_created (h : KernelInv map s) {upper : Nat → Nat}
    (hcopy : vmmCopyKernelHalf s.context.system.kernel s.memory = some upper)
    (hcreated : Created s.context.system.kernel upper vm m)
    (hkernel : m.context.kernel = s.context.system.kernel)
    (hbytes : ∀ x, frameOf x ∈ kernelTables s → m.memory x = s.memory x) :
    SharesHalf (withUserPart s m) (m.context.vms vm) := by
  have hroot := h.tree.root_frame
  have hsame := root_slots_of_kernelTables hbytes
  have haccess : kernelTableAccess s.context.system.kernel
      s.context.system.kernel.information.rootPhys =
        some s.context.system.kernel.information.rootPhys := by
    obtain ⟨p, hp⟩ := Option.isSome_iff_exists.1 (h.access _ root_mem_kernelTables)
    have hself := hp
    rw [kernelTableAccess] at hself
    split at hself
    · cases hself
    split at hself
    · cases hself
    obtain rfl := memoryPhysToVirt_eq hself
    exact hp
  rw [vmmCopyKernelHalf] at hcopy
  simp only [h.ready, if_true, haccess, Option.bind_eq_bind, Option.bind_some, dynamicBase_index]
    at hcopy
  split at hcopy
  · cases hcopy
  rename_i hpresent
  rw [not_not] at hpresent
  obtain rfl := Option.some.inj hcopy
  have hmask := h.direct.mask
  rw [hcreated.mask] at hmask
  refine ⟨?_, ?_, fun i h1 h2 => ?_⟩
  · show (m.context.vms vm).space.physicalMask = kernelMask m.context.kernel
    rw [hkernel]
    exact Option.some.inj hmask
  · show slot m.memory m.context.kernel.information.rootPhys 384 ≠ 0
    rw [hkernel, hsame, slot_eq hroot.align (by decide)]
    intro hzero
    rw [hzero] at hpresent
    exact absurd hpresent (by decide)
  · show slot m.memory (m.context.vms vm).space.rootPhys i =
      slot m.memory m.context.kernel.information.rootPhys i &&& _
    rw [hcreated.upper i h1 h2, hkernel, hsame, slot_eq hroot.align h2, Nat.and_assoc, Nat.and_self,
      Nat.add_sub_cancel' h1]

/-- An operation on one private space does not change the half that the others share. -/
theorem CoherentInv.of_call (h : CoherentInv map s) {call : UserVmCall}
    {ok : Bool} (hcall : callExec (userPart s) vm call = some (m, ok)) :
    CoherentInv map (withUserPart s m) := by
  have hholds := h.inv.system.holds vm
  obtain ⟨m', ok', hcall', hholds', hframed⟩ := callExec_spec hholds call
  obtain ⟨rfl, rfl⟩ := Prod.mk.inj (Option.some.inj (hcall'.symm.trans hcall))
  have hbytes : ∀ x, frameOf x ∈ kernelTables s → m'.memory x = s.memory x :=
    fun x hx => hframed.withdrawn x (h.inv.reserved hx)
  have hinv :=
    h.inv.of_user hframed.kernel hbytes (h.inv.system.step hholds' hframed) hframed.reserved
  have hkeep : ∀ w, (s.context.system.vms w).initialized = true →
      (m'.context.vms w).space = (s.context.system.vms w).space →
      (∀ i, 256 ≤ i → slot m'.memory (s.context.system.vms w).space.rootPhys i =
        slot s.memory (s.context.system.vms w).space.rootPhys i) →
      SharesHalf (withUserPart s m') (m'.context.vms w) := by
    intro w hinit hspace hupper
    exact (h.shares w hinit).congr hframed.kernel hspace (root_slots_of_kernelTables hbytes) hupper
  refine ⟨hinv, fun w hinit => ?_⟩
  have hinit' : (m'.context.vms w).initialized = true := hinit
  show SharesHalf _ (m'.context.vms w)
  by_cases hw : w = vm
  · subst hw
    by_cases hcreate : call = .create
    · subst hcreate
      obtain ⟨m'', ok'', hcall'', -, -, htrue, hfalse⟩ := userVmCreate_spec hholds
      obtain ⟨rfl, rfl⟩ := Prod.mk.inj (Option.some.inj (hcall''.symm.trans hcall))
      cases ok'' with
      | true =>
        obtain ⟨-, upper, hcopy, hcreated⟩ := htrue rfl
        exact h.inv.shares_created hcopy hcreated hframed.kernel hbytes
      | false =>
        rcases hfalse rfl with rfl | hzero
        · exact hkeep w hinit' rfl fun _ _ => rfl
        · rw [hzero] at hinit'
          cases hinit'
    by_cases hdestroy : call = .destroy
    · subst hdestroy
      obtain ⟨m'', ok'', hcall'', -, -, htrue, -, hfalse⟩ := userVmDestroy_spec hholds
      obtain ⟨rfl, rfl⟩ := Prod.mk.inj (Option.some.inj (hcall''.symm.trans hcall))
      cases ok'' with
      | true =>
        rw [htrue rfl] at hinit'
        cases hinit'
      | false =>
        obtain rfl := hfalse rfl
        exact hkeep w hinit' rfl fun _ _ => rfl
    obtain ⟨m'', ok'', hcall'', hkept⟩ := callExec_use hholds ⟨hcreate, hdestroy⟩
    obtain ⟨rfl, rfl⟩ := Prod.mk.inj (Option.some.inj (hcall''.symm.trans hcall))
    refine hkeep w ?_ hkept.root.space hkept.root.upper
    exact hkept.initialized.symm.trans hinit'
  · have hvm := hframed.vms w hw
    rw [hvm] at hinit'
    have hlive := h.inv.live hinit'
    refine hkeep w hinit' (by rw [hvm]; rfl) fun i _ => ?_
    refine slot_congr (fun x hx => hframed.bytes x ?_) i
    rw [hx]
    exact h.inv.system.owned_elsewhere hw (Or.inl hlive.root_mem)

/-- Frames that others take or return, and what programs write, do not matter to the halves. -/
theorem CoherentInv.of_rest (h : CoherentInv map s) (hsystem : SystemInv map m)
    (hkernel : m.context.kernel = s.context.system.kernel)
    (hvms : m.context.vms = s.context.system.vms)
    (hreserved : reservedPages m.context.pmm = reservedPages s.context.system.pmm)
    (htables : ∀ x, frameOf x ∈ kernelTables s → m.memory x = s.memory x)
    (hprivate : ∀ vm x, frameOf x ∈ (s.context.system.vms vm).tableFrames →
      m.memory x = s.memory x) :
    CoherentInv map (withUserPart s m) := by
  refine ⟨h.inv.of_user hkernel htables hsystem hreserved, fun vm hinit => ?_⟩
  have hinit' : (m.context.vms vm).initialized = true := hinit
  rw [hvms] at hinit'
  have hlive := h.inv.live hinit'
  have hown : ∀ i, slot m.memory (s.context.system.vms vm).space.rootPhys i =
      slot s.memory (s.context.system.vms vm).space.rootPhys i := by
    refine slot_congr fun x hx => hprivate vm x ?_
    rw [hx]
    exact hlive.root_mem
  have hspace : (m.context.vms vm).space = (s.context.system.vms vm).space := by rw [hvms]
  exact (h.shares vm hinit').congr hkernel hspace (root_slots_of_kernelTables htables)
    fun i _ => hown i

/-- The window of device apertures is no part of the halves. -/
theorem CoherentInv.of_mmio (h : CoherentInv map s) {mmio : MmioState}
    (hused : mmio.used ≤ mmioSize) :
    CoherentInv map ⟨{ s.context with mmio }, s.memory⟩ :=
  ⟨h.inv.of_mmio hused,
    fun vm hinit => ⟨(h.shares vm hinit).mask, (h.shares vm hinit).present,
      (h.shares vm hinit).entry⟩⟩

theorem coherentInv_user (h : CoherentInv map s) {event : SystemEvent}
    (hen : kernelEnabled s (.user event)) (hexec : systemExec (userPart s) event = some m) :
    CoherentInv map (withUserPart s m) := by
  have hsystem := systemInv_step h.inv.system hen.1 hexec
  cases event with
  | call vm call =>
    rw [systemExec, Option.map_eq_some_iff] at hexec
    obtain ⟨⟨t, ok⟩, hcall, rfl⟩ := hexec
    exact h.of_call hcall
  | run memory cr3 cr4 =>
    cases hexec
    exact h.of_rest hsystem rfl rfl rfl (hen.2 memory cr3 cr4 rfl) hen.1
  | take =>
    cases hexec
    exact h.of_rest hsystem rfl rfl (pmmAllocPage_reserved h.inv.system.pmm) (fun _ _ => rfl)
      fun _ _ _ => rfl
  | give phys =>
    cases hexec
    exact h.of_rest hsystem rfl rfl (pmmFreePage_reserved h.inv.system.pmm phys) (fun _ _ => rfl)
      fun _ _ _ => rfl

theorem coherentInv_step (h : CoherentInv map s) {event : KernelEvent} (hen : kernelEnabled s event)
    (hexec : kernelExec s event = some s') : CoherentInv map s' := by
  cases event with
  | mapPage virt phys flags =>
    obtain ⟨t, ok, hcall, hstep, -⟩ := vmmMapPage_spec h.inv virt.toNat phys.toNat flags.toNat_lt
    rw [kernelExec, hcall] at hexec
    cases hexec
    exact h.of_step hstep
  | unmapPage virt =>
    obtain ⟨t, ok, hcall, hstep, -⟩ := vmmUnmapPage_spec h.inv virt.toNat
    rw [kernelExec, hcall] at hexec
    cases hexec
    exact h.of_step hstep
  | protectPage virt flags =>
    obtain ⟨t, ok, hcall, hstep, -⟩ := vmmProtectPage_spec h.inv virt.toNat flags.toNat_lt
    rw [kernelExec, hcall] at hexec
    cases hexec
    exact h.of_step hstep
  | mapMmio physical bytes edx pat =>
    obtain ⟨t, out, hcall, houtcome⟩ := vmmMapMmio_spec h.inv physical.toNat bytes.toNat edx pat
    rw [kernelExec, hcall] at hexec
    cases hexec
    cases houtcome with
    | mapped haccepted hwindow =>
      exact (h.of_step hwindow.step).of_mmio (mmioAccepted_bounds h.inv.window haccepted).1
    | failed hstep => exact h.of_step hstep
  | user event =>
    rw [kernelExec, Option.map_eq_some_iff] at hexec
    obtain ⟨m, hm, rfl⟩ := hexec
    exact coherentInv_user h hen hm

theorem coherentInv_of_reachable (h : KernelReachable s) : ∃ map, CoherentInv map s := by
  have hstart : ∀ t : KernelMachine, (∃ map, MemoryInitialized map t) →
      ∃ map, CoherentInv map t := by
    rintro t ⟨map, hinit⟩
    refine ⟨map, hinit.inv, fun vm hlive => ?_⟩
    rw [hinit.unused vm] at hlive
    cases hlive
  refine h.invariant hstart ?_
  rintro t event t' ⟨map, hinv⟩ hen hexec
  exact ⟨map, coherentInv_step hinv hen hexec⟩

end Coherence

/-! ## A small machine -/

/-- Sixty-four usable frames, and two of the boot loader with tables of the kernel. -/
def bootMap : MemoryMap :=
  ⟨[⟨0, 0x40000, .usable⟩, ⟨0x40000, 0x2000, .bootloaderReclaimable⟩], 0x40000, 0x2000⟩

theorem bootMap_built : MapBuilt bootMap := @MapBuilt.run _ _ .init bootMap.regions (by decide)

/-- The memory manager for the map, with its bitmaps at `0x100`. -/
def bootRun : PmmRun :=
  ⟨bootMap, (pmmCoreInit zeroState bootMap ⟨0x1000, 0x1000, 8, 64⟩ 0x100).getD zeroState, ∅, ∅, ∅⟩

theorem bootRun_start : pmmStart bootRun :=
  pmmStart_init bootMap_built (by decide) (by decide +kernel)

def bootKernel : KernelVmm where
  directMap := (hhdmInit ⟨bootMap, 0, 0, false⟩ bootMap 0xffff800000000000 36).getD
    ⟨bootMap, 0, 0, false⟩
  information := ⟨0x40000, 36, true⟩
  ready := true

/-- The machine after `memory_init`: the last entry of the root leads to a table of the boot loader
with a page of 1 GiB, both of them open to users, and the dynamic entry is empty. -/
def bootMachine : KernelMachine where
  context := ⟨⟨bootRun.state, bootKernel, fun _ => .zero, 0x40000, 0⟩, 0, ⟨0, []⟩⟩
  memory := store64 (store64 (fun _ => 0) (entryAddress 0x40000 511) 0x41007)
    (entryAddress 0x41000 510) 0x87

theorem bootMachine_initialized : MemoryInitialized bootMap bootMachine := by
  have hmap : (hhdmInit ⟨bootMap, 0, 0, false⟩ bootMap 0xffff800000000000 36).isSome = true := by
    decide +kernel
  have hvalid : (validateBootTables bootMachine 4 0x40000 0 [] 0).1 = true := by decide +kernel
  obtain ⟨directMap, hdirect⟩ := Option.isSome_iff_exists.1 hmap
  refine ⟨bootMap_built, ⟨⟨bootMap, 0, 0, false⟩, 0xffff800000000000, ?_⟩,
    ⟨bootRun, .start bootRun_start, rfl, by simp only [bootMachine]⟩, ⟨0x40000, by decide +kernel⟩,
    rfl, bootAccepted_of_validate hvalid, by decide +kernel, rfl, fun _ => rfl, rfl⟩
  have hget : bootKernel.directMap = directMap := by
    rw [bootKernel, hdirect]
    rfl
  exact hdirect.trans (congrArg some hget.symm)

theorem bootMachine_reachable : KernelReachable bootMachine :=
  .start ⟨bootMap, bootMachine_initialized⟩

/-! ## The two walks agree -/

/-- In every run, the walk from the root of a live private space and the walk from the root of the
kernel lead to the same translation of every canonical address of the upper half, except that the
former is closed to users. Of an address that is not canonical neither walk has a translation. -/
theorem kernel_half_coherence {s : KernelMachine} (h : KernelReachable s) {vm virt : Nat}
    (hlive : (s.context.system.vms vm).initialized = true)
    (hupper : 0xffff800000000000 ≤ virt) (hword : virt < 2 ^ 64) :
    hardwareTranslate (s.context.system.vms vm).space.physicalMask
      (s.context.system.vms vm).space.rootPhys s.memory virt =
    (hardwareTranslate (kernelMask s.context.system.kernel)
      s.context.system.kernel.information.rootPhys s.memory virt).map
        (fun translation => { translation with user := false }) := by
  obtain ⟨map, hinv⟩ := coherentInv_of_reachable h
  obtain ⟨hmask, -, hentry⟩ := hinv.shares vm hlive
  have hprivate := (hinv.inv.live hlive).tree.root_frame
  have hroot := hinv.inv.tree.root_frame
  have hindex : 256 ≤ memoryPageIndex virt 4 ∧ memoryPageIndex virt 4 < 512 := by
    refine ⟨?_, memoryPageIndex_lt (by decide) (by decide)⟩
    rw [memoryPageIndex_eq (by decide) (by decide)]
    omega
  have hsame := hentry _ hindex.1 hindex.2
  rw [slot_eq hprivate.align hindex.2, slot_eq hroot.align hindex.2] at hsame
  rw [hmask]
  exact hardwareTranslate_half (memoryPhysicalMask_within hinv.inv.direct.mask) hsame

/-- The machine after `memory_init` and the events. -/
def bootAfter (events : List KernelEvent) : KernelMachine :=
  events.foldl (fun s event => (kernelExec s event).getD s) bootMachine

/-- A page that the kernel maps after the space was created, and the page of the boot loader, as
seen from the private root at `0x6000`. -/
theorem kernel_half_coherence_later :
    ∃ s, KernelReachable s ∧ (s.context.system.vms 8).initialized = true ∧
      (s.context.system.vms 8).space.rootPhys = 0x6000 ∧
      hardwareTranslate (s.context.system.vms 8).space.physicalMask
        (s.context.system.vms 8).space.rootPhys s.memory 0xffffc00000001000 =
          some ⟨0x7000, 4096, true, false, true, false⟩ ∧
      hardwareTranslate (s.context.system.vms 8).space.physicalMask
        (s.context.system.vms 8).space.rootPhys s.memory 0xffffffff80000000 =
          some ⟨0, 0x40000000, true, false, false, false⟩ := by
  let events : List KernelEvent :=
    [.user .take, .mapPage 0xffffc00000000000 0x2000 0x8000000000000003, .user (.call 8 .create),
      .user .take, .mapPage 0xffffc00000001000 0x7000 0x8000000000000003]
  obtain ⟨s, hs⟩ : ∃ s, s = bootAfter events := ⟨_, rfl⟩
  have hvalues : (s.context.system.vms 8).initialized = true ∧
      (s.context.system.vms 8).space.rootPhys = 0x6000 ∧
      hardwareTranslate (kernelMask s.context.system.kernel)
        s.context.system.kernel.information.rootPhys s.memory 0xffffc00000001000 =
          some ⟨0x7000, 4096, true, false, true, false⟩ ∧
      hardwareTranslate (kernelMask s.context.system.kernel)
        s.context.system.kernel.information.rootPhys s.memory 0xffffffff80000000 =
          some ⟨0, 0x40000000, true, true, false, false⟩ := by
    rw [hs]
    decide +kernel
  obtain ⟨hlive, hroot, hmapped, hboot⟩ := hvalues
  have hreach : KernelReachable s := by
    rw [hs]
    exact bootMachine_reachable.foldl_getD (by simp [events, kernelEnabled, systemEnabled])
  refine ⟨s, hreach, hlive, hroot, ?_, ?_⟩
  · rw [kernel_half_coherence hreach hlive (by decide) (by decide), hmapped]
    rfl
  · rw [kernel_half_coherence hreach hlive (by decide) (by decide), hboot]
    rfl

end Utamo.KernelSpace
