import Utamo.KernelSpace.Runs

/-!
# The tables of the boot loader

`validate_boot_tables` of `kernel/memory/vmm.c` visits the tables that the boot loader has left,
whatever is in memory. It ends because the levels go down and a budget bounds the calls
(`validateBootTables_count`). When it accepts the root, no walk of `vmm_core.c` fails any more
(`walkLoop_of_validated`): the check asks for the addresses of leaves only, but an address whose
walk ends at an entry that is not present, or in a leaf whose first address was asked for, has the
same entries above.
-/

set_option autoImplicit false

namespace Utamo.KernelSpace

open Lib Lib.ByteMemory Memory Pmm Vmm

variable {visits level index value phys : Nat}

/-! ## The budget -/

/-- A count within the budget, or one call behind it after a check that failed. -/
def InBudget (r : Bool × Nat) : Prop := r.2 ≤ 65537 ∧ (r.1 = true → r.2 ≤ 65536)

theorem inBudget_validateEntries {entry : Nat → Nat → Bool × Nat}
    (h : ∀ i v, v ≤ 65536 → InBudget (entry i v)) (rounds index : Nat) (hvisits : visits ≤ 65536) :
    InBudget (validateEntries entry rounds index visits) := by
  induction rounds generalizing index visits with
  | zero => exact ⟨by show visits ≤ 65537; omega, fun _ => hvisits⟩
  | succ rounds ih =>
    have hentry := h index visits hvisits
    rw [validateEntries]
    rcases hcall : entry index visits with ⟨ok, v⟩
    rw [hcall] at hentry
    cases ok with
    | false => exact ⟨hentry.1, by rintro ⟨⟩⟩
    | true => exact ih (index + 1) (hentry.2 rfl)

/-- Every call counts itself, and behind the budget all of them return at once. -/
theorem validateBootTables_count (s : KernelMachine) (level phys base : Nat) (ancestors : List Nat)
    (hvisits : visits ≤ 65536) :
    InBudget (validateBootTables s level phys base ancestors visits) := by
  induction level generalizing phys base ancestors visits with
  | zero => exact ⟨by show visits ≤ 65537; omega, nofun⟩
  | succ level ih =>
    have hrefused : InBudget (false, visits + 1) := ⟨by show visits + 1 ≤ 65537; omega, nofun⟩
    rw [validateBootTables]
    simp only
    split
    · exact hrefused
    rename_i hbudget
    cases hhdmRegion s.context.system.kernel.directMap phys memoryPageSize with
    | none => exact hrefused
    | some region =>
      dsimp only
      split
      · exact hrefused
      refine inBudget_validateEntries (fun index v hv => ?_) 512 0 (by omega)
      have hsame : ∀ ok, InBudget (ok, v) := fun ok => ⟨by show v ≤ 65537; omega, fun _ => hv⟩
      split
      · exact hsame true
      split
      · exact hsame false
      split
      · cases vmmSpaceQuery (kernelSpace s.context.system.kernel) s
            (bootAddress base (level + 1) index) with
        | none => exact hsame false
        | some mapping => exact hsame mapping.mapped
      · exact ih _ _ _ hv

/-! ## Addresses of entries -/

section Address

/-- The digits of an address lie below bit 48. -/
theorem memoryPageIndex_mod {virt : Nat} (h1 : 1 ≤ level) (h4 : level ≤ 4) :
    memoryPageIndex (virt % 2 ^ 48) level = memoryPageIndex virt level := by
  rw [memoryPageIndex_eq h1 h4, memoryPageIndex_eq h1 h4]
  obtain rfl | rfl | rfl | rfl : level = 1 ∨ level = 2 ∨ level = 3 ∨ level = 4 := by omega
  all_goals omega

/-- Below bit 48, the address of an entry is the address of its table and the place of the entry. -/
theorem bootAddress_mod {base : Nat} (h1 : 1 ≤ level)
    (hbase : base % 2 ^ (12 + 9 * level) = 0) (hindex : index < 512) :
    bootAddress base level index % 2 ^ 48 =
      (base + index * 2 ^ (12 + 9 * (level - 1))) % 2 ^ 48 := by
  have hshift : 12 + (level - 1) * 9 = 12 + 9 * (level - 1) := by omega
  have hsum : base ||| (index <<< (12 + (level - 1) * 9)) =
      base + index * 2 ^ (12 + 9 * (level - 1)) := by
    have hplace : index * 2 ^ (12 + 9 * (level - 1)) < 2 ^ (12 + 9 * level) := by
      have hpow : 2 ^ (12 + 9 * level) = 512 * 2 ^ (12 + 9 * (level - 1)) := by
        rw [show 12 + 9 * level = 9 + (12 + 9 * (level - 1)) by omega, Nat.pow_add]
      rw [hpow]
      exact Nat.mul_lt_mul_of_pos_right hindex (Nat.two_pow_pos _)
    obtain ⟨q, rfl⟩ := Nat.dvd_of_mod_eq_zero hbase
    rw [hshift, Nat.shiftLeft_eq, Nat.two_pow_add_eq_or_of_lt hplace]
  rw [bootAddress, hsum]
  split
  · rw [Nat.or_mod_two_pow, show 0xffff000000000000 % 2 ^ 48 = 0 from rfl, Nat.or_zero]
  · rfl

theorem bootAddress_digits {base : Nat} (h1 : 1 ≤ level) (h4 : level ≤ 4)
    (hbase : base % 2 ^ (12 + 9 * level) = 0) (hindex : index < 512) :
    memoryPageIndex (bootAddress base level index) level = index ∧
      (∀ l, level < l → l ≤ 4 →
        memoryPageIndex (bootAddress base level index) l = memoryPageIndex base l) ∧
      bootAddress base level index % 2 ^ (12 + 9 * (level - 1)) = 0 := by
  have hmod := bootAddress_mod h1 hbase hindex
  generalize bootAddress base level index = virt at hmod ⊢
  have hdigit : ∀ l, 1 ≤ l → l ≤ 4 → memoryPageIndex virt l =
      (base + index * 2 ^ (12 + 9 * (level - 1))) % 2 ^ 48 / 2 ^ (12 + 9 * (l - 1)) % 512 := by
    intro l hl1 hl4
    rw [← memoryPageIndex_mod hl1 hl4, hmod, memoryPageIndex_eq hl1 hl4]
  refine ⟨?_, fun l hl hl4 => ?_, ?_⟩
  · rw [hdigit level h1 h4]
    obtain rfl | rfl | rfl | rfl : level = 1 ∨ level = 2 ∨ level = 3 ∨ level = 4 := by omega
    all_goals omega
  · rw [hdigit l (by omega) hl4, memoryPageIndex_eq (by omega) hl4]
    obtain rfl | rfl | rfl : level = 1 ∨ level = 2 ∨ level = 3 := by omega
    · obtain rfl | rfl | rfl : l = 2 ∨ l = 3 ∨ l = 4 := by omega
      all_goals omega
    · obtain rfl | rfl : l = 3 ∨ l = 4 := by omega
      all_goals omega
    · obtain rfl : l = 4 := by omega
      omega
  · obtain rfl | rfl | rfl | rfl : level = 1 ∨ level = 2 ∨ level = 3 ∨ level = 4 := by omega
    all_goals omega

end Address

/-! ## Walks through validated tables -/

section Walk

variable {γ : Type} {space : VmmSpace γ} {table : Nat → Bool} {memory : ByteMemory}
  {virt level phys : Nat} {ancestors : List Nat} {writable user nx : Bool}

/-- A walk that comes to an entry that is not present, or to a valid leaf, ends there. -/
theorem walkLoop_ends (hnew : phys ∉ ancestors) (htable : table phys = true)
    (hvalue : load64 memory (entryAddress phys (memoryPageIndex virt (level + 1))) = value)
    (hend : hasFlag value vmmPresent = false ∨
      (entryValid space value (level + 1) = true ∧
        (level + 1 = 1 ∨ hasFlag value vmmHuge = true))) :
    (walkLoop space table memory virt (level + 1) phys ancestors writable user nx).isSome =
      true := by
  rw [walkLoop, if_neg hnew, htable, if_neg (by simp)]
  simp only [hvalue]
  rcases hend with habsent | ⟨hvalid, hleaf⟩
  · simp [habsent]
  · rw [if_neg (fun h => h.2 hvalid), if_pos (Or.inr hleaf)]
    rfl

/-- A walk that ended has found the entries on its way valid. -/
theorem entryValid_of_walkLoop
    (h : (walkLoop space table memory virt (level + 1) phys ancestors writable user nx).isSome)
    (hvalue : load64 memory (entryAddress phys (memoryPageIndex virt (level + 1))) = value)
    (hpresent : hasFlag value vmmPresent = true) : entryValid space value (level + 1) = true := by
  rw [walkLoop] at h
  split at h
  · cases h
  split at h
  · cases h
  simp only [hvalue] at h
  split at h
  · cases h
  · rename_i hvalid
    rw [not_and, not_not, not_not] at hvalid
    exact hvalid hpresent

/-- A walk goes on below an entry that refers to a table. -/
theorem walkLoop_next (hnew : phys ∉ ancestors) (htable : table phys = true)
    (hvalue : load64 memory (entryAddress phys (memoryPageIndex virt (level + 1))) = value)
    (hpresent : hasFlag value vmmPresent = true)
    (hvalid : entryValid space value (level + 1) = true)
    (hlevel : level ≠ 0) (hhuge : hasFlag value vmmHuge = false) :
    walkLoop space table memory virt (level + 1) phys ancestors writable user nx =
      walkLoop space table memory virt level (value &&& space.physicalMask) (phys :: ancestors)
        (writable && hasFlag value vmmWritable) (user && hasFlag value vmmUser)
          (nx || hasFlag value vmmNx) := by
  have hend : ¬ (¬ hasFlag value vmmPresent = true ∨ level + 1 = 1 ∨
      hasFlag value vmmHuge = true) := by
    rintro (h | h | h)
    · exact h hpresent
    · omega
    · rw [hhuge] at h
      cases h
  rw [walkLoop, if_neg hnew, htable, if_neg (by simp)]
  simp only [hvalue]
  rw [if_neg (fun h => h.2 hvalid), if_neg hend]

end Walk

section Validated

variable {s : KernelMachine}

/-- The walk of the kernel's space, from a table down. -/
abbrev kernelWalkLoop (s : KernelMachine) (virt level phys : Nat) (ancestors : List Nat)
    (writable user nx : Bool) : Option WalkResult :=
  walkLoop (kernelSpace s.context.system.kernel)
    ((kernelSpace s.context.system.kernel).ops.table s.context) s.memory
    virt level phys ancestors writable user nx

/-- The bits that `validate_boot_tables` checks are those of `entry_valid`, except for the alignment
of a large page. -/
theorem EntryChecked.valid {base : Nat} {ancestors : List Nat}
    (h : EntryChecked s level phys base index ancestors value)
    (hhuge : hasFlag value vmmHuge = false) :
    entryValid (kernelSpace s.context.system.kernel) value (level + 1) = true := by
  have hbits :
      ¬ (value &&& (vmmAddressMask &&&
        notU64 (kernelSpace s.context.system.kernel).physicalMask) ≠ 0 ∨
      (¬ (kernelSpace s.context.system.kernel).nxEnabled = true ∧ hasFlag value vmmNx = true) ∨
      (level + 1 = 4 ∧ hasFlag value vmmHuge = true)) := by
    rw [← Nat.and_assoc]
    exact h.bits
  rw [entryValid, if_neg hbits, if_neg]
  rintro ⟨-, hlarge⟩
  rw [hhuge] at hlarge
  cases hlarge

/-- Below a table that was accepted, every walk ends. The hypothesis `hreach` says that the walks of
the addresses below the table lead to it. -/
theorem walkLoop_of_validated (level : Nat) :
    ∀ phys base ancestors visits writable user nx, level ≤ 4 →
      (validateBootTables s level phys base ancestors visits).1 = true →
      base % 2 ^ (12 + 9 * level) = 0 →
      (∀ virt, (∀ l, level < l → l ≤ 4 → memoryPageIndex virt l = memoryPageIndex base l) →
        kernelWalkLoop s virt 4 s.context.system.kernel.information.rootPhys [] true true false =
          kernelWalkLoop s virt level phys ancestors writable user nx) →
      ∀ virt, (∀ l, level < l → l ≤ 4 → memoryPageIndex virt l = memoryPageIndex base l) →
        (kernelWalkLoop s virt level phys ancestors writable user nx).isSome = true := by
  induction level with
  | zero =>
    intro phys base ancestors visits writable user nx _ hvalid
    cases hvalid
  | succ level ih =>
    intro phys base ancestors visits writable user nx hlevel hvalid hbase hreach virt hdigits
    obtain ⟨haccepted, hnew, hentries⟩ := validateBootTables_step hvalid
    have htable : (kernelSpace s.context.system.kernel).ops.table s.context phys = true :=
      haccepted.access
    have hindex : memoryPageIndex virt (level + 1) < 512 := memoryPageIndex_lt (by omega) hlevel
    generalize hdigit : memoryPageIndex virt (level + 1) = index at hindex
    have hchecked := hentries index hindex
    generalize hvalue : load64 s.memory (entryAddress phys index) = value at hchecked
    have hload : ∀ w, memoryPageIndex w (level + 1) = index →
        load64 s.memory (entryAddress phys (memoryPageIndex w (level + 1))) = value := by
      intro w hw
      rw [hw, hvalue]
    cases hpresent : hasFlag value vmmPresent with
    | false => exact walkLoop_ends hnew htable (hload virt hdigit) (Or.inl hpresent)
    | true =>
      have hentry := hchecked hpresent
      obtain ⟨hself, habove, hlow⟩ := bootAddress_digits (by omega) hlevel hbase hindex
      by_cases hleaf : level + 1 = 1 ∨ hasFlag value vmmHuge = true
      · -- the address that was asked for has the same entries down to the leaf
        obtain ⟨mapping, hquery⟩ := hentry.leaf hleaf
        have hwalk :
            (kernelWalkLoop s (bootAddress base (level + 1) index) (level + 1) phys ancestors
            writable user nx).isSome = true := by
          rw [← hreach _ habove]
          rw [vmmSpaceQuery, Option.bind_eq_bind, Option.bind_eq_some_iff] at hquery
          obtain ⟨found, hfound, -⟩ := hquery
          rw [walk] at hfound
          split at hfound
          · cases hfound
          · exact Option.isSome_iff_exists.2 ⟨found, hfound⟩
        have hvalidEntry := entryValid_of_walkLoop hwalk (hload _ hself) hpresent
        exact walkLoop_ends hnew htable (hload virt hdigit) (Or.inr ⟨hvalidEntry, hleaf⟩)
      · rw [not_or, Bool.not_eq_true] at hleaf
        obtain ⟨hlevel0, hhuge⟩ := hleaf
        have hlevel0 : level ≠ 0 := by omega
        have hvalidEntry := hentry.valid hhuge
        obtain ⟨v, hrec⟩ := hentry.next hlevel0 hhuge
        -- one step of the walk, for every address below this entry
        have hstep : ∀ w, memoryPageIndex w (level + 1) = index →
            kernelWalkLoop s w (level + 1) phys ancestors writable user nx =
              kernelWalkLoop s w level (value &&& kernelMask s.context.system.kernel)
                (phys :: ancestors) (writable && hasFlag value vmmWritable)
                (user && hasFlag value vmmUser) (nx || hasFlag value vmmNx) :=
          fun w hw => walkLoop_next hnew htable (hload w hw) hpresent hvalidEntry hlevel0 hhuge
        have hbelow : ∀ w, (∀ l, level < l → l ≤ 4 →
            memoryPageIndex w l = memoryPageIndex (bootAddress base (level + 1) index) l) →
            memoryPageIndex w (level + 1) = index ∧
              ∀ l, level + 1 < l → l ≤ 4 → memoryPageIndex w l = memoryPageIndex base l := by
          intro w hw
          refine ⟨(hw (level + 1) (by omega) hlevel).trans hself, fun l hl hl4 => ?_⟩
          rw [hw l (by omega) hl4, habove l hl hl4]
        rw [hstep virt hdigit]
        refine ih _ _ _ v _ _ _ (by omega) hrec ?_ ?_ virt ?_
        · rw [show 12 + 9 * level = 12 + 9 * (level + 1 - 1) by omega]
          exact hlow
        · intro w hw
          obtain ⟨hwself, hwabove⟩ := hbelow w hw
          rw [hreach w hwabove, hstep w hwself]
        · intro l hl hl4
          by_cases hl1 : l = level + 1
          · rw [hl1, hdigit, hself]
          · rw [habove l (by omega) hl4, hdigits l (by omega) hl4]

/-- After the check of the root no query of a canonical address fails. -/
theorem vmmSpaceQuery_of_validated
    (h : (validateBootTables s 4 s.context.system.kernel.information.rootPhys 0 [] 0).1 = true)
    {virt : Nat} (hcanonical : memoryIsCanonical virt = true) :
    (vmmSpaceQuery (kernelSpace s.context.system.kernel) s virt).isSome = true := by
  have hwalk :=
    walkLoop_of_validated 4 _ 0 [] 0 true true false (le_refl 4) h rfl (fun _ _ => rfl) virt
    (fun l hl hl4 => by omega)
  obtain ⟨found, hfound⟩ := Option.isSome_iff_exists.1 hwalk
  have hfound' : walk (kernelSpace s.context.system.kernel) s virt = some found := by
    have hready : (kernelSpace s.context.system.kernel).initialized = true := rfl
    rw [walk, hready, hcanonical, if_neg (by simp)]
    exact hfound
  rw [vmmSpaceQuery, hfound']
  simp only [Option.bind_eq_bind, Option.bind_some]
  split
  · rfl
  · rfl

end Validated

/-! ## Tables and the memory manager -/

/-- A frame in a region of the boot loader is in no run of pages that the memory manager
hands out. -/
theorem not_allocated_of_reclaimable {run : PmmRun} (hrun : PmmReachable run)
    {region : MemoryRegion} (hmem : region ∈ run.map.regions)
    (htype : region.type = .bootloaderReclaimable)
    (hlow : region.base ≤ phys) (hhigh : phys + 4096 ≤ region.base + region.length)
    {count first : Nat} {state : PmmState}
    (halloc : pmmCoreAllocPages run.state count = (state, some first)) :
    phys / 4096 ∉ runFrames first count := by
  rintro ⟨h1, h2⟩
  have hgood := goodPmmRun_of_reachable hrun
  obtain ⟨state', result, hcall, -, -, hout⟩ := pmmCoreAllocPages_spec hgood.inv count
  rw [halloc] at hcall
  cases hcall
  rcases hout with ⟨hnone, -⟩ | ⟨frame, hsome, hallocated⟩
  · cases hnone
  cases hsome
  rw [Nat.mul_div_cancel _ (by decide)] at h1 h2
  have hspan : phys / 4096 < run.state.plan.spanFrames := by
    have := hallocated.within
    omega
  have heligible := (hallocated.free _ h1 h2).1
  have husable := hgood.map.usableFrame_iff.2 (hgood.inv.usable _ hspan heligible)
  -- the last byte of the frame of `phys` is a byte of the region
  have haligned := (hgood.map.region region hmem).aligned (by rw [htype]; rfl)
  have hbyte : region.type = .usable :=
    hgood.map.type_of_usable (husable phys (by omega) (by omega)) hmem hlow (by omega)
  rw [htype] at hbyte
  cases hbyte

/-- The region that `hhdm_region` finds is one of the map and contains the request. -/
theorem hhdmRegion_mem {context : HhdmContext} {bytes : Nat} {region : MemoryRegion}
    (h : hhdmRegion context phys bytes = some region) :
    region ∈ context.map.regions ∧ region.base ≤ phys ∧
    phys + bytes ≤ region.base + region.length := by
  rw [hhdmRegion] at h
  split at h
  · cases h
  have htest := List.find?_some h
  rw [decide_eq_true_eq] at htest
  exact ⟨List.mem_of_find?_eq_some h, htest.1, by omega⟩

/-- Whatever memory contains, `validate_boot_tables` returns after at most 65537 calls. When it
accepts the root, every table that is reached from the root lies in a region of the boot loader,
no run of the memory manager over that map hands out its frame, and a query of any canonical
address succeeds. -/
theorem boot_tables_vetted {s : KernelMachine} :
    (validateBootTables s 4 s.context.system.kernel.information.rootPhys 0 [] 0).2 ≤ 65537 ∧
    ((validateBootTables s 4 s.context.system.kernel.information.rootPhys 0 [] 0).1 = true →
      (∀ level phys, BootTable s level phys →
        ∃ region ∈ s.context.system.kernel.directMap.map.regions,
          region.type = .bootloaderReclaimable ∧ region.base ≤ phys ∧
            phys + 4096 ≤ region.base + region.length ∧
          ∀ run, PmmReachable run → run.map = s.context.system.kernel.directMap.map →
            ∀ count state first, pmmCoreAllocPages run.state count = (state, some first) →
              phys / 4096 ∉ runFrames first count) ∧
      ∀ virt, memoryIsCanonical virt = true →
        (vmmSpaceQuery (kernelSpace s.context.system.kernel) s virt).isSome = true) := by
  refine ⟨(validateBootTables_count s 4 _ 0 [] (Nat.zero_le _)).1, fun hok => ?_⟩
  refine ⟨fun level phys htable => ?_, fun virt => vmmSpaceQuery_of_validated hok⟩
  obtain ⟨region, hregion, htype⟩ := (bootAccepted_of_validate hok level phys htable).1.region
  obtain ⟨hmem, hlow, hhigh⟩ := hhdmRegion_mem hregion
  refine ⟨region, hmem, htype, hlow, hhigh, fun run hrun hmap count state first halloc => ?_⟩
  rw [← hmap] at hmem
  exact not_allocated_of_reclaimable hrun hmem htype hlow hhigh halloc

/-- The tables of the small machine are accepted, and an address without an entry can be
asked for. -/
theorem boot_tables_vetted_boot :
    (validateBootTables bootMachine 4 0x40000 0 [] 0).1 = true ∧
      (vmmSpaceQuery (kernelSpace bootMachine.context.system.kernel) bootMachine 0x1234).isSome =
        true := by
  have hok : (validateBootTables bootMachine 4 0x40000 0 [] 0).1 = true := by decide +kernel
  exact ⟨hok, ((boot_tables_vetted (s := bootMachine)).2 hok).2 0x1234 rfl⟩

end Utamo.KernelSpace
