import Utamo.AddressSpace.Runs
import Utamo.Vmm.Hardware

/-!
# What a program can reach through its root

The processor walks the tables of a space with the permissions of all four levels
(`Utamo.Vmm.hardwareTranslate`). In the lower half it finds the pages of the ledger and nothing
else; in the upper half it finds the kernel, which no entry of the root opens to users.
-/

set_option autoImplicit false

namespace Utamo.AddressSpace

open Lib Lib.ByteMemory Lib.Ledger Memory Pmm Vmm

/-- A page that a program may have: of 4 KiB, its own, not global, and not both writable and
executable. -/
structure UserPage (virt : Nat) (t : Translation) : Prop where
  pageSize : t.pageSize = 4096
  user : t.user = true
  global : t.global = false
  low : userVmMin ≤ virt
  high : virt < userVmEnd
  exclusive : ¬ (t.writable = true ∧ t.noExecute = false)

section Live

variable {vm : Nat} {v : UserVm} {memory : ByteMemory} {virt : Nat} {t : Translation}

/-- In the lower half the processor finds the pages of the ledger only. -/
theorem Live.lower_translation (hlive : Live vm v memory) (hvirt : virt < userVmEnd)
    (h : hardwareTranslate v.space.physicalMask v.space.rootPhys memory virt = some t) :
    UserPage virt t := by
  have hv := address_iff.2 hvirt
  rcases hardwareTranslate_tree hlive.tree hv.canonical hv.own with
    ⟨hnone, -⟩ | ⟨phys, flags, hleaf, hframe, hflags, htrans⟩
  · rw [hnone] at h
    cases h
  · have hne := packed_ne_zero hlive.tree.mask_within hframe hflags
    have hpage := hlive.leaves virt hv
    rw [hleaf] at hpage
    cases hpage with
    | absent h0 _ => exact absurd h0 hne
    | page i access hi hused hpage haccess heq =>
      have hsound := hlive.page i hi hused
      have huser := accessFlags_user haccess
      -- The flags in the leaf are those of the access.
      have hflagsEq : flags = accessFlags access := by
        have hleft := packed_flags hlive.tree.mask_within hframe hflags
        rw [heq, packed_flags hlive.tree.mask_within hsound.frame huser.ok] at hleft
        exact hleft.symm
      rw [hflagsEq] at htrans
      rw [htrans] at h
      cases h
      refine ⟨rfl, huser.user_bit, huser.not_global, ?_, hvirt, ?_⟩
      · have hvalid := hsound.valid
        rw [validAddress, decide_eq_true_eq, hpage, alignDown_page] at hvalid
        omega
      · rintro ⟨hw, hx⟩
        refine huser.exclusive ⟨hw, ?_⟩
        rw [Bool.not_eq_true]
        exact hx

/-- Through the upper half nothing is open to users. -/
theorem Live.upper_translation (hlive : Live vm v memory) (hvirt : 256 ≤ memoryPageIndex virt 4)
    (h : hardwareTranslate v.space.physicalMask v.space.rootPhys memory virt = some t) :
    t.user = false := by
  have hindex : memoryPageIndex virt 4 < 512 := memoryPageIndex_lt (by decide) (by decide)
  have hclosed := hlive.upper _ hvirt
  rw [slot_eq hlive.tree.root_frame.align hindex] at hclosed
  rw [hardwareTranslate] at h
  split at h
  · rw [hardwareWalk] at h
    simp only [hclosed, Bool.true_and, Bool.false_or] at h
    split at h
    · cases h
    split at h
    · cases h
      rfl
    split at h
    · cases h
    · exact hardwareWalk_user _ _ _ _ h
  · cases h

end Live

theorem upper_index {virt : Nat} (hcan : memoryIsCanonical virt = true) (hlt : virt < 2 ^ 64)
    (hvirt : userVmEnd ≤ virt) : 256 ≤ memoryPageIndex virt 4 := by
  have hend : userVmEnd = 2 ^ 47 := rfl
  rw [memoryIsCanonical, decide_eq_true_eq] at hcan
  rw [memoryPageIndex_eq (by decide) (by decide)]
  omega

/-- In every run and for every space in use: what the processor translates in the lower half through
the root of the space is a page of 4 KiB that belongs to the program, is not global, lies between
`USER_VM_MIN` and `USER_VM_END`, and is not both writable and executable; all entries of the upper
half of the root are closed to users, and so is every address translated through them. -/
theorem user_vm_protection {s : Machine} (h : SystemReachable s) {vm : Nat}
    (hinit : (s.context.vms vm).initialized = true) :
    (∀ virt t, virt < userVmEnd →
      hardwareTranslate (s.context.vms vm).space.physicalMask (s.context.vms vm).space.rootPhys
        s.memory virt = some t → UserPage virt t) ∧
    (∀ i, i < 256 → hasFlag (load64 s.memory
      (entryAddress (s.context.vms vm).space.rootPhys (256 + i))) vmmUser = false) ∧
    ∀ virt t, userVmEnd ≤ virt → virt < 2 ^ 64 →
      hardwareTranslate (s.context.vms vm).space.physicalMask (s.context.vms vm).space.rootPhys
        s.memory virt = some t → t.user = false := by
  obtain ⟨map, hinv⟩ := systemInv_of_reachable h
  have hlive := (hinv.holds vm).live hinit
  refine ⟨fun virt t => hlive.lower_translation, fun i hi => ?_, fun virt t hlow hlt htrans => ?_⟩
  · rw [← slot_eq hlive.tree.root_frame.align (by omega)]
    exact hlive.upper _ (by omega)
  · have hcan : memoryIsCanonical virt = true := by
      rw [hardwareTranslate] at htrans
      split at htrans
      · assumption
      · cases htrans
    exact hlive.upper_translation (upper_index hcan hlt hlow) htrans

/-- A page mapped for writing is translated, and no fetch from it is allowed. -/
theorem user_vm_protection_one :
    ∃ s t, SystemReachable s ∧ (s.context.vms 8).initialized = true ∧
      hardwareTranslate (s.context.vms 8).space.physicalMask (s.context.vms 8).space.rootPhys
        s.memory 0x40123 = some t ∧ t.physical = 0x3123 ∧ t.writable = true ∧
      UserPage 0x40123 t := by
  let calls : List (Nat × UserVmCall) := [(8, .create), (8, .allocPage 0x40000 1)]
  have hvalues : ((tinyAfter calls).context.vms 8).initialized = true ∧
      hardwareTranslate ((tinyAfter calls).context.vms 8).space.physicalMask
        ((tinyAfter calls).context.vms 8).space.rootPhys (tinyAfter calls).memory 0x40123 =
          some ⟨0x3123, 4096, true, true, true, false⟩ := by
    decide +kernel
  have hreach := tinyAfter_reachable calls
  have hpage := (user_vm_protection hreach hvalues.1).1 0x40123 _ (by decide) hvalues.2
  exact ⟨_, _, hreach, hvalues.1, hvalues.2, rfl, rfl, hpage⟩

end Utamo.AddressSpace
