import Utamo.Vmm.Tables

/-!
# The processor's view of the tables

What `vmm_core.c` writes is read by the processor. `hardwareWalk` is the translation of four-level
paging: from the root in `CR3` down to a leaf of 4 KiB, 2 MiB or 1 GiB. A page is writable and open
to users if the entries of all levels say so, and closed to instruction fetches if the entry of one
level says so. Reserved address bits are not checked, so that there are at least the translations of
the processor.

A walk of the editor that no callback stops finds the same entry (`hardwareWalk_of_walkLoop`).
-/

set_option autoImplicit false

namespace Utamo.Vmm

open Lib Lib.ByteMemory Memory

variable {γ : Type}
  {memory : ByteMemory} {virt : Nat}

/-- A translation with the effective permissions over all levels. -/
structure Translation where
  physical : Nat
  pageSize : Nat
  writable : Bool
  user : Bool
  noExecute : Bool
  global : Bool
  deriving DecidableEq, Repr

/-- The walk of the processor from a table of `level` down. -/
def hardwareWalk (mask : Nat) (memory : ByteMemory) (virt : Nat) :
    Nat → Nat → Bool → Bool → Bool → Option Translation
  | 0, _, _, _, _ => none
  | level + 1, table, writable, user, noExecute =>
    let value := load64 memory (entryAddress table (memoryPageIndex virt (level + 1)))
    let writable := writable && hasFlag value vmmWritable
    let user := user && hasFlag value vmmUser
    let noExecute := noExecute || hasFlag value vmmNx
    if ¬ hasFlag value vmmPresent then none
    else if level + 1 = 1 ∨ (level + 1 ≠ 4 ∧ hasFlag value vmmHuge) then
      let pageSize := levelPageSize (level + 1)
      some { physical := (value &&& mask &&& notU64 (pageSize - 1)) ||| (virt &&& (pageSize - 1))
             pageSize, writable, user, noExecute, global := hasFlag value vmmGlobal }
    -- The size bit is reserved in an entry of the root.
    else if hasFlag value vmmHuge then none
    else hardwareWalk mask memory virt level (value &&& mask) writable user noExecute

/-- The translation of a virtual address through a root table. -/
def hardwareTranslate (mask root : Nat) (memory : ByteMemory) (virt : Nat) : Option Translation :=
  if memoryIsCanonical virt then hardwareWalk mask memory virt 4 root true true false else none

/-- What the processor makes of the entry at which a walk of the editor ended. -/
def translationOf (mask virt : Nat) (found : WalkResult) : Option Translation :=
  if found.missing then none
  else
    some { physical := (found.value &&& mask &&& notU64 (levelPageSize found.level - 1)) |||
             (virt &&& (levelPageSize found.level - 1))
           pageSize := levelPageSize found.level
           writable := found.parentWritable && hasFlag found.value vmmWritable
           user := found.parentUser && hasFlag found.value vmmUser
           noExecute := found.parentNx || hasFlag found.value vmmNx
           global := hasFlag found.value vmmGlobal }

/-- The editor and the processor walk alike. -/
theorem hardwareWalk_of_walkLoop {space : VmmSpace γ} {table : Nat → Bool}
    {mask : Nat} {found : WalkResult} (hmask : space.physicalMask = mask) :
    ∀ level phys ancestors writable user nx,
      walkLoop space table memory virt level phys ancestors writable user nx = some found →
      hardwareWalk mask memory virt level phys writable user nx =
        translationOf mask virt found := by
  intro level
  induction level with
  | zero =>
    intro phys ancestors writable user nx h
    cases h
  | succ level ih =>
    intro phys ancestors writable user nx h
    rw [walkLoop] at h
    split at h
    · cases h
    split at h
    · cases h
    simp only at h
    rw [hardwareWalk]
    generalize load64 memory (entryAddress phys (memoryPageIndex virt (level + 1))) = value at h ⊢
    by_cases hpresent : hasFlag value vmmPresent = true
    · simp only [hpresent, not_true_eq_false, decide_false, not_false_eq_true, true_and,
        false_or, if_false] at h ⊢
      split at h
      · cases h
      rename_i hvalid
      rw [not_not] at hvalid
      -- A valid entry of the root does not have the size bit.
      have hroot : ¬ (level + 1 = 4 ∧ hasFlag value vmmHuge = true) := by
        rintro hbad
        rw [entryValid, if_pos (Or.inr (Or.inr hbad))] at hvalid
        cases hvalid
      split at h
      · rename_i hend
        cases h
        rw [if_pos (hend.imp_right fun hhuge => ⟨fun h4 => hroot ⟨h4, hhuge⟩, hhuge⟩),
          translationOf, if_neg Bool.false_ne_true]
      · rename_i hend
        rw [if_neg (fun hleaf => hend (hleaf.imp_right And.right)),
          if_neg (fun hhuge => hend (Or.inr hhuge))]
        rw [hmask] at h
        exact ih _ _ _ _ _ h
    · rw [Bool.not_eq_true] at hpresent
      simp only [hpresent, Bool.false_eq_true, not_false_eq_true, decide_true, not_true_eq_false,
        false_and, if_false, true_or, if_true] at h ⊢
      cases h
      rfl

/-- A walk below an entry that is closed to users is closed to users. -/
theorem hardwareWalk_user {mask : Nat} {translation : Translation} :
    ∀ level table writable noExecute,
      hardwareWalk mask memory virt level table writable false noExecute = some translation →
      translation.user = false := by
  intro level
  induction level with
  | zero =>
    intro table writable noExecute h
    cases h
  | succ level ih =>
    intro table writable noExecute h
    rw [hardwareWalk] at h
    simp only [Bool.false_and] at h
    split at h
    · cases h
    split at h
    · cases h
      rfl
    split at h
    · cases h
    · exact ih _ _ _ h

/-- Only the permission of users depends on who may come to a table. -/
theorem hardwareWalk_closed {mask : Nat} :
    ∀ level table writable user noExecute,
      (hardwareWalk mask memory virt level table writable user noExecute).map
        (fun translation => { translation with user := false }) =
      hardwareWalk mask memory virt level table writable false noExecute := by
  intro level
  induction level with
  | zero => exact fun _ _ _ _ => rfl
  | succ level ih =>
    intro table writable user noExecute
    rw [hardwareWalk, hardwareWalk]
    simp only [Bool.false_and]
    split
    · rfl
    split
    · rfl
    split
    · rfl
    · exact ih _ _ _ _

theorem hasFlag_and_not {value flag bit : Nat} (h : notU64 bit &&& flag = flag) :
    hasFlag (value &&& notU64 bit) flag = hasFlag value flag := by
  rw [hasFlag, hasFlag, Nat.and_assoc, h]

/-- An entry of the root refers to a table or to nothing. -/
theorem hardwareWalk_root {mask root : Nat} {value : Nat}
    (hvalue : load64 memory (entryAddress root (memoryPageIndex virt 4)) = value) :
    hardwareWalk mask memory virt 4 root true true false =
      if ¬ hasFlag value vmmPresent then none
      else if hasFlag value vmmHuge then none
      else hardwareWalk mask memory virt 3 (value &&& mask) (hasFlag value vmmWritable)
        (hasFlag value vmmUser) (hasFlag value vmmNx) := by
  have hroot : ¬ (3 + 1 = 1 ∨ (3 + 1 ≠ 4 ∧ hasFlag value vmmHuge = true)) := by
    rintro (h | ⟨h, -⟩) <;> omega
  rw [hardwareWalk, hvalue]
  simp only [if_neg hroot, Bool.true_and, Bool.false_or]

/-- A root whose entry for an address is that of another root, closed to users, leads to the same
translation, closed to users. -/
theorem hardwareTranslate_half {mask root root' : Nat}
    (hmask : Within mask vmmAddressMask)
    (hentry : load64 memory (entryAddress root' (memoryPageIndex virt 4)) =
      load64 memory (entryAddress root (memoryPageIndex virt 4)) &&& notU64 vmmUser) :
    hardwareTranslate mask root' memory virt =
      (hardwareTranslate mask root memory virt).map
        (fun translation => { translation with user := false }) := by
  rw [hardwareTranslate, hardwareTranslate]
  split
  · rw [hardwareWalk_root hentry, hardwareWalk_root rfl]
    generalize load64 memory (entryAddress root (memoryPageIndex virt 4)) = value
    have hnext : value &&& notU64 vmmUser &&& mask = value &&& mask := by
      have hopen : notU64 vmmUser &&& vmmAddressMask = vmmAddressMask := by decide
      rw [Within] at hmask
      rw [← hmask, Nat.and_comm mask, ← Nat.and_assoc, Nat.and_assoc value, hopen, Nat.and_assoc]
    have huser : hasFlag (value &&& notU64 vmmUser) vmmUser = false := by
      have hclosed : notU64 vmmUser &&& vmmUser = 0 := by decide
      rw [hasFlag, Nat.and_assoc, hclosed, Nat.and_zero]
      rfl
    rw [hasFlag_and_not (by decide : notU64 vmmUser &&& vmmWritable = vmmWritable),
      hasFlag_and_not (by decide : notU64 vmmUser &&& vmmNx = vmmNx),
      hasFlag_and_not (by decide : notU64 vmmUser &&& vmmPresent = vmmPresent),
      hasFlag_and_not (by decide : notU64 vmmUser &&& vmmHuge = vmmHuge), huser, hnext]
    split
    · rfl
    split
    · rfl
    · exact (hardwareWalk_closed _ _ _ _ _).symm
  · rfl

section Tree

variable {mask root : Nat} {nx : Bool} {own : Nat → Prop} {memory : ByteMemory} {virt : Nat}

/-- In a tree of the editor the processor translates an owned address through the leaf of its page,
and through nothing else. -/
theorem hardwareTranslate_tree (ht : Tables mask nx own root (slot memory))
    (hcan : memoryIsCanonical virt = true) (hown : own (memoryPageIndex virt 4)) :
    (hardwareTranslate mask root memory virt = none ∧ leafAt mask root (slot memory) virt = 0) ∨
    ∃ phys flags, leafAt mask root (slot memory) virt = phys ||| flags ∧ Frame mask phys ∧
      FlagsOk nx flags ∧ hardwareTranslate mask root memory virt =
        some ⟨phys + virt % 4096, 4096, hasFlag flags vmmWritable, hasFlag flags vmmUser,
          hasFlag flags vmmNx, hasFlag flags vmmGlobal⟩ := by
  -- Only the mask and the width of the space matter to a walk that every table is open to.
  obtain ⟨space, hmask, hnx⟩ : ∃ space : VmmSpace Unit, space.physicalMask = mask ∧
      space.nxEnabled = nx :=
    ⟨⟨root, mask, nx, true, ⟨fun _ _ => true, fun _ => (none, ()), fun _ _ => none, fun _ _ => none,
      fun _ _ => ()⟩⟩, rfl, rfl⟩
  have hopen : ¬ Refused mask root (slot memory) (fun _ => true) virt := by
    rintro ⟨depth, f, -, -, href⟩
    cases href
  have hwalk : (walkLoop space (fun _ => true) memory virt 4 root [] true true false = none ∧ _) ∨
      _ :=
    walkLoop_spec ht hmask hnx hown 3 0 root [] rfl rfl nofun
  rcases hwalk with
    ⟨-, href⟩ | ⟨found, depth, g, hfound, hend⟩
  · exact absurd href hopen
  · have htrans : hardwareTranslate mask root memory virt = translationOf mask virt found := by
      rw [hardwareTranslate, if_pos hcan]
      exact hardwareWalk_of_walkLoop hmask 4 root [] true true false hfound
    rw [htrans, hend.result]
    rcases hend.leaf with h0 | ⟨rfl, phys, flags, he, hph, hfl⟩
    · exact Or.inl ⟨by simp [translationOf, h0], h0⟩
    · right
      have hne := packed_ne_zero ht.mask_within hph hfl
      have hlt : phys < 2 ^ 64 := hph.within.le.trans_lt (mask_lt ht.mask_within)
      have hsize : levelPageSize (4 - 3) = 4096 := rfl
      have hbit : ∀ flag, vmmAddressMask &&& flag = 0 →
          hasFlag (phys ||| flags) flag = hasFlag flags flag :=
        fun flag => packed_flag ht.mask_within hph
      refine ⟨phys, flags, he, hph, hfl, ?_⟩
      rw [translationOf, he]
      simp only [hne, decide_false, Bool.false_eq_true, if_false, hsize,
        packed_mask ht.mask_within hph hfl, page_address hph.align hlt, Bool.true_and,
        Bool.false_or, hbit vmmWritable (by decide), hbit vmmUser (by decide),
        hbit vmmNx (by decide), hbit vmmGlobal (by decide)]

end Tree

end Utamo.Vmm
