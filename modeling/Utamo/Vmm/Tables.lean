import Utamo.Lib.Radix
import Utamo.Vmm.Core

/-!
# Page tables as a radix tree

The entries in memory are a store of tables (`slot`), and the tables below a root are a radix tree
of depth four. `Tables` is the invariant of a tree that only `vmm_space_map` and its siblings have
edited below the root entries `own`: parents carry the flags the editor gives them, leaves carry a
frame and permission flags, and no table is reached twice. Root entries outside `own` may be
anything.

On such a tree a walk ends at the entry of the page or at the empty entry where the page's path
breaks off, unless the callback refuses a table on the way (`walk_spec`), and a query reports the
leaf of the page (`vmmSpaceQuery_spec`).
-/

set_option autoImplicit false

namespace Utamo.Vmm

open Lib Lib.ByteMemory Lib.Radix Memory

variable {γ : Type}
  {flag f phys virt depth : Nat} {memory : ByteMemory}

/-! ## Packed entries -/

/-- A frame address of the physical address width. -/
structure Frame (mask phys : Nat) : Prop where
  align : phys % 4096 = 0
  within : Within phys mask

/-- The flags that `flags_valid` accepts. -/
structure FlagsOk (nx : Bool) (flags : Nat) : Prop where
  within : Within flags vmmPermissionMask
  present : hasFlag flags vmmPresent = true
  nx : nx = true ∨ hasFlag flags vmmNx = false

theorem flagsOk_parent (nx : Bool) : FlagsOk nx vmmNewParentFlags :=
  ⟨by rw [Within]; decide, by decide, Or.inr (by decide)⟩

section Packed

variable {mask phys flags : Nat} {nx : Bool}

theorem hasFlag_or_left {word : Nat} (h : word &&& flag = 0) :
    hasFlag (word ||| flags) flag = hasFlag flags flag := by
  rw [hasFlag, hasFlag, Nat.and_or_distrib_right, h, Nat.zero_or]

theorem hasFlag_eq_false {word : Nat} : hasFlag word flag = false ↔ word &&& flag = 0 := by
  simp [hasFlag]

/-- The address bits of an entry hold every page of the physical address space. -/
theorem within_addressMask (halign : f % 4096 = 0) (hlt : f < 2 ^ 52) :
    Within f vmmAddressMask := by
  have hmask : vmmAddressMask = (2 ^ 40 - 1) <<< 12 := rfl
  have hf : f = (f / 4096) <<< 12 := by
    rw [Nat.shiftLeft_eq]
    omega
  rw [Within, hmask]
  nth_rewrite 1 [hf]
  rw [← Nat.shiftLeft_and_distrib, Nat.and_two_pow_sub_one_eq_mod, Nat.mod_eq_of_lt (by omega)]
  exact hf.symm

theorem mask_lt (hmask : Within mask vmmAddressMask) : mask < 2 ^ 64 :=
  hmask.le.trans_lt (by decide)

variable (hmask : Within mask vmmAddressMask) (hp : Frame mask phys) (hf : FlagsOk nx flags)

include hmask hp in
/-- A frame address has no bit in common with a flag outside the address bits. -/
theorem Frame.and_eq_zero (h : vmmAddressMask &&& flag = 0) : phys &&& flag = 0 :=
  (hp.within.trans hmask).and_eq_zero h

include hmask hp in
theorem packed_flag (h : vmmAddressMask &&& flag = 0) :
    hasFlag (phys ||| flags) flag = hasFlag flags flag :=
  hasFlag_or_left (hp.and_eq_zero hmask h)

include hmask hp hf in
theorem packed_present : hasFlag (phys ||| flags) vmmPresent = true := by
  rw [packed_flag hmask hp (by decide)]
  exact hf.present

include hmask hp hf in
theorem packed_huge : hasFlag (phys ||| flags) vmmHuge = false := by
  rw [packed_flag hmask hp (by decide), hasFlag_eq_false]
  exact hf.within.and_eq_zero (by decide)

include hmask hp hf in
/-- The frame of a packed entry. -/
theorem packed_mask : (phys ||| flags) &&& mask = phys := by
  refine or_and_left hp.within (hf.within.and_eq_zero ?_)
  rw [Within] at hmask
  rw [← hmask, Nat.and_comm mask, ← Nat.and_assoc]
  have h : vmmPermissionMask &&& vmmAddressMask = 0 := by decide
  rw [h, Nat.zero_and]

include hmask hp hf in
/-- The flags of a packed entry. -/
theorem packed_flags : (phys ||| flags) &&& notU64 vmmAddressMask = flags := by
  refine or_and_right ((hp.within.trans hmask).and_not (by decide)) (hf.within.trans ?_)
  rw [Within]
  decide

include hmask hp hf in
/-- The entry without its permissions. -/
theorem packed_not_permission : (phys ||| flags) &&& notU64 vmmPermissionMask = phys := by
  refine or_and_left ((hp.within.trans hmask).trans ?_) (hf.within.and_not (by decide))
  rw [Within]
  decide

include hmask hp hf in
theorem packed_ne_zero : phys ||| flags ≠ 0 := by
  intro h
  have := packed_present hmask hp hf
  rw [h] at this
  exact absurd this (by decide)

include hmask hp hf in
theorem packed_lt : phys ||| flags < 2 ^ 64 := by
  have h1 : phys < 2 ^ 64 := hp.within.le.trans_lt (mask_lt hmask)
  have h2 : flags < 2 ^ 64 := hf.within.le.trans_lt (by decide)
  exact Nat.or_lt_two_pow h1 h2

include hmask hp hf in
theorem packed_valid {space : VmmSpace γ} (hs : space.physicalMask = mask)
    (hnx : space.nxEnabled = nx) (level : Nat) :
    entryValid space (phys ||| flags) level = true := by
  have hhuge := packed_huge hmask hp hf
  have haddr : (phys ||| flags) &&& (vmmAddressMask &&& notU64 mask) = 0 := by
    refine or_and_eq_zero ?_ ?_
    · rw [Nat.and_comm vmmAddressMask, ← Nat.and_assoc, hp.within.and_not (mask_lt hmask),
        Nat.zero_and]
    · have h : flags &&& vmmAddressMask = 0 := hf.within.and_eq_zero (by decide)
      rw [← Nat.and_assoc, h, Nat.zero_and]
  have hnxFlag : ¬ (¬ nx = true ∧ hasFlag (phys ||| flags) vmmNx = true) := by
    rintro ⟨h1, h2⟩
    rw [packed_flag hmask hp (by decide)] at h2
    rcases hf.nx with h | h
    · exact h1 h
    · rw [h] at h2
      cases h2
  rw [entryValid, hs, hnx, haddr, hhuge, if_neg, if_neg]
  · simp
  · rintro (h | h | h)
    · exact h rfl
    · exact hnxFlag h
    · simp at h

end Packed

/-! ## Entries in memory -/

/-- The entry of a table in memory; there is none in a slot that is not one of 512, nor at an
address that is not a frame. -/
def slot (memory : ByteMemory) (phys index : Nat) : Nat :=
  if phys % 4096 = 0 ∧ index < 512 then load64 memory (entryAddress phys index) else 0

theorem slot_eq {index : Nat} (hp : phys % 4096 = 0) (hi : index < 512) :
    slot memory phys index = load64 memory (entryAddress phys index) := if_pos ⟨hp, hi⟩

/-- Storing an entry. -/
theorem slot_store {index value : Nat} (hp : phys % 4096 = 0)
    (hi : index < 512) (hv : value < 2 ^ 64) :
    slot (store64 memory (entryAddress phys index) value) =
      setSlot (slot memory) phys index value := by
  funext g j
  by_cases heq : g = phys ∧ j = index
  · obtain ⟨rfl, rfl⟩ := heq
    rw [setSlot_self, slot_eq hp hi, load64_store64_self hv]
  · rw [setSlot_of_ne heq, slot, slot]
    by_cases hg : g % 4096 = 0 ∧ j < 512
    · rw [if_pos hg, if_pos hg]
      refine load64_store64_of_disjoint ?_
      simp only [entryAddress]
      omega
    · rw [if_neg hg, if_neg hg]

/-- Clearing a table. -/
theorem slot_clear (hp : phys % 4096 = 0) :
    slot (memset memory phys 0 memoryPageSize) = Radix.clear (slot memory) phys 0 := by
  have hsize : memoryPageSize = 4096 := rfl
  funext g j
  by_cases heq : g = phys
  · subst heq
    rw [clear_self, slot]
    split
    · rename_i h
      refine loadLe_zero_of fun x hlo hhi => memset_of_inside ?_ ?_
      · simp only [entryAddress] at hlo
        omega
      · simp only [entryAddress] at hhi
        omega
    · rfl
  · rw [clear_of_ne heq, slot, slot]
    by_cases hg : g % 4096 = 0 ∧ j < 512
    · rw [if_pos hg, if_pos hg]
      refine load64_congr fun x hlo hhi => memset_of_outside ?_
      simp only [entryAddress] at hlo hhi
      omega
    · rw [if_neg hg, if_neg hg]

/-! ## The tree -/

/-- The table an entry refers to. -/
def next (mask entry : Nat) : Option Nat :=
  if hasFlag entry vmmPresent then some (entry &&& mask) else none

/-- The paths to the tables of a tree, below the root entries `own`. -/
structure Dom (own : Nat → Prop) (p : List Nat) : Prop where
  length : p.length ≤ 3
  index : ∀ i ∈ p, i < 512
  head : ∀ i, p.head? = some i → own i

theorem dom_closed (own : Nat → Prop) : PrefixClosed (Dom own) := by
  intro p q h
  refine ⟨?_, fun i hi => h.index i (by simp [hi]), fun i hi => h.head i ?_⟩
  · have := h.length
    rw [List.length_append] at this
    omega
  · cases p with
    | nil => cases hi
    | cons j p => exact hi

/-- The entries that the editor writes: empty, or a frame with flags, and in the upper three levels
the flags of a parent. -/
def SlotOk (mask : Nat) (nx : Bool) (own : Nat → Prop) (p : List Nat) (i entry : Nat) : Prop :=
  i < 512 → (p = [] → own i) → entry = 0 ∨ ∃ phys flags, entry = phys ||| flags ∧ Frame mask phys ∧
    FlagsOk nx flags ∧ (p.length < 3 → flags = vmmNewParentFlags)

/-- The tables below the root entries `own`, in a store of tables. -/
structure Tables (mask : Nat) (nx : Bool) (own : Nat → Prop) (root : Nat) (E : Nat → Nat → Nat) :
    Prop where
  mask_within : Within mask vmmAddressMask
  root_frame : Frame mask root
  separate : Separate (next mask) E root (Dom own)
  slots : Slots (next mask) E root (Dom own) (SlotOk mask nx own)

/-- The indices of a virtual address from the root down, for the first `depth` levels. -/
def path (virt : Nat) : Nat → List Nat
  | 0 => []
  | depth + 1 => path virt depth ++ [memoryPageIndex virt (4 - depth)]

theorem path_length (virt depth : Nat) : (path virt depth).length = depth := by
  induction depth with
  | zero => rfl
  | succ depth ih => simp [path, ih]

theorem path_dom {own : Nat → Prop} (hd : depth ≤ 3)
    (hown : own (memoryPageIndex virt 4)) : Dom own (path virt depth) := by
  refine ⟨by rw [path_length]; exact hd, ?_, ?_⟩
  · induction depth with
    | zero => simp [path]
    | succ depth ih =>
      intro i hi
      rw [path, List.mem_append, List.mem_singleton] at hi
      rcases hi with hi | rfl
      · exact ih (by omega) i hi
      · exact memoryPageIndex_lt (by omega) (by omega)
  · have hhead : ∀ d i, (path virt d).head? = some i → i = memoryPageIndex virt 4 := by
      intro d
      induction d with
      | zero => simp [path]
      | succ d ih =>
        intro i hi
        cases hp : path virt d with
        | nil =>
          have hd0 : d = 0 := by rw [← path_length virt d, hp]; rfl
          subst hd0
          simpa [path] using hi.symm
        | cons j p =>
          rw [path, hp] at hi
          exact ih i (by rw [hp]; exact hi)
    intro i hi
    rw [hhead depth i hi]
    exact hown

section Tree

variable {mask root : Nat} {nx : Bool} {own : Nat → Prop} {E : Nat → Nat → Nat}

theorem next_packed {flags : Nat} (hmask : Within mask vmmAddressMask) (hp : Frame mask phys)
    (hf : FlagsOk nx flags) : next mask (phys ||| flags) = some phys := by
  rw [next, packed_present hmask hp hf, if_pos rfl, packed_mask hmask hp hf]

theorem next_zero : next mask 0 = none := by
  rw [next, if_neg (by decide)]

/-- Every table of the tree is a frame. -/
theorem Tables.frame (ht : Tables mask nx own root E) {p : List Nat} (hp : Dom own p)
    (hf : descend (next mask) E root p = some f) : Frame mask f := by
  rcases List.eq_nil_or_concat p with rfl | ⟨q, i, rfl⟩
  · cases hf
    exact ht.root_frame
  · rw [List.concat_eq_append] at hp hf
    rw [descend_snoc] at hf
    cases hg : descend (next mask) E root q with
    | none =>
      rw [hg] at hf
      cases hf
    | some g =>
      rw [hg, Option.bind_some] at hf
      have hq := dom_closed own q [i] hp
      have hown : q = [] → own i := by
        rintro rfl
        exact hp.head i rfl
      rcases ht.slots q g i hq hg (hp.index i (by simp)) hown with h0 |
        ⟨phys, flags, he, hph, hfl, -⟩
      · rw [h0, next_zero] at hf
        cases hf
      · rw [he, next_packed ht.mask_within hph hfl] at hf
        cases hf
        exact hph

/-- The leaf entry of the page of a virtual address; zero without one. -/
def leafAt (mask root : Nat) (E : Nat → Nat → Nat) (virt : Nat) : Nat :=
  match descend (next mask) E root (path virt 3) with
  | none => 0
  | some f => E f (memoryPageIndex virt 1)

/-- Where a walk of the tree ends: at the table at depth `depth` on the path of `virt`, with the
entry of the page, or with an empty entry. -/
structure WalkEnd (mask : Nat) (nx : Bool) (root : Nat) (E : Nat → Nat → Nat) (virt : Nat)
    (found : WalkResult) (depth table : Nat) : Prop where
  depth_le : depth ≤ 3
  reached : descend (next mask) E root (path virt depth) = some table
  result : found = WalkResult.mk (entryAddress table (memoryPageIndex virt (4 - depth)))
    (leafAt mask root E virt) (4 - depth) (leafAt mask root E virt = 0) true true false
  value : E table (memoryPageIndex virt (4 - depth)) = leafAt mask root E virt
  leaf : leafAt mask root E virt = 0 ∨ (depth = 3 ∧ ∃ phys flags,
    leafAt mask root E virt = phys ||| flags ∧ Frame mask phys ∧ FlagsOk nx flags)

theorem leafAt_of_break {table : Nat} (hd : depth < 3)
    (htable : descend (next mask) E root (path virt depth) = some table)
    (hempty : E table (memoryPageIndex virt (4 - depth)) = 0) : leafAt mask root E virt = 0 := by
  have hbreak : ∀ k, descend (next mask) E root (path virt (depth + 1 + k)) = none := by
    intro k
    induction k with
    | zero => rw [Nat.add_zero, path, descend_snoc, htable, Option.bind_some, hempty, next_zero]
    | succ k ih => rw [← Nat.add_assoc, path, descend_snoc, ih, Option.bind_none]
  have h3 := hbreak (2 - depth)
  rw [show depth + 1 + (2 - depth) = 3 by omega] at h3
  rw [leafAt, h3]

/-- A walk of the tree refused by the callback. -/
def Refused (mask root : Nat) (E : Nat → Nat → Nat) (table : Nat → Bool) (virt : Nat) : Prop :=
  ∃ depth f, depth ≤ 3 ∧ descend (next mask) E root (path virt depth) = some f ∧ table f = false

/-- One round of the loop of `walk`: the callback refuses, the entry is empty, or it is packed. -/
theorem walkLoop_round {space : VmmSpace γ} {table : Nat → Bool}
    {level : Nat} {ancestors : List Nat}
    (ht : Tables mask nx own root (slot memory)) (hmask : space.physicalMask = mask)
    (hnx : space.nxEnabled = nx) (hown : own (memoryPageIndex virt 4)) (hlevel : level + depth = 3)
    (hf : descend (next mask) (slot memory) root (path virt depth) = some f)
    (hanc : ∀ a ∈ ancestors, ∃ d, d < depth ∧
      descend (next mask) (slot memory) root (path virt d) = some a) :
    (walkLoop space table memory virt (level + 1) f ancestors true true false = none ∧
      Refused mask root (slot memory) table virt) ∨
    (walkLoop space table memory virt (level + 1) f ancestors true true false =
        some ⟨entryAddress f (memoryPageIndex virt (level + 1)), 0, level + 1, true, true, true,
          false⟩ ∧
      slot memory f (memoryPageIndex virt (level + 1)) = 0) ∨
    ∃ phys flags, slot memory f (memoryPageIndex virt (level + 1)) = phys ||| flags ∧
      Frame mask phys ∧ FlagsOk nx flags ∧ (level ≠ 0 → flags = vmmNewParentFlags) ∧
      walkLoop space table memory virt (level + 1) f ancestors true true false =
        if level + 1 = 1 then
          some ⟨entryAddress f (memoryPageIndex virt (level + 1)), phys ||| flags, level + 1, false,
            true, true, false⟩
        else walkLoop space table memory virt level phys (f :: ancestors) true true false := by
  have hdom : Dom own (path virt depth) := path_dom (by omega) hown
  have hframe := ht.frame hdom hf
  have hindex : memoryPageIndex virt (level + 1) < 512 := memoryPageIndex_lt (by omega) (by omega)
  have hslot : slot memory f (memoryPageIndex virt (level + 1)) = _ := slot_eq hframe.align hindex
  -- A table is not its own ancestor.
  have hnot : f ∉ ancestors := by
    intro hmem
    obtain ⟨d, hd, hda⟩ := hanc f hmem
    have heq := ht.separate _ _ f (path_dom (by omega) hown) hdom hda hf
    have := congrArg List.length heq
    rw [path_length, path_length] at this
    omega
  have hown' : path virt depth = [] → own (memoryPageIndex virt (level + 1)) := by
    intro hnil
    have hd0 : depth = 0 := by rw [← path_length virt depth, hnil]; rfl
    rw [show level + 1 = 4 by omega]
    exact hown
  rw [walkLoop, if_neg hnot]
  cases htable : table f with
  | false =>
    left
    exact ⟨by simp, depth, f, by omega, hf, htable⟩
  | true =>
    right
    simp only [not_true_eq_false, if_false, ← hslot]
    rcases ht.slots _ f _ hdom hf hindex hown' with h0 | ⟨phys, flags, he, hph, hfl, hparent⟩
    · left
      rw [h0]
      exact ⟨by simp [hasFlag], rfl⟩
    · right
      have hpres := packed_present ht.mask_within hph hfl
      have hvalid := packed_valid ht.mask_within hph hfl hmask hnx (level + 1)
      have hhuge := packed_huge ht.mask_within hph hfl
      refine ⟨phys, flags, he, hph, hfl, fun hne => hparent (by rw [path_length]; omega), ?_⟩
      rw [he, hpres, hvalid, hhuge]
      simp only [not_true_eq_false, not_false_eq_true, true_and, if_false, false_or,
        or_false, Bool.false_eq_true, decide_false]
      by_cases hl : level + 1 = 1
      · rw [if_pos hl, if_pos hl]
      · have hfl7 := hparent (by rw [path_length]; omega)
        rw [if_neg hl, if_neg hl, hmask, packed_mask ht.mask_within hph hfl,
          packed_flag ht.mask_within hph (by decide), packed_flag ht.mask_within hph (by decide),
          packed_flag ht.mask_within hph (by decide), hfl7]
        rfl

/-- The loop of `walk` from a table on the path of the address on. -/
theorem walkLoop_spec {space : VmmSpace γ} {table : Nat → Bool}
    (ht : Tables mask nx own root (slot memory)) (hmask : space.physicalMask = mask)
    (hnx : space.nxEnabled = nx) (hown : own (memoryPageIndex virt 4)) :
    ∀ level depth f ancestors, level + depth = 3 →
      descend (next mask) (slot memory) root (path virt depth) = some f →
      (∀ a ∈ ancestors, ∃ d, d < depth ∧
        descend (next mask) (slot memory) root (path virt d) = some a) →
      (walkLoop space table memory virt (level + 1) f ancestors true true false = none ∧
        Refused mask root (slot memory) table virt) ∨
      ∃ found d g, walkLoop space table memory virt (level + 1) f ancestors true true false =
        some found ∧ WalkEnd mask nx root (slot memory) virt found d g := by
  intro level
  induction level with
  | zero =>
    intro depth f ancestors hdepth hf hanc
    obtain rfl : depth = 3 := by omega
    have hleaf : leafAt mask root (slot memory) virt = slot memory f (memoryPageIndex virt 1) := by
      rw [leafAt, hf]
    rcases walkLoop_round ht hmask hnx hown (by omega) hf hanc with
      ⟨hnone, href⟩ | ⟨hsome, h0⟩ | ⟨phys, flags, he, hph, hfl, -, hloop⟩
    · exact Or.inl ⟨hnone, href⟩
    · refine Or.inr ⟨_, 3, f, hsome, le_refl _, hf, ?_, hleaf.symm, Or.inl (hleaf.trans h0)⟩
      rw [hleaf.trans h0]
      simp
    · rw [if_pos rfl] at hloop
      have hne := packed_ne_zero ht.mask_within hph hfl
      refine Or.inr ⟨_, 3, f, hloop, le_refl _, hf, ?_, hleaf.symm,
        Or.inr ⟨rfl, phys, flags, hleaf.trans he, hph, hfl⟩⟩
      rw [hleaf, he]
      simp [hne]
  | succ level ih =>
    intro depth f ancestors hdepth hf hanc
    rcases walkLoop_round ht hmask hnx hown (by omega) hf hanc with
      ⟨hnone, href⟩ | ⟨hsome, h0⟩ | ⟨phys, flags, he, hph, hfl, hparent, hloop⟩
    · exact Or.inl ⟨hnone, href⟩
    · have hlevel : level + 1 + 1 = 4 - depth := by omega
      rw [hlevel] at hsome h0 ⊢
      have hleaf := leafAt_of_break (by omega) hf h0
      refine Or.inr ⟨_, depth, f, hsome, by omega, hf, ?_, by rw [h0, hleaf], Or.inl hleaf⟩
      rw [hleaf]
      simp
    · rw [if_neg (by omega)] at hloop
      rw [hloop]
      refine ih (depth + 1) phys (f :: ancestors) (by omega) ?_ ?_
      · rw [path, descend_snoc, hf, Option.bind_some, show 4 - depth = level + 1 + 1 by omega, he,
          next_packed ht.mask_within hph hfl]
      · intro a ha
        rcases List.mem_cons.1 ha with rfl | ha
        · exact ⟨depth, by omega, hf⟩
        · obtain ⟨d, hd, hda⟩ := hanc a ha
          exact ⟨d, by omega, hda⟩

/-- A space over the tables below a root. -/
structure SpaceOn (space : VmmSpace γ) (mask : Nat) (nx : Bool) (root : Nat) : Prop where
  initialized : space.initialized = true
  physicalMask : space.physicalMask = mask
  nxEnabled : space.nxEnabled = nx
  rootPhys : space.rootPhys = root

/-- A walk of an owned address ends on its path, unless the callback refuses a table. -/
theorem walk_spec {space : VmmSpace γ} {s : VmmState γ}
    (hs : SpaceOn space mask nx root) (ht : Tables mask nx own root (slot s.memory))
    (hcan : memoryIsCanonical virt = true) (hown : own (memoryPageIndex virt 4)) :
    (walk space s virt = none ∧
      Refused mask root (slot s.memory) (space.ops.table s.context) virt) ∨
    ∃ found depth table, walk space s virt = some found ∧
      WalkEnd mask nx root (slot s.memory) virt found depth table := by
  have hwalk : walk space s virt = walkLoop space (space.ops.table s.context) s.memory virt 4 root
      [] true true false := by
    rw [walk, if_neg, hs.rootPhys]
    simp [hs.initialized, hcan]
  rw [hwalk]
  exact walkLoop_spec ht hs.physicalMask hs.nxEnabled hown 3 0 root [] rfl rfl nofun

/-- What a query reports for a leaf entry. -/
def mappingOf (mask entry virt : Nat) : VmmMapping :=
  if entry = 0 then { mapped := false, physical := 0, flags := 0, pageSize := 0 }
  else { mapped := true, physical := (entry &&& mask) + virt % 4096
         flags := entry &&& notU64 vmmAddressMask, pageSize := 4096 }

/-- The physical address of a byte of a page. -/
theorem page_address (hp : phys % 4096 = 0) (hlt : phys < 2 ^ 64) :
    (phys &&& notU64 (4096 - 1)) ||| (virt &&& (4096 - 1)) = phys + virt % 4096 := by
  have hoff : virt &&& (2 ^ 12 - 1) = virt % 2 ^ 12 := Nat.and_two_pow_sub_one_eq_mod virt 12
  have hlow : Within phys (notU64 (4096 - 1)) := by
    refine within_of_and_not hlt ?_
    rw [show notU64 (notU64 (4096 - 1)) = 2 ^ 12 - 1 by decide, Nat.and_two_pow_sub_one_eq_mod]
    exact hp
  rw [Within] at hlow
  rw [hlow, show 4096 - 1 = 2 ^ 12 - 1 by rfl, hoff]
  obtain ⟨k, rfl⟩ : ∃ k, phys = 2 ^ 12 * k := ⟨phys / 4096, by omega⟩
  exact (Nat.two_pow_add_eq_or_of_lt (Nat.mod_lt _ (by decide)) k).symm

theorem vmmSpaceQuery_spec {space : VmmSpace γ} {s : VmmState γ}
    (hs : SpaceOn space mask nx root) (ht : Tables mask nx own root (slot s.memory))
    (hcan : memoryIsCanonical virt = true) (hown : own (memoryPageIndex virt 4)) :
    (vmmSpaceQuery space s virt = none ∧
      Refused mask root (slot s.memory) (space.ops.table s.context) virt) ∨
    vmmSpaceQuery space s virt =
      some (mappingOf mask (leafAt mask root (slot s.memory) virt) virt) := by
  rcases walk_spec hs ht hcan hown with ⟨hnone, href⟩ | ⟨found, depth, table, hwalk, hend⟩
  · exact Or.inl ⟨by rw [vmmSpaceQuery, hnone]; rfl, href⟩
  · right
    simp only [vmmSpaceQuery, hwalk, Option.bind_eq_bind, Option.bind_some, Option.pure_def]
    rw [hend.result]
    rcases hend.leaf with h0 | ⟨rfl, phys, flags, he, hph, hfl⟩
    · simp [h0, mappingOf]
    · have hne := packed_ne_zero ht.mask_within hph hfl
      have hlt : phys < 2 ^ 64 := hph.within.le.trans_lt (mask_lt ht.mask_within)
      have hsize : levelPageSize (4 - 3) = 4096 := rfl
      simp only [he, hne, decide_false, Bool.false_eq_true, if_false, hsize, hs.physicalMask,
        packed_mask ht.mask_within hph hfl, page_address hph.align hlt, mappingOf, mappingFlags]
      simp

/-! ## Changes of the tree -/

/-- The tree depends on the entries of its own tables only. -/
theorem Tables.congr {E' : Nat → Nat → Nat} (ht : Tables mask nx own root E)
    (hsame : ∀ p f i, Dom own p → descend (next mask) E root p = some f → E' f i = E f i) :
    Tables mask nx own root E' ∧
      (∀ p, Dom own p → descend (next mask) E' root p = descend (next mask) E root p) ∧
      ∀ virt, own (memoryPageIndex virt 4) →
        leafAt mask root E' virt = leafAt mask root E virt := by
  have hdesc : ∀ p, Dom own p → descend (next mask) E' root p = descend (next mask) E root p := by
    intro p hp
    refine descend_congr fun p' j rest hsplit g hg => ?_
    rw [hsame p' g j (dom_closed own p' (j :: rest) (hsplit ▸ hp)) hg]
  refine ⟨⟨ht.mask_within, ht.root_frame, ?_, ?_⟩, hdesc, ?_⟩
  · intro p q f hp hq hfp hfq
    rw [hdesc p hp] at hfp
    rw [hdesc q hq] at hfq
    exact ht.separate p q f hp hq hfp hfq
  · intro p f i hp hf
    rw [hdesc p hp] at hf
    rw [hsame p f i hp hf]
    exact ht.slots p f i hp hf
  · intro virt hown
    have hdom : Dom own (path virt 3) := path_dom (le_refl 3) hown
    rw [leafAt, leafAt, hdesc _ hdom]
    cases hf : descend (next mask) E root (path virt 3) with
    | none => rfl
    | some f => exact hsame _ f _ hdom hf

theorem path_congr {v w : Nat} (h : v / 4096 = w / 4096) (depth : Nat) (hd : depth ≤ 4) :
    path v depth = path w depth := by
  induction depth with
  | zero => rfl
  | succ depth ih =>
    have hidx : memoryPageIndex v (4 - depth) = memoryPageIndex w (4 - depth) := by
      have hdiv : ∀ x, x / 2 ^ (12 + 9 * (4 - depth - 1)) =
          x / 4096 / 2 ^ (9 * (4 - depth - 1)) := by
        intro x
        rw [Nat.div_div_eq_div_mul, Nat.pow_add]
      rw [memoryPageIndex_eq (by omega) (by omega), memoryPageIndex_eq (by omega) (by omega), hdiv,
        hdiv, h]
    rw [path, path, ih (by omega), hidx]

/-- The four indices determine the page of a canonical address. -/
theorem page_of_path {v w : Nat} (hv : memoryIsCanonical v = true) (hw : memoryIsCanonical w = true)
    (hv64 : v < 2 ^ 64) (hw64 : w < 2 ^ 64) (hpath : path v 4 = path w 4) :
    v / 4096 = w / 4096 := by
  simp only [memoryIsCanonical, decide_eq_true_eq] at hv hw
  have h4 : memoryPageIndex v 4 = memoryPageIndex w 4 ∧ memoryPageIndex v 3 = memoryPageIndex w 3 ∧
      memoryPageIndex v 2 = memoryPageIndex w 2 ∧ memoryPageIndex v 1 = memoryPageIndex w 1 := by
    simpa [path, and_assoc] using hpath
  simp (disch := decide) only [memoryPageIndex_eq] at h4
  simp only [Nat.reduceSub, Nat.reduceMul, Nat.reduceAdd, Nat.reducePow] at h4 hv64 hw64
  omega

end Tree

end Utamo.Vmm
