import Utamo.Vmm.Tables
import Mathlib.Data.Set.Insert

/-!
# Editing page tables

What `vmm_space_map`, `vmm_space_unmap` and `vmm_space_protect` do to a tree of page tables.
`setLeaf_spec` is the store of a leaf entry. `graftChain` is the effect of the new tables that
`vmm_space_map` hangs into an empty entry, one below the other, with the page at the end; the
stores of the source come in another order, but write different entries (`slot_publish`).
-/

set_option autoImplicit false

namespace Utamo.Vmm

open Lib Lib.ByteMemory Lib.Radix Memory

variable {γ : Type} {mask root : Nat} {nx : Bool} {own : Nat → Prop} {E : Nat → Nat → Nat}
  {virt f leaf t i x : Nat} {memory : ByteMemory}

/-- The frames of the tables of a tree. -/
def treeFrames (mask root : Nat) (own : Nat → Prop) (E : Nat → Nat → Nat) : Set Nat :=
  {f | ∃ p, Dom own p ∧ descend (next mask) E root p = some f}

theorem treeFrames_congr {mask root : Nat} {own : Nat → Prop} {E E' : Nat → Nat → Nat}
    (h : ∀ p, Dom own p → descend (next mask) E' root p = descend (next mask) E root p) :
    treeFrames mask root own E' = treeFrames mask root own E :=
  Set.ext fun _ => exists_congr fun p => and_congr_right fun hp => by rw [h p hp]

/-! ## Leaves -/

/-- The entry that a leaf may hold. -/
def LeafOk (mask : Nat) (nx : Bool) (entry : Nat) : Prop :=
  entry = 0 ∨ ∃ phys flags, entry = phys ||| flags ∧ Frame mask phys ∧ FlagsOk nx flags

/-- Two addresses of one page. -/
def SamePage (v w : Nat) : Prop := v / 4096 = w / 4096

instance (v w : Nat) : Decidable (SamePage v w) := inferInstanceAs (Decidable (_ = _))

/-- An address that a space may be asked about. -/
structure Address (own : Nat → Prop) (virt : Nat) : Prop where
  canonical : memoryIsCanonical virt = true
  lt : virt < 2 ^ 64
  own : own (memoryPageIndex virt 4)

theorem path_four (virt : Nat) : path virt 4 = path virt 3 ++ [memoryPageIndex virt 1] := rfl

theorem setLeaf_spec (ht : Tables mask nx own root E) {entry : Nat} (hv : Address own virt)
    (hf : descend (next mask) E root (path virt 3) = some f) (he : LeafOk mask nx entry) :
    Tables mask nx own root (setSlot E f (memoryPageIndex virt 1) entry) ∧
      treeFrames mask root own (setSlot E f (memoryPageIndex virt 1) entry) =
        treeFrames mask root own E ∧
      ∀ w, Address own w → leafAt mask root (setSlot E f (memoryPageIndex virt 1) entry) w =
        if SamePage w virt then entry else leafAt mask root E w := by
  have hdom := path_dom (le_refl 3) hv.own
  -- Leaf tables are the ends of the paths, so no path leads through one of their entries.
  have hsame : ∀ q, Dom own q →
      descend (next mask) (setSlot E f (memoryPageIndex virt 1) entry) root q =
        descend (next mask) E root q := by
    intro q hq
    refine descend_setSlot (dom_closed own) ht.separate hdom hf hq fun hpre => ?_
    have h1 := hpre.length_le
    have h2 := hq.length
    rw [List.length_append, path_length] at h1
    simp only [List.length_cons, List.length_nil] at h1
    omega
  refine ⟨⟨ht.mask_within, ht.root_frame, ht.separate.setSlot hsame,
    ht.slots.setSlot ht.separate hdom hf hsame ?_⟩, ?_, ?_⟩
  · intro _ _
    rcases he with h0 | ⟨phys, flags, he, hph, hfl⟩
    · exact Or.inl h0
    · refine Or.inr ⟨phys, flags, he, hph, hfl, fun hlen => ?_⟩
      rw [path_length] at hlen
      omega
  · ext g
    simp only [treeFrames, Set.mem_ofPred_eq]
    constructor
    · rintro ⟨p, hp, hg⟩
      exact ⟨p, hp, by rw [← hsame p hp]; exact hg⟩
    · rintro ⟨p, hp, hg⟩
      exact ⟨p, hp, by rw [hsame p hp]; exact hg⟩
  · intro w hw
    have hdomw := path_dom (le_refl 3) hw.own
    rw [leafAt, leafAt, hsame _ hdomw]
    by_cases hpage : SamePage w virt
    · have h3 := path_congr hpage 3 (by decide)
      have h4 := path_congr hpage 4 (by decide)
      have h1 : memoryPageIndex w 1 = memoryPageIndex virt 1 := by
        rw [path_four, path_four, h3] at h4
        simpa using h4
      rw [if_pos hpage, h3, hf, h1]
      exact setSlot_self
    · rw [if_neg hpage]
      cases hg : descend (next mask) E root (path w 3) with
      | none => rfl
      | some g =>
        refine setSlot_of_ne ?_
        rintro ⟨rfl, h1⟩
        have h3 := ht.separate _ _ g hdomw hdom hg hf
        refine hpage (page_of_path hw.canonical hv.canonical hw.lt hv.lt ?_)
        rw [path_four, path_four, h3, h1]

/-! ## New tables -/

theorem graft_spec (ht : Tables mask nx own root E) {depth g : Nat} (hv : Address own virt)
    (hd : depth < 3) (hf : descend (next mask) E root (path virt depth) = some f)
    (hempty : E f (memoryPageIndex virt (4 - depth)) = 0) (hg : Frame mask g)
    (hfresh : g ∉ treeFrames mask root own E) :
    let E' := graft E f (memoryPageIndex virt (4 - depth)) (g ||| vmmNewParentFlags) g 0
    Tables mask nx own root E' ∧
      descend (next mask) E' root (path virt (depth + 1)) = some g ∧ (∀ j, E' g j = 0) ∧
      treeFrames mask root own E' = insert g (treeFrames mask root own E) ∧
      ∀ w, Address own w → leafAt mask root E' w = leafAt mask root E w := by
  intro E'
  have hdom := path_dom (by omega : depth ≤ 3) hv.own
  have hdom' := path_dom (by omega : depth + 1 ≤ 3) hv.own
  have hgraft : Graftable (next mask) E root (Dom own) (path virt depth) f
      (memoryPageIndex virt (4 - depth)) (g ||| vmmNewParentFlags) g 0 :=
    ⟨dom_closed own, ht.separate, hdom, hf, by rw [hempty, next_zero],
      fun q hq hgq => hfresh ⟨q, hq, hgq⟩,
        next_packed ht.mask_within hg (flagsOk_parent nx), next_zero⟩
  have hself : descend (next mask) E' root (path virt (depth + 1)) = some g := hgraft.descend_self
  have hblank : ∀ j, E' g j = 0 := by
    intro j
    show graft E f _ _ g 0 g j = 0
    rw [graft, setSlot_of_ne fun h => hgraft.ne h.1.symm, clear_self]
  refine ⟨⟨ht.mask_within, ht.root_frame, hgraft.separate_graft, hgraft.slots_graft ht.slots ?_ ?_⟩,
    hself, hblank, ?_, ?_⟩
  · intro _ _
    exact Or.inr ⟨g, vmmNewParentFlags, rfl, hg, flagsOk_parent nx, fun _ => rfl⟩
  · intro j _ _
    exact Or.inl rfl
  · ext x
    simp only [treeFrames, Set.mem_ofPred_eq, Set.mem_insert_iff]
    constructor
    · rintro ⟨p, hp, hx⟩
      by_cases hpp : p = path virt (depth + 1)
      · rw [hpp, hself] at hx
        cases hx
        exact Or.inl rfl
      · exact Or.inr ⟨p, hp, by rw [← hgraft.descend_of_ne hp hpp]; exact hx⟩
    · rintro (rfl | ⟨p, hp, hx⟩)
      · exact ⟨_, hdom', hself⟩
      · refine ⟨p, hp, ?_⟩
        rw [hgraft.descend_of_ne hp]
        · exact hx
        · rintro rfl
          have hnone : descend (next mask) E root (path virt depth ++
            [memoryPageIndex virt (4 - depth)]) =
              none := by
            rw [descend_snoc, hf, Option.bind_some, hempty, next_zero]
          rw [hnone] at hx
          cases hx
  · intro w hw
    have hdomw := path_dom (le_refl 3) hw.own
    by_cases hpw : path w 3 = path virt (depth + 1)
    · -- The page lies below the new table, where nothing is mapped.
      have hnew : leafAt mask root E' w = 0 := by
        rw [leafAt, hpw, hself]
        exact hblank _
      have hold : leafAt mask root E w = 0 := by
        rw [leafAt, hpw, path, descend_snoc, hf, Option.bind_some, hempty, next_zero]
      rw [hnew, hold]
    · rw [leafAt, leafAt]
      have hsame : descend (next mask) E' root (path w 3) = _ := hgraft.descend_of_ne hdomw hpw
      rw [hsame]
      cases hh : descend (next mask) E root (path w 3) with
      | none => rfl
      | some h =>
        have hne : h ≠ g := by
          rintro rfl
          exact hfresh ⟨_, hdomw, hh⟩
        show graft E f _ _ g 0 h (memoryPageIndex w 1) = E h (memoryPageIndex w 1)
        rw [graft, setSlot_of_ne, clear_of_ne hne]
        rintro ⟨rfl, -⟩
        have := congrArg List.length (ht.separate _ _ h hdomw hdom hh hf)
        rw [path_length, path_length] at this
        omega

/-- Hang the tables `frames` below the table `t`, one below the other, and a page below the last. -/
def graftChain (virt leaf : Nat) : Nat → List Nat → (Nat → Nat → Nat) → Nat → Nat → Nat
  | t, [], E => setSlot E t (memoryPageIndex virt 1) leaf
  | t, f :: frames, E =>
    graftChain virt leaf f frames
      (graft E t (memoryPageIndex virt (frames.length + 2)) (f ||| vmmNewParentFlags) f 0)

theorem graftChain_spec (virt leaf : Nat) (hv : Address own virt) (he : LeafOk mask nx leaf) :
    ∀ (frames : List Nat) (E : Nat → Nat → Nat) (t depth : Nat), Tables mask nx own root E →
      depth + frames.length = 3 → descend (next mask) E root (path virt depth) = some t →
      (frames ≠ [] → E t (memoryPageIndex virt (4 - depth)) = 0) → frames.Nodup →
      (∀ f ∈ frames, Frame mask f ∧ f ∉ treeFrames mask root own E) →
      Tables mask nx own root (graftChain virt leaf t frames E) ∧
        treeFrames mask root own (graftChain virt leaf t frames E) =
          treeFrames mask root own E ∪ {f | f ∈ frames} ∧
        ∀ w, Address own w → leafAt mask root (graftChain virt leaf t frames E) w =
          if SamePage w virt then leaf else leafAt mask root E w := by
  intro frames
  induction frames with
  | nil =>
    intro E t depth ht hdepth htable _ _ _
    obtain rfl : depth = 3 := by simpa using hdepth
    obtain ⟨h1, h2, h3⟩ := setLeaf_spec ht hv htable he
    refine ⟨h1, ?_, h3⟩
    rw [graftChain, h2]
    simp
  | cons f frames ih =>
    intro E t depth ht hdepth htable hempty hnodup hfresh
    rw [List.length_cons] at hdepth
    rw [List.nodup_cons] at hnodup
    obtain ⟨hframe, hnot⟩ := hfresh f (by simp)
    have hindex : frames.length + 2 = 4 - depth := by omega
    have hgraft := graft_spec ht hv (by omega) htable (hempty (by simp)) hframe hnot
    rw [graftChain, hindex]
    obtain ⟨ht', htable', hblank, hframes, hleaf⟩ := hgraft
    have hfresh' : ∀ g ∈ frames, Frame mask g ∧ g ∉ treeFrames mask root own
        (graft E t (memoryPageIndex virt (4 - depth)) (f ||| vmmNewParentFlags) f 0) := by
      intro g hg
      obtain ⟨hgframe, hgnot⟩ := hfresh g (by simp [hg])
      refine ⟨hgframe, ?_⟩
      rw [hframes, Set.mem_insert_iff]
      rintro (rfl | h)
      · exact hnodup.1 hg
      · exact hgnot h
    obtain ⟨h1, h2, h3⟩ := ih _ f (depth + 1) ht' (by omega) htable' (fun _ => hblank _) hnodup.2
      hfresh'
    refine ⟨h1, ?_, fun w hw => ?_⟩
    · rw [h2, hframes]
      ext x
      simp only [Set.mem_union, Set.mem_insert_iff, Set.mem_ofPred_eq, List.mem_cons]
      tauto
    · rw [h3 w hw, hleaf w hw]

/-- The chain writes one entry of the table it hangs on, and its own tables. -/
theorem graftChain_of_ne {g j : Nat} (frames : List Nat) (t : Nat) (hg : g ∉ frames)
    (hslot : ¬ (g = t ∧ j = memoryPageIndex virt (frames.length + 1))) (E : Nat → Nat → Nat) :
    graftChain virt leaf t frames E g j = E g j := by
  induction frames generalizing t E with
  | nil => exact setSlot_of_ne hslot
  | cons f frames ih =>
    rw [List.mem_cons, not_or] at hg
    rw [List.length_cons] at hslot
    rw [graftChain, ih f hg.2 (fun h => hg.1 h.1), graft, setSlot_of_ne hslot, clear_of_ne hg.1]

/-! ## The order of the stores -/

/-- Clear several tables. -/
def clearAll (E : Nat → Nat → Nat) (frames : List Nat) : Nat → Nat → Nat :=
  frames.foldl (fun E f => Radix.clear E f 0) E

/-- The entries that refer to the tables `frames`, each in the one before it. -/
def chainSlots (virt leaf : Nat) : Nat → List Nat → (Nat → Nat → Nat) → Nat → Nat → Nat
  | t, [], E => setSlot E t (memoryPageIndex virt 1) leaf
  | t, f :: frames, E =>
    chainSlots virt leaf f frames
      (setSlot E t (memoryPageIndex virt (frames.length + 2)) (f ||| vmmNewParentFlags))

theorem clearAll_setSlot {e : Nat} {frames : List Nat} (ht : t ∉ frames)
    (E : Nat → Nat → Nat) :
    clearAll (setSlot E t i e) frames = setSlot (clearAll E frames) t i e := by
  induction frames generalizing E with
  | nil => rfl
  | cons f frames ih =>
    rw [List.mem_cons, not_or] at ht
    show clearAll (Radix.clear (setSlot E t i e) f 0) frames = _
    rw [clear_setSlot ht.1, ih ht.2]
    rfl

theorem chainSlots_setSlot {e : Nat} {frames : List Nat}
    (ht : t ∉ f :: frames) (E : Nat → Nat → Nat) :
    setSlot (chainSlots virt leaf f frames E) t i e =
      chainSlots virt leaf f frames (setSlot E t i e) := by
  induction frames generalizing f E with
  | nil =>
    rw [List.mem_singleton] at ht
    rw [chainSlots, chainSlots, setSlot_comm (Ne.symm ht)]
  | cons g frames ih =>
    rw [List.mem_cons, not_or] at ht
    rw [chainSlots, chainSlots, ih ht.2, setSlot_comm (Ne.symm ht.1)]

/-- Clearing all tables first and then writing the entries is grafting one table after the other. -/
theorem chainSlots_clearAll (frames : List Nat) (t : Nat)
    (hnodup : (t :: frames).Nodup) (E : Nat → Nat → Nat) :
    chainSlots virt leaf t frames (clearAll E frames) = graftChain virt leaf t frames E := by
  induction frames generalizing t E with
  | nil => rfl
  | cons f frames ih =>
    rw [List.nodup_cons] at hnodup
    have hrest : t ∉ frames := fun h => hnodup.1 (List.mem_cons_of_mem _ h)
    rw [graftChain, ← ih f hnodup.2, graft, clearAll_setSlot hrest]
    rfl

theorem slot_linkTables (hleaf : leaf < 2 ^ 64) (hmask : Within mask vmmAddressMask)
    (frames : List Nat) (f : Nat) (hframes : ∀ g ∈ f :: frames, Frame mask g)
    (hlen : frames.length < 4) (memory : ByteMemory) :
    slot (linkTables virt leaf (frames.length + 1) (f :: frames) memory) =
      chainSlots virt leaf f frames (slot memory) := by
  induction frames generalizing f memory with
  | nil =>
    have hf := (hframes f (by simp)).align
    exact slot_store hf (memoryPageIndex_lt (by decide) (by decide)) hleaf
  | cons g frames ih =>
    have hf := (hframes f (by simp)).align
    have hg := hframes g (by simp)
    rw [List.length_cons] at hlen
    rw [linkTables, chainSlots, List.length_cons, if_neg (by omega), List.headD_cons,
      Nat.add_sub_cancel, ih g (fun h hh => hframes h (List.mem_cons_of_mem _ hh)) (by omega),
      slot_store hf (memoryPageIndex_lt (by omega) (by omega))
        (packed_lt hmask hg (flagsOk_parent true))]

/-- The stores of `vmm_space_map`, in the order of the source, graft the new tables. -/
theorem slot_publish (virt leaf : Nat) {frames : List Nat} (hleaf : leaf < 2 ^ 64)
    (hmask : Within mask vmmAddressMask) (ht : t % 4096 = 0)
    (hframes : ∀ g ∈ f :: frames, Frame mask g) (hlen : frames.length < 3)
    (hnodup : (t :: f :: frames).Nodup) (E : Nat → Nat → Nat)
    (hslot : slot memory = clearAll E (f :: frames)) :
    slot (store64 (linkTables virt leaf (frames.length + 1) (f :: frames) memory)
        (entryAddress t (memoryPageIndex virt (frames.length + 2))) (f ||| vmmNewParentFlags)) =
      graftChain virt leaf t (f :: frames) E := by
  have hf := hframes f (by simp)
  have hnot := (List.nodup_cons.1 hnodup).1
  rw [slot_store ht (memoryPageIndex_lt (by omega) (by omega))
      (packed_lt hmask hf (flagsOk_parent true)),
    slot_linkTables hleaf hmask frames f hframes (by omega), chainSlots_setSlot hnot, hslot,
    ← chainSlots_clearAll (f :: frames) t hnodup]
  rfl

/-- The frame a byte lies in. -/
def frameOf (x : Nat) : Nat := x / 4096 * 4096

theorem store64_entry_of_ne {v : Nat} (hf : f % 4096 = 0) (hi : i < 512)
    (hx : frameOf x ≠ f) : store64 memory (entryAddress f i) v x = memory x := by
  refine store64_of_outside ?_
  rw [frameOf] at hx
  rw [entryAddress]
  omega

theorem clear_page_of_ne (hf : f % 4096 = 0) (hx : frameOf x ≠ f) :
    memset memory f 0 memoryPageSize x = memory x := by
  have hsize : memoryPageSize = 4096 := rfl
  refine memset_of_outside ?_
  rw [frameOf] at hx
  omega

/-- A table depends on the bytes of its page only. -/
theorem slot_congr {m m' : ByteMemory} (h : ∀ x, frameOf x = f → m' x = m x) (i : Nat) :
    slot m' f i = slot m f i := by
  rw [slot, slot]
  by_cases hf : f % 4096 = 0 ∧ i < 512
  · rw [if_pos hf, if_pos hf]
    refine load64_congr fun x hlo hhi => h x ?_
    rw [entryAddress] at hlo hhi
    rw [frameOf]
    omega
  · rw [if_neg hf, if_neg hf]

section Congruence

variable {space : VmmSpace γ} {virt : Nat} {tableAt : Nat → Nat → Prop}

/-- A walk reads one entry of every table on its way, and nothing else. -/
theorem walkLoop_congr {table table' : Nat → Bool} {m m' : ByteMemory}
    (htable : ∀ f, table' f = table f)
    (hload : ∀ level f, tableAt (level + 1) f → table f = true →
      load64 m' (entryAddress f (memoryPageIndex virt (level + 1))) =
        load64 m (entryAddress f (memoryPageIndex virt (level + 1))))
    (hnext : ∀ level f, tableAt (level + 2) f →
      hasFlag (load64 m (entryAddress f (memoryPageIndex virt (level + 2)))) vmmPresent = true →
      hasFlag (load64 m (entryAddress f (memoryPageIndex virt (level + 2)))) vmmHuge = false →
      tableAt (level + 1)
        (load64 m (entryAddress f (memoryPageIndex virt (level + 2))) &&& space.physicalMask))
    (level phys : Nat) (ancestors : List Nat) (writable user nx : Bool)
    (hphys : tableAt level phys) :
    walkLoop space table' m' virt level phys ancestors writable user nx =
      walkLoop space table m virt level phys ancestors writable user nx := by
  induction level generalizing phys ancestors writable user nx with
  | zero => rfl
  | succ level ih =>
    rw [walkLoop, walkLoop, htable phys]
    split
    · rfl
    split
    · rfl
    rename_i hgranted
    rw [not_not] at hgranted
    simp only [hload level phys hphys hgranted]
    split
    · rfl
    split
    · rfl
    rename_i hdeeper
    simp only [not_or, Bool.not_eq_true, Bool.not_eq_false] at hdeeper
    obtain ⟨hpresent, hlevel, hhuge⟩ := hdeeper
    cases level with
    | zero => exact absurd rfl hlevel
    | succ level => exact ih _ _ _ _ _ (hnext level phys hphys hpresent hhuge)

variable (tableAt) in
theorem vmmSpaceQuery_congr_at {s s' : VmmState γ}
    (htable : ∀ f, space.ops.table s'.context f = space.ops.table s.context f)
    (hload : ∀ level f, tableAt (level + 1) f → space.ops.table s.context f = true →
      load64 s'.memory (entryAddress f (memoryPageIndex virt (level + 1))) =
        load64 s.memory (entryAddress f (memoryPageIndex virt (level + 1))))
    (hnext : ∀ level f, tableAt (level + 2) f →
      hasFlag (load64 s.memory (entryAddress f (memoryPageIndex virt (level + 2)))) vmmPresent =
        true →
      hasFlag (load64 s.memory (entryAddress f (memoryPageIndex virt (level + 2)))) vmmHuge =
        false →
      tableAt (level + 1)
        (load64 s.memory (entryAddress f (memoryPageIndex virt (level + 2))) &&&
          space.physicalMask))
    (hroot : tableAt 4 space.rootPhys) :
    vmmSpaceQuery space s' virt = vmmSpaceQuery space s virt := by
  have hwalk : walk space s' virt = walk space s virt := by
    rw [walk, walk, walkLoop_congr htable hload hnext 4 _ _ _ _ _ hroot]
  rw [vmmSpaceQuery, vmmSpaceQuery, hwalk]

/-- A query depends on the tables that the callback grants. -/
theorem vmmSpaceQuery_congr {s s' : VmmState γ}
    (htable : ∀ f, space.ops.table s'.context f = space.ops.table s.context f)
    (hbytes : ∀ f, space.ops.table s.context f = true →
      f % 4096 = 0 ∧ ∀ x, frameOf x = f → s'.memory x = s.memory x) :
    vmmSpaceQuery space s' virt = vmmSpaceQuery space s virt := by
  have hload : ∀ level f, level + 1 ≤ 4 → space.ops.table s.context f = true →
      load64 s'.memory (entryAddress f (memoryPageIndex virt (level + 1))) =
        load64 s.memory (entryAddress f (memoryPageIndex virt (level + 1))) := by
    intro level f hlevel hf
    obtain ⟨halign, hsame⟩ := hbytes f hf
    have hindex : memoryPageIndex virt (level + 1) < 512 := memoryPageIndex_lt (by omega) hlevel
    rw [← slot_eq halign hindex, ← slot_eq halign hindex]
    exact slot_congr hsame _
  have hnext : ∀ level f, level + 2 ≤ 4 →
      hasFlag (load64 s.memory (entryAddress f (memoryPageIndex virt (level + 2)))) vmmPresent =
        true →
      hasFlag (load64 s.memory (entryAddress f (memoryPageIndex virt (level + 2)))) vmmHuge =
        false →
      level + 1 ≤ 4 := by
    intros
    omega
  exact vmmSpaceQuery_congr_at (fun level _ => level ≤ 4) htable hload hnext (le_refl 4)

end Congruence

theorem linkTables_of_not_mem (frames : List Nat) (level : Nat)
    (hlevel : frames.length ≤ level) (hlevel4 : level ≤ 4)
    (hframes : ∀ g ∈ frames, g % 4096 = 0) (hx : frameOf x ∉ frames) (memory : ByteMemory) :
    linkTables virt leaf level frames memory x = memory x := by
  induction frames generalizing level memory with
  | nil => rfl
  | cons f frames ih =>
    rw [List.mem_cons, not_or] at hx
    rw [List.length_cons] at hlevel
    rw [linkTables, ih (level - 1) (by omega) (by omega)
      (fun g hg => hframes g (List.mem_cons_of_mem _ hg)) hx.2]
    exact store64_entry_of_ne (hframes f (by simp)) (memoryPageIndex_lt (by omega) (by omega)) hx.1

end Utamo.Vmm
