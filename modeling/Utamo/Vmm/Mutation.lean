import Utamo.Vmm.Editing

/-!
# Mapping, unmapping and protecting pages

The callbacks keep a book on the frames they hand out: `tables` are those that the space uses as
tables, `pending` those that `alloc` handed out and that were neither freed nor committed since.
`Contract` says what the header `vmm_core.h` asks of them: `alloc` returns a distinct frame, and
`free` and `commit` cannot fail on a frame that is pending. Nothing is promised about success: every
`alloc` may fail, and `table` may refuse any frame at any time.

Each operation then either fails and leaves all leaves as they were, or changes the leaf of the page
it was asked about (`vmmSpaceMap_spec`, `vmmSpaceUnmap_spec`, `vmmSpaceProtect_spec`); in both cases
the space is in order again (`Held`), and every byte outside its tables and outside the frames that
`alloc` may hand out is what it was (`Untouched`).
-/

set_option autoImplicit false

namespace Utamo.Vmm

open Lib Lib.ByteMemory Lib.Radix Memory

variable {γ : Type}
  {f depth t : Nat} {found : WalkResult} {E : Nat → Nat → Nat} {own : Nat → Prop}

/-! ## Callbacks -/

/-- What the callbacks of a space guarantee, in contexts that are `good`. Frames of `avoid` are in
use elsewhere. -/
structure Contract (ops : VmmOps γ) (good : γ → Prop) (tables pending : γ → Set Nat)
    (avoid : Set Nat) : Prop where
  alloc_some : ∀ c f c', good c → ops.alloc c = (some f, c') →
    good c' ∧ tables c' = tables c ∧ pending c' = insert f (pending c) ∧
      f < 2 ^ 64 ∧ f ∉ tables c ∧ f ∉ pending c ∧ f ∉ avoid
  alloc_none : ∀ c c', good c → ops.alloc c = (none, c') →
    good c' ∧ tables c' = tables c ∧ pending c' = pending c
  free : ∀ c f, good c → f ∈ pending c → ∃ c', ops.free c f = some c' ∧
    good c' ∧ tables c' = tables c ∧ pending c' = pending c \ {f}
  commit : ∀ c f, good c → f ∈ pending c → ∃ c', ops.commit c f = some c' ∧
    good c' ∧ tables c' = insert f (tables c) ∧ pending c' = pending c \ {f}
  invalidate : ∀ c virt, good c →
    good (ops.invalidate c virt) ∧ tables (ops.invalidate c virt) = tables c ∧
      pending (ops.invalidate c virt) = pending c

/-- In this context no frame can be had that may become a table. -/
def Denied (space : VmmSpace γ) (c : γ) : Prop :=
  ∀ f c', space.ops.alloc c = (some f, c') →
    physicalValid space f = false ∨ space.ops.table c' f = false

/-- One of the next `needed` calls of `alloc` gives no frame that may become a table. -/
def Starved (space : VmmSpace γ) (needed : Nat) (c : γ) : Prop :=
  ∃ k < needed, Denied space ((fun c => (space.ops.alloc c).2)^[k] c)

theorem mem_cons_diff {frames : List Nat} (hf : f ∉ frames) :
    {g | g ∈ f :: frames} \ {f} = {g | g ∈ frames} := by
  ext g
  simp only [Set.mem_sdiff, Set.mem_ofPred_eq, List.mem_cons, Set.mem_singleton_iff]
  constructor
  · rintro ⟨rfl | hg, hne⟩
    · exact absurd rfl hne
    · exact hg
  · intro hg
    exact ⟨Or.inr hg, fun h => hf (h ▸ hg)⟩

section Callbacks

variable {space : VmmSpace γ} {good : γ → Prop} {tables pending : γ → Set Nat} {avoid : Set Nat}
  (hc : Contract space.ops good tables pending avoid) (frames : List Nat) (c : γ) (hgood : good c)
  (hnodup : frames.Nodup) (hpending : pending c = {f | f ∈ frames})

include hc hgood hnodup hpending

/-- Pending frames can be freed one after the other. -/
theorem foldlM_free_spec :
    ∃ c', frames.foldlM space.ops.free c = some c' ∧ good c' ∧ tables c' = tables c ∧
      pending c' = ∅ := by
  induction frames generalizing c with
  | nil => exact ⟨c, rfl, hgood, rfl, by rw [hpending]; simp⟩
  | cons f frames ih =>
    rw [List.nodup_cons] at hnodup
    obtain ⟨c', hfree, hgood', htables, hpend⟩ := hc.free c f hgood (by rw [hpending]; simp)
    have hrest : pending c' = {g | g ∈ frames} := by
      rw [hpend, hpending, mem_cons_diff hnodup.1]
    obtain ⟨c'', hfold, hgood'', htables', hpend'⟩ := ih c' hgood' hnodup.2 hrest
    refine ⟨c'', ?_, hgood'', htables'.trans htables, hpend'⟩
    rw [List.foldlM_cons, hfree]
    exact hfold

theorem rollback_spec :
    ∃ c', rollback space c frames = some c' ∧ good c' ∧ tables c' = tables c ∧ pending c' = ∅ := by
  refine foldlM_free_spec hc frames.reverse c hgood (List.nodup_reverse.2 hnodup) ?_
  rw [hpending]
  ext f
  simp

/-- Pending frames can be committed one after the other. -/
theorem foldlM_commit_spec :
    ∃ c', frames.foldlM space.ops.commit c = some c' ∧ good c' ∧
      tables c' = tables c ∪ {f | f ∈ frames} ∧ pending c' = ∅ := by
  induction frames generalizing c with
  | nil => exact ⟨c, rfl, hgood, by simp, by rw [hpending]; simp⟩
  | cons f frames ih =>
    rw [List.nodup_cons] at hnodup
    obtain ⟨c', hcommit, hgood', htables, hpend⟩ := hc.commit c f hgood (by rw [hpending]; simp)
    have hrest : pending c' = {g | g ∈ frames} := by
      rw [hpend, hpending, mem_cons_diff hnodup.1]
    obtain ⟨c'', hfold, hgood'', htables', hpend'⟩ := ih c' hgood' hnodup.2 hrest
    refine ⟨c'', ?_, hgood'', ?_, hpend'⟩
    · rw [List.foldlM_cons, hcommit]
      exact hfold
    · rw [htables', htables]
      ext g
      simp only [Set.mem_union, Set.mem_insert_iff, Set.mem_ofPred_eq, List.mem_cons]
      tauto

end Callbacks

/-! ## Acquiring tables -/

section Checks

variable {space : VmmSpace γ} {mask root : Nat} {nx : Bool} (hs : SpaceOn space mask nx root)

include hs

theorem physicalValid_iff {phys : Nat} (hlt : phys < 2 ^ 64) (hmask : mask < 2 ^ 64) :
    physicalValid space phys = true ↔ Frame mask phys := by
  rw [physicalValid, decide_eq_true_eq, memoryIsPageAligned_iff, hs.physicalMask]
  constructor
  · rintro ⟨h1, h2⟩
    exact ⟨h1, within_of_and_not hlt h2⟩
  · rintro ⟨h1, h2⟩
    exact ⟨h1, h2.and_not hmask⟩

theorem flagsValid_iff {flags : Nat} (hlt : flags < 2 ^ 64) :
    flagsValid space flags = true ↔ FlagsOk nx flags := by
  rw [flagsValid, decide_eq_true_eq, hs.nxEnabled]
  constructor
  · rintro ⟨-, h1, h2, h3⟩
    exact ⟨within_of_and_not hlt h2, h1, by simpa using h3⟩
  · rintro ⟨h1, h2, h3⟩
    exact ⟨hs.initialized, h2, h1.and_not (by decide), by simpa using h3⟩

end Checks

/-- The frames acquired so far. -/
structure Fresh (good : γ → Prop) (tables pending : γ → Set Nat) (avoid : Set Nat) (mask : Nat)
    (frames : List Nat) (c : γ) : Prop where
  good : good c
  pending : pending c = {f | f ∈ frames}
  nodup : frames.Nodup
  frame : ∀ f ∈ frames, Frame mask f
  unused : ∀ f ∈ frames, f ∉ tables c ∧ f ∉ avoid

section Acquire

variable {space : VmmSpace γ} {good : γ → Prop} {tables pending : γ → Set Nat} {avoid : Set Nat}
  {mask root : Nat} {nx : Bool}

/-- The frames acquired so far, and one more that `alloc` handed out. -/
theorem pending_snoc {c c' : γ} {frames : List Nat}
    (hc : Contract space.ops good tables pending avoid)
    (hfresh : Fresh good tables pending avoid mask frames c)
    (halloc : space.ops.alloc c = (some f, c')) :
    good c' ∧ tables c' = tables c ∧ pending c' = {g | g ∈ frames ++ [f]} ∧
      (frames ++ [f]).Nodup ∧ f < 2 ^ 64 ∧ f ∉ tables c ∧ f ∉ avoid := by
  obtain ⟨hgood, htables, hpend, hlt, h1, h2, h3⟩ := hc.alloc_some c f c' hfresh.good halloc
  rw [hfresh.pending] at hpend h2
  refine ⟨hgood, htables, ?_, ?_, hlt, h1, h3⟩
  · rw [hpend]
    ext g
    simp [or_comm]
  · rw [List.nodup_append]
    refine ⟨hfresh.nodup, by simp, ?_⟩
    intro a ha b hb hab
    rw [List.mem_singleton] at hb
    exact h2 (hb ▸ hab ▸ ha)

theorem acquireTables_spec (hc : Contract space.ops good tables pending avoid)
    (hs : SpaceOn space mask nx root) (hmask : mask < 2 ^ 64) :
    ∀ (needed : Nat) (frames : List Nat) (s : VmmState γ),
      Fresh good tables pending avoid mask frames s.context →
      ∃ s' acquired, acquireTables space needed frames s = some (s', acquired) ∧
        (∀ x, frameOf x ∈ tables s.context ∪ avoid → s'.memory x = s.memory x) ∧
        tables s'.context = tables s.context ∧
        ((acquired = none ∧ good s'.context ∧ pending s'.context = ∅ ∧
            Starved space needed s.context) ∨
          ∃ new, acquired = some (frames ++ new) ∧ new.length = needed ∧
            Fresh good tables pending avoid mask (frames ++ new) s'.context ∧
            slot s'.memory = clearAll (slot s.memory) new) := by
  intro needed
  induction needed with
  | zero =>
    intro frames s hfresh
    refine ⟨s, some frames, rfl, fun _ _ => rfl, rfl, Or.inr ⟨[], by simp, rfl, ?_, rfl⟩⟩
    rw [List.append_nil]
    exact hfresh
  | succ needed ih =>
    intro frames s hfresh
    rcases halloc : space.ops.alloc s.context with ⟨_ | f, c⟩
    · -- No frame: those acquired before go back.
      obtain ⟨hgood, htables, hpend⟩ := hc.alloc_none _ _ hfresh.good halloc
      obtain ⟨c', hroll, hgood', htables', hpend'⟩ :=
        rollback_spec hc frames c hgood hfresh.nodup (hpend.trans hfresh.pending)
      refine ⟨⟨c', s.memory⟩, none, ?_, fun _ _ => rfl, htables'.trans htables,
        Or.inl ⟨rfl, hgood', hpend', 0, Nat.succ_pos _, ?_⟩⟩
      · simp only [acquireTables, halloc, hroll, Option.bind_eq_bind, Option.bind_some,
          Option.pure_def]
      · intro g c'' h
        rw [Function.iterate_zero, id, halloc] at h
        cases h
    · obtain ⟨hgood, htables, hpend, hnodup, hlt, hnot, havoid⟩ := pending_snoc hc hfresh halloc
      by_cases hbad : ¬ physicalValid space f ∨ ¬ space.ops.table c f
      · -- A frame that cannot be used goes back with the others.
        obtain ⟨c', hroll, hgood', htables', hpend'⟩ :=
          rollback_spec hc (frames ++ [f]) c hgood hnodup hpend
        refine ⟨⟨c', s.memory⟩, none, ?_, fun _ _ => rfl, htables'.trans htables,
          Or.inl ⟨rfl, hgood', hpend', 0, Nat.succ_pos _, ?_⟩⟩
        · simp only [acquireTables, halloc, if_pos hbad, hroll, Option.bind_eq_bind,
            Option.bind_some, Option.pure_def]
        · intro g c'' h
          rw [Function.iterate_zero, id, halloc] at h
          cases h
          simpa using hbad
      · have hvalid : physicalValid space f = true ∧ space.ops.table c f = true := by
          simpa using hbad
        have hframe : Frame mask f := (physicalValid_iff hs hlt hmask).1 hvalid.1
        have hfresh' : Fresh good tables pending avoid mask (frames ++ [f]) c := by
          refine ⟨hgood, hpend, hnodup, ?_, ?_⟩
          · intro g hg
            rw [List.mem_append, List.mem_singleton] at hg
            rcases hg with hg | rfl
            · exact hfresh.frame g hg
            · exact hframe
          · intro g hg
            rw [htables]
            rw [List.mem_append, List.mem_singleton] at hg
            rcases hg with hg | rfl
            · exact hfresh.unused g hg
            · exact ⟨hnot, havoid⟩
        obtain ⟨s', acquired, hrun, hbytes, htables', hout⟩ :=
          ih (frames ++ [f]) ⟨c, memset s.memory f 0 memoryPageSize⟩ hfresh'
        refine ⟨s', acquired, ?_, ?_, htables'.trans htables, ?_⟩
        · simp only [acquireTables, halloc, if_neg hbad]
          exact hrun
        · intro x hx
          rw [hbytes x (by rw [htables]; exact hx)]
          refine clear_page_of_ne hframe.align ?_
          rintro rfl
          exact hx.elim hnot havoid
        · rcases hout with hnone | ⟨new, hsome, hlen, hfresh'', hslot⟩
          · obtain ⟨hacq, hgood', hpend', k, hk, hdenied⟩ := hnone
            refine Or.inl ⟨hacq, hgood', hpend', k + 1, by omega, ?_⟩
            rw [Function.iterate_succ_apply, halloc]
            exact hdenied
          · refine Or.inr ⟨f :: new, by rw [hsome]; simp, by simp [hlen], ?_, ?_⟩
            · rw [List.append_assoc] at hfresh''
              exact hfresh''
            · rw [hslot, slot_clear hframe.align]
              rfl

end Acquire

/-! ## The operations -/

/-- A space in order, between two operations: its tables are those of the book, and nothing is
pending. -/
structure Held (good : γ → Prop) (tables pending : γ → Set Nat) (mask : Nat) (nx : Bool)
    (own : Nat → Prop) (root : Nat) (s : VmmState γ) : Prop where
  good : good s.context
  tree : Tables mask nx own root (slot s.memory)
  tables_eq : tables s.context = treeFrames mask root own (slot s.memory)
  pending_eq : pending s.context = ∅

/-- What no operation changes: the frames in use elsewhere, the foreign entries of the root, and
the entries of the root that refer to a table. -/
structure Untouched (mask root : Nat) (own : Nat → Prop) (avoid : Set Nat) (m m' : ByteMemory) :
    Prop where
  bytes : ∀ x, frameOf x ∈ avoid → frameOf x ∉ treeFrames mask root own (slot m) → m' x = m x
  foreign : ∀ i, ¬ own i → slot m' root i = slot m root i
  linked : ∀ i, slot m root i ≠ 0 → slot m' root i = slot m root i

/-- The leaf of the page of `virt` is `entry`, and all others are what they were. -/
def LeafSet (mask root : Nat) (own : Nat → Prop) (m m' : ByteMemory) (virt entry : Nat) : Prop :=
  ∀ w, Address own w → leafAt mask root (slot m') w =
    if SamePage w virt then entry else leafAt mask root (slot m) w

/-- All leaves are what they were. -/
def LeavesKept (mask root : Nat) (own : Nat → Prop) (m m' : ByteMemory) : Prop :=
  ∀ w, Address own w → leafAt mask root (slot m') w = leafAt mask root (slot m) w

section Operations

variable {space : VmmSpace γ} {good : γ → Prop} {tables pending : γ → Set Nat} {avoid : Set Nat}
  {mask root : Nat} {nx : Bool} {own : Nat → Prop} {s : VmmState γ} {virt phys flags : Nat}

theorem Untouched.refl (m : ByteMemory) : Untouched mask root own avoid m m :=
  ⟨fun _ _ _ => rfl, fun _ _ => rfl, fun _ _ => rfl⟩

/-- The tables of a tree do not depend on the bytes outside them. -/
theorem Held.congr {s' : VmmState γ} (hheld : Held good tables pending mask nx own root s)
    (hgood : good s'.context) (htables : tables s'.context = tables s.context)
    (hpending : pending s'.context = ∅)
    (hbytes : ∀ x, frameOf x ∈ tables s.context → s'.memory x = s.memory x) :
    Held good tables pending mask nx own root s' ∧
      LeavesKept mask root own s.memory s'.memory := by
  have hsame : ∀ p f i, Dom own p → descend (next mask) (slot s.memory) root p = some f →
      slot s'.memory f i = slot s.memory f i := by
    intro p f i hp hf
    refine slot_congr (fun x hx => hbytes x ?_) i
    rw [hheld.tables_eq, hx]
    exact ⟨p, hp, hf⟩
  obtain ⟨htree, hdesc, hleaf⟩ := hheld.tree.congr hsame
  refine ⟨⟨hgood, htree, ?_, hpending⟩, fun w hw => hleaf w hw.own⟩
  rw [htables, hheld.tables_eq, treeFrames_congr hdesc]

/-- The store of a leaf into an existing table. -/
theorem storeLeaf_spec (hc : Contract space.ops good tables pending avoid)
    (hheld : Held good tables pending mask nx own root s) (hv : Address own virt) {entry : Nat}
    (hf : descend (next mask) (slot s.memory) root (path virt 3) = some f)
    (he : LeafOk mask nx entry) (hlt : entry < 2 ^ 64) :
    Held good tables pending mask nx own root
        ⟨space.ops.invalidate s.context virt,
          store64 s.memory (entryAddress f (memoryPageIndex virt 1)) entry⟩ ∧
      Untouched mask root own avoid s.memory
        (store64 s.memory (entryAddress f (memoryPageIndex virt 1)) entry) ∧
      LeafSet mask root own s.memory
        (store64 s.memory (entryAddress f (memoryPageIndex virt 1)) entry) virt entry := by
  have hdom := path_dom (le_refl 3) hv.own
  have hframe := hheld.tree.frame hdom hf
  have hindex : memoryPageIndex virt 1 < 512 := memoryPageIndex_lt (by decide) (by decide)
  obtain ⟨hgood, htables, hpending⟩ := hc.invalidate s.context virt hheld.good
  obtain ⟨htree, hframes, hleaf⟩ := setLeaf_spec hheld.tree hv hf he
  have hslot : slot (store64 s.memory (entryAddress f (memoryPageIndex virt 1)) entry) =
      setSlot (slot s.memory) f (memoryPageIndex virt 1) entry := slot_store hframe.align hindex hlt
  -- The table of the leaf is not the root.
  have hroot : ∀ i, setSlot (slot s.memory) f (memoryPageIndex virt 1) entry root i =
      slot s.memory root i := by
    intro i
    refine setSlot_of_ne ?_
    rintro ⟨rfl, -⟩
    have h := congrArg List.length
      (hheld.tree.separate _ _ _ hdom (path_dom (Nat.zero_le 3) hv.own) hf rfl)
    rw [path_length, path_length] at h
    cases h
  refine ⟨⟨hgood, ?_, ?_, hpending.trans hheld.pending_eq⟩, ⟨?_, ?_, ?_⟩, ?_⟩
  · rw [hslot]
    exact htree
  · rw [hslot, hframes, htables]
    exact hheld.tables_eq
  · intro x _ hx
    refine store64_entry_of_ne hframe.align hindex ?_
    rintro rfl
    exact hx ⟨_, hdom, hf⟩
  · intro i _
    rw [hslot]
    exact hroot i
  · intro i _
    rw [hslot]
    exact hroot i
  · rw [LeafSet, hslot]
    exact hleaf

/-- The requests that `vmm_space_map` considers. -/
structure MapRequest (mask : Nat) (nx : Bool) (virt phys flags : Nat) : Prop where
  flags : FlagsOk nx flags
  frame : Frame mask phys
  align : virt % 4096 = 0
  canonical : memoryIsCanonical virt = true

theorem parentsAllow_of_end
    (hend : WalkEnd mask nx root E virt found depth t) (flags : Nat) :
    parentsAllow found flags = true := by
  rw [hend.result]
  simp [parentsAllow]

/-- The new tables in place, below the table `t`. -/
theorem publish_spec {m m1 : ByteMemory} {leaf : Nat} {rest : List Nat}
    (htree : Tables mask nx own root (slot m)) (hv : Address own virt) (hleaf : LeafOk mask nx leaf)
    (hlt : leaf < 2 ^ 64) (ht : descend (next mask) (slot m) root (path virt depth) = some t)
    (hempty : slot m t (memoryPageIndex virt (4 - depth)) = 0) (hlen : rest.length + 1 + depth = 3)
    (hframe : ∀ g ∈ f :: rest, Frame mask g) (hnodup : (f :: rest).Nodup)
    (hunused : ∀ g ∈ f :: rest, g ∉ treeFrames mask root own (slot m))
    (hslot : slot m1 = clearAll (slot m) (f :: rest)) :
    ∃ m', m' = store64 (linkTables virt leaf (rest.length + 1) (f :: rest) m1)
        (entryAddress t (memoryPageIndex virt (4 - depth))) (f ||| vmmNewParentFlags) ∧
      Tables mask nx own root (slot m') ∧
      treeFrames mask root own (slot m') = treeFrames mask root own (slot m) ∪ {g | g ∈ f :: rest} ∧
      LeafSet mask root own m m' virt leaf ∧
      (∀ i, ¬ own i ∨ slot m root i ≠ 0 → slot m' root i = slot m root i) ∧
      ∀ x, frameOf x ∉ treeFrames mask root own (slot m) → frameOf x ∉ f :: rest → m' x = m1 x := by
  have hdom := path_dom (by omega : depth ≤ 3) hv.own
  have htframe := htree.frame hdom ht
  have hindex : rest.length + 2 = 4 - depth := by omega
  have htnot : t ∉ f :: rest := fun h => hunused t h ⟨_, hdom, ht⟩
  have hpublish := slot_publish virt leaf hlt htree.mask_within htframe.align hframe (by omega)
    (List.nodup_cons.2 ⟨htnot, hnodup⟩) (slot m) hslot
  obtain ⟨htree', hframes, hleaf'⟩ :=
    graftChain_spec virt leaf hv hleaf (f :: rest) (slot m) t depth
    htree (by rw [List.length_cons]; omega) ht (fun _ => hempty) hnodup
    fun g hg => ⟨hframe g hg, hunused g hg⟩
  rw [hindex] at hpublish
  refine ⟨_, rfl, ?_, ?_, ?_, ?_, ?_⟩
  · rw [hpublish]
    exact htree'
  · rw [hpublish, hframes]
  · rw [LeafSet, hpublish]
    exact hleaf'
  · -- Where the chain hangs on the root, it hangs on an own entry that was empty.
    intro i hi
    rw [hpublish]
    refine graftChain_of_ne (f :: rest) t ?_ ?_ (slot m)
    · exact fun h => hunused root h ⟨[], path_dom (Nat.zero_le 3) hv.own, rfl⟩
    · rintro ⟨rfl, rfl⟩
      have h := congrArg List.length
        (htree.separate _ _ _ hdom (path_dom (Nat.zero_le 3) hv.own) ht rfl)
      rw [path_length, path_length] at h
      rw [List.length_cons, show rest.length + 1 + 1 = 4 by omega] at hi
      rcases hi with hi | hi
      · exact hi hv.own
      · rw [h] at hempty
        exact hi hempty
  · intro x hxt hxf
    rw [store64_entry_of_ne htframe.align (memoryPageIndex_lt (by omega) (by omega)),
      linkTables_of_not_mem (f :: rest) _ (by simp) (by omega)
        (fun g hg => (hframe g hg).align) hxf]
    rintro rfl
    exact hxt ⟨_, hdom, ht⟩

section Requests

variable (hc : Contract space.ops good tables pending avoid) (hs : SpaceOn space mask nx root)
  (hheld : Held good tables pending mask nx own root s)

include hc hs hheld

theorem mapThrough_spec (hv : Address own virt) (hrequest : MapRequest mask nx virt phys flags)
    (hend : WalkEnd mask nx root (slot s.memory) virt found depth t)
    (hdepth : depth < 3) (habsent : leafAt mask root (slot s.memory) virt = 0) :
    ∃ s' ok, mapThrough space s found virt (phys ||| flags) = some (s', ok) ∧
      Held good tables pending mask nx own root s' ∧
      Untouched mask root own avoid s.memory s'.memory ∧
      ((ok = true ∧ LeafSet mask root own s.memory s'.memory virt (phys ||| flags)) ∨
        (ok = false ∧ LeavesKept mask root own s.memory s'.memory ∧
          tables s'.context = tables s.context ∧ Starved space 3 s.context)) := by
  have htables := hheld.tables_eq
  have hmask := hheld.tree.mask_within
  have hlevel : found.level = 4 - depth := by rw [hend.result]
  have hentry : found.entry = entryAddress t (memoryPageIndex virt (4 - depth)) := by
    rw [hend.result]
  have hnone : Fresh good tables pending avoid mask [] s.context :=
    ⟨hheld.good, by rw [hheld.pending_eq]; simp, by simp, by simp, by simp⟩
  obtain ⟨s1, acquired, hrun, hbytes, htables1, hout⟩ :=
    acquireTables_spec hc hs (mask_lt hmask) (found.level - 1) [] s hnone
  rcases hout with ⟨rfl, hgood, hpending, hdenied⟩ | ⟨frames, rfl, hlen, hfresh, hslot⟩
  · -- The tables could not be had.
    obtain ⟨hheld', hkept⟩ := hheld.congr hgood htables1 hpending fun x hx => hbytes x (Or.inl hx)
    obtain ⟨k, hk, hdenied⟩ := hdenied
    have hroot : ∀ i, slot s1.memory root i = slot s.memory root i := by
      refine slot_congr fun x hx => hbytes x (Or.inl ?_)
      rw [htables, hx]
      exact ⟨[], path_dom (Nat.zero_le 3) hv.own, rfl⟩
    refine ⟨s1, false, ?_, hheld',
      ⟨fun x hx _ => hbytes x (Or.inr hx), fun i _ => hroot i, fun i _ => hroot i⟩,
      Or.inr ⟨rfl, hkept, htables1, k, by omega, hdenied⟩⟩
    simp only [mapThrough, hrun, Option.bind_eq_bind, Option.bind_some, Option.pure_def]
  · rw [List.nil_append] at hfresh hrun
    obtain ⟨f, rest, rfl⟩ : ∃ f rest, frames = f :: rest := by
      cases frames with
      | nil =>
        rw [List.length_nil] at hlen
        omega
      | cons f rest => exact ⟨f, rest, rfl⟩
    rw [List.length_cons] at hlen
    have hunused : ∀ g ∈ f :: rest, g ∉ treeFrames mask root own (slot s.memory) := by
      intro g hg
      rw [← htables, ← htables1]
      exact (hfresh.unused g hg).1
    obtain ⟨c, hcommit, hgood, htables2, hpending⟩ :=
      foldlM_commit_spec hc (f :: rest) s1.context hfresh.good hfresh.nodup hfresh.pending
    obtain ⟨hgood', htables3, hpending'⟩ := hc.invalidate c virt hgood
    obtain ⟨m', hm', htree, hframes, hleaf, hforeign, hkept⟩ := publish_spec hheld.tree hv
      (Or.inr ⟨phys, flags, rfl, hrequest.frame, hrequest.flags⟩)
      (packed_lt hmask hrequest.frame hrequest.flags) hend.reached (hend.value.trans habsent)
      (by omega) hfresh.frame hfresh.nodup hunused hslot
    refine ⟨⟨space.ops.invalidate c virt, m'⟩, true, ?_,
      ⟨hgood', htree, ?_, hpending'.trans hpending⟩,
      ⟨?_, fun i hi => hforeign i (Or.inl hi), fun i hi => hforeign i (Or.inr hi)⟩,
      Or.inl ⟨rfl, hleaf⟩⟩
    · rw [← hlen] at hrun
      simp only [mapThrough, ← hlen, hrun, hcommit, hentry, hm', Option.bind_eq_bind,
        Option.bind_some, Option.pure_def, List.headD_cons]
    · rw [hframes, htables3, htables2, htables1, htables]
    · intro x hx hxt
      rw [← hbytes x (Or.inr hx)]
      exact hkept x hxt fun h => (hfresh.unused _ h).2 hx

/-- Why `vmm_space_map` may fail: the request is not valid, the page is mapped already, the callback
refuses a table on the way, or no new table can be had. -/
def MapFailure (space : VmmSpace γ) (mask : Nat) (nx : Bool) (root : Nat)
    (s : VmmState γ) (virt phys flags : Nat) : Prop :=
  ¬ MapRequest mask nx virt phys flags ∨ leafAt mask root (slot s.memory) virt ≠ 0 ∨
    Refused mask root (slot s.memory) (space.ops.table s.context) virt ∨ Starved space 3 s.context

/-- What `vmm_space_map` does. -/
inductive MapOutcome (space : VmmSpace γ) (tables : γ → Set Nat) (mask : Nat)
    (nx : Bool) (own : Nat → Prop) (root : Nat) (s : VmmState γ) (virt phys flags : Nat) :
    VmmState γ → Bool → Prop
  | mapped {s' : VmmState γ} : MapRequest mask nx virt phys flags →
      leafAt mask root (slot s.memory) virt = 0 →
      LeafSet mask root own s.memory s'.memory virt (phys ||| flags) →
      MapOutcome space tables mask nx own root s virt phys flags s' true
  | failed {s' : VmmState γ} : MapFailure space mask nx root s virt phys flags →
      LeavesKept mask root own s.memory s'.memory → tables s'.context = tables s.context →
      MapOutcome space tables mask nx own root s virt phys flags s' false

/-- A request that finds the page absent at the end of its walk. -/
theorem map_absent_spec (hv : Address own virt) (hrequest : MapRequest mask nx virt phys flags)
    (hend : WalkEnd mask nx root (slot s.memory) virt found depth t)
    (habsent : leafAt mask root (slot s.memory) virt = 0) :
    ∃ s' ok, (if found.level = 1 then
        some ({ context := space.ops.invalidate s.context virt
                memory := store64 s.memory found.entry (phys ||| flags) }, true)
        else mapThrough space s found virt (phys ||| flags)) = some (s', ok) ∧
      Held good tables pending mask nx own root s' ∧
      Untouched mask root own avoid s.memory s'.memory ∧
      MapOutcome space tables mask nx own root s virt phys flags s' ok := by
  have hle := hend.depth_le
  by_cases hdepth : depth = 3
  · subst hdepth
    have hlevel : found.level = 1 := by rw [hend.result]
    have hentry : found.entry = entryAddress t (memoryPageIndex virt 1) := by rw [hend.result]
    obtain ⟨hheld', hkept, hleaf⟩ := storeLeaf_spec hc hheld hv hend.reached
      (Or.inr ⟨phys, flags, rfl, hrequest.frame, hrequest.flags⟩)
      (packed_lt hheld.tree.mask_within hrequest.frame hrequest.flags)
    refine ⟨_, true, ?_, hheld', hkept, .mapped hrequest habsent hleaf⟩
    rw [if_pos hlevel, hentry]
  · have hlevel : found.level ≠ 1 := by
      rw [hend.result]
      show 4 - depth ≠ 1
      omega
    rw [if_neg hlevel]
    obtain ⟨s', ok, hrun, hheld', hkept, hout⟩ :=
      mapThrough_spec hc hs hheld hv hrequest hend (by omega) habsent
    refine ⟨s', ok, hrun, hheld', hkept, ?_⟩
    rcases hout with ⟨rfl, hleaf⟩ | ⟨rfl, hkept', htables, hdenied⟩
    · exact .mapped hrequest habsent hleaf
    · exact .failed (Or.inr (Or.inr (Or.inr hdenied))) hkept' htables

theorem vmmSpaceMap_spec (hvirt : virt < 2 ^ 64) (hphys : phys < 2 ^ 64) (hflags : flags < 2 ^ 64)
    (hown : memoryIsCanonical virt = true → own (memoryPageIndex virt 4)) :
    ∃ s' ok, vmmSpaceMap space s virt phys flags = some (s', ok) ∧
      Held good tables pending mask nx own root s' ∧
      Untouched mask root own avoid s.memory s'.memory ∧
      MapOutcome space tables mask nx own root s virt phys flags s' ok := by
  have hmask := mask_lt hheld.tree.mask_within
  -- The failures before anything is written.
  have hfail : MapFailure space mask nx root s virt phys flags →
      ∃ s' ok, some (s, false) = some (s', ok) ∧ Held good tables pending mask nx own root s' ∧
        Untouched mask root own avoid s.memory s'.memory ∧
        MapOutcome space tables mask nx own root s virt phys flags s' ok :=
    fun h => ⟨s, false, rfl, hheld, Untouched.refl _, .failed h (fun _ _ => rfl) rfl⟩
  rw [vmmSpaceMap]
  by_cases hreq : ¬ flagsValid space flags ∨ ¬ physicalValid space phys ∨ ¬ memoryIsPageAligned virt
  · rw [if_pos hreq]
    refine hfail (Or.inl fun h => ?_)
    rcases hreq with h1 | h1 | h1
    · exact h1 ((flagsValid_iff hs hflags).2 h.flags)
    · exact h1 ((physicalValid_iff hs hphys hmask).2 h.frame)
    · exact h1 (memoryIsPageAligned_iff.2 h.align)
  rw [if_neg hreq]
  have hvalid : flagsValid space flags = true ∧ physicalValid space phys = true ∧
      memoryIsPageAligned virt = true := by
    simpa [not_or] using hreq
  by_cases hcan : memoryIsCanonical virt = true
  · have hv : Address own virt := ⟨hcan, hvirt, hown hcan⟩
    have hrequest : MapRequest mask nx virt phys flags :=
      ⟨(flagsValid_iff hs hflags).1 hvalid.1, (physicalValid_iff hs hphys hmask).1 hvalid.2.1,
        memoryIsPageAligned_iff.1 hvalid.2.2, hcan⟩
    rcases walk_spec hs hheld.tree hcan hv.own with ⟨hnone, href⟩ | ⟨found, depth, t, hwalk, hend⟩
    · rw [hnone]
      exact hfail (Or.inr (Or.inr (Or.inl href)))
    · have hallow := parentsAllow_of_end hend flags
      rw [hwalk]
      by_cases habsent : leafAt mask root (slot s.memory) virt = 0
      · have hgo : ¬ (¬ found.missing = true ∨ found.value ≠ 0 ∨
            ¬ parentsAllow found flags = true) := by
          rw [hallow, hend.result]
          simp [habsent]
        simp only [if_neg hgo]
        exact map_absent_spec hc hs hheld hv hrequest hend habsent
      · have hstop : ¬ found.missing = true := by
          rw [hend.result]
          simp [habsent]
        simp only [if_pos (Or.inl hstop)]
        exact hfail (Or.inr (Or.inl habsent))
  · have hwalk : walk space s virt = none := by
      rw [walk, if_pos (Or.inr hcan)]
    rw [hwalk]
    exact hfail (Or.inl fun h => hcan h.canonical)

/-- An aligned page that is mapped. -/
structure PagePresent (mask root : Nat) (s : VmmState γ) (virt : Nat) : Prop where
  align : virt % 4096 = 0
  canonical : memoryIsCanonical virt = true
  present : leafAt mask root (slot s.memory) virt ≠ 0

omit hc in
/-- What the operations on a mapped page start from: their walk ends at the leaf of the page, or it
finds no table or no page. -/
theorem walk_page (hvirt : virt < 2 ^ 64)
    (hown : memoryIsCanonical virt = true → own (memoryPageIndex virt 4))
    (halign : memoryIsPageAligned virt = true) :
    ((¬ PagePresent mask root s virt ∨
        Refused mask root (slot s.memory) (space.ops.table s.context) virt) ∧
      ∀ found, walk space s virt = some found → found.missing = true) ∨
    PagePresent mask root s virt ∧ Address own virt ∧ ∃ t phys old,
      walk space s virt = some
        ⟨entryAddress t (memoryPageIndex virt 1), phys ||| old, 1, false, true, true, false⟩ ∧
      descend (next mask) (slot s.memory) root (path virt 3) = some t ∧
      leafAt mask root (slot s.memory) virt = phys ||| old ∧ Frame mask phys ∧ FlagsOk nx old := by
  by_cases hcan : memoryIsCanonical virt = true
  · rcases walk_spec hs hheld.tree hcan (hown hcan) with
      ⟨hnone, href⟩ | ⟨found, depth, t, hwalk, hend⟩
    · rw [hnone]
      exact Or.inl ⟨Or.inr href, by rintro _ ⟨⟩⟩
    rcases hend.leaf with h0 | ⟨rfl, phys, old, he, hph, hfl⟩
    · refine Or.inl ⟨Or.inl fun h => h.present h0, fun found' hfound => ?_⟩
      rw [hwalk] at hfound
      cases hfound
      rw [hend.result]
      simp [h0]
    · have hne := packed_ne_zero hheld.tree.mask_within hph hfl
      refine Or.inr ⟨⟨memoryIsPageAligned_iff.1 halign, hcan, by rwa [he]⟩,
        ⟨hcan, hvirt, hown hcan⟩, t, phys, old, ?_, hend.reached, he, hph, hfl⟩
      rw [hwalk, hend.result, he]
      simp [hne]
  · refine Or.inl ⟨Or.inl fun h => hcan h.canonical, fun found hfound => ?_⟩
    rw [walk, if_pos (Or.inr hcan)] at hfound
    cases hfound

/-- What `vmm_space_unmap` does. -/
inductive UnmapOutcome (space : VmmSpace γ) (mask : Nat) (own : Nat → Prop) (root : Nat)
    (s : VmmState γ) (virt : Nat) : VmmState γ → Bool → Prop
  | unmapped {s' : VmmState γ} : PagePresent mask root s virt →
      LeafSet mask root own s.memory s'.memory virt 0 →
      s'.context = space.ops.invalidate s.context virt →
      UnmapOutcome space mask own root s virt s' true
  | failed : ¬ PagePresent mask root s virt ∨
      Refused mask root (slot s.memory) (space.ops.table s.context) virt →
      UnmapOutcome space mask own root s virt s false

theorem vmmSpaceUnmap_spec (hvirt : virt < 2 ^ 64)
    (hown : memoryIsCanonical virt = true → own (memoryPageIndex virt 4)) :
    ∃ s' ok, vmmSpaceUnmap space s virt = (s', ok) ∧
      Held good tables pending mask nx own root s' ∧
      Untouched mask root own avoid s.memory s'.memory ∧
      UnmapOutcome space mask own root s virt s' ok := by
  have hfail : (¬ PagePresent mask root s virt ∨
      Refused mask root (slot s.memory) (space.ops.table s.context) virt) →
      ∃ s' ok, (s, false) = (s', ok) ∧ Held good tables pending mask nx own root s' ∧
        Untouched mask root own avoid s.memory s'.memory ∧
        UnmapOutcome space mask own root s virt s' ok :=
    fun h => ⟨s, false, rfl, hheld, Untouched.refl _, .failed h⟩
  rw [vmmSpaceUnmap]
  by_cases halign : memoryIsPageAligned virt = true
  · rw [if_neg (not_not.2 halign)]
    rcases walk_page hs hheld hvirt hown halign with
      ⟨hnot, hmissing⟩ | ⟨hpresent, hv, t, phys, old, hwalk, ht, -⟩
    · cases hwalk : walk space s virt with
      | none => exact hfail hnot
      | some found =>
        simp only [if_pos (Or.inl (hmissing found hwalk))]
        exact hfail hnot
    · obtain ⟨hheld', hkept, hleaf⟩ := storeLeaf_spec hc hheld hv ht (Or.inl rfl) (by decide)
      rw [hwalk]
      exact ⟨_, true, rfl, hheld', hkept, .unmapped hpresent hleaf rfl⟩
  · rw [if_pos halign]
    exact hfail (Or.inl fun h => halign (memoryIsPageAligned_iff.2 h.align))

/-- What `vmm_space_protect` does. -/
inductive ProtectOutcome (space : VmmSpace γ) (mask : Nat) (nx : Bool) (own : Nat → Prop)
    (root : Nat) (s : VmmState γ) (virt flags : Nat) : VmmState γ → Bool → Prop
  | replaced {s' : VmmState γ} {phys old : Nat} : FlagsOk nx flags → PagePresent mask root s virt →
      leafAt mask root (slot s.memory) virt = phys ||| old → Frame mask phys → FlagsOk nx old →
      LeafSet mask root own s.memory s'.memory virt (phys ||| flags) →
      s'.context = space.ops.invalidate s.context virt →
      ProtectOutcome space mask nx own root s virt flags s' true
  | failed : ¬ FlagsOk nx flags ∨ ¬ PagePresent mask root s virt ∨
      Refused mask root (slot s.memory) (space.ops.table s.context) virt →
      ProtectOutcome space mask nx own root s virt flags s false

theorem vmmSpaceProtect_spec (hvirt : virt < 2 ^ 64) (hflags : flags < 2 ^ 64)
    (hown : memoryIsCanonical virt = true → own (memoryPageIndex virt 4)) :
    ∃ s' ok, vmmSpaceProtect space s virt flags = (s', ok) ∧
      Held good tables pending mask nx own root s' ∧
      Untouched mask root own avoid s.memory s'.memory ∧
      ProtectOutcome space mask nx own root s virt flags s' ok := by
  have hfail : (¬ FlagsOk nx flags ∨ ¬ PagePresent mask root s virt ∨
      Refused mask root (slot s.memory) (space.ops.table s.context) virt) →
      ∃ s' ok, (s, false) = (s', ok) ∧ Held good tables pending mask nx own root s' ∧
        Untouched mask root own avoid s.memory s'.memory ∧
        ProtectOutcome space mask nx own root s virt flags s' ok :=
    fun h => ⟨s, false, rfl, hheld, Untouched.refl _, .failed h⟩
  rw [vmmSpaceProtect]
  by_cases hreq : ¬ flagsValid space flags = true ∨ ¬ memoryIsPageAligned virt = true
  · rw [if_pos hreq]
    rcases hreq with h1 | h1
    · exact hfail (Or.inl fun h => h1 ((flagsValid_iff hs hflags).2 h))
    · exact hfail (Or.inr (Or.inl fun h => h1 (memoryIsPageAligned_iff.2 h.align)))
  rw [if_neg hreq]
  have hvalid : flagsValid space flags = true ∧ memoryIsPageAligned virt = true := by
    simpa [not_or] using hreq
  have hflagsOk := (flagsValid_iff hs hflags).1 hvalid.1
  rcases walk_page hs hheld hvirt hown hvalid.2 with
    ⟨hnot, hmissing⟩ | ⟨hpresent, hv, t, phys, old, hwalk, ht, he, hph, hfl⟩
  · cases hwalk : walk space s virt with
    | none => exact hfail (Or.inr hnot)
    | some found =>
      simp only [if_pos (Or.inl (hmissing found hwalk))]
      exact hfail (Or.inr hnot)
  · have hmask := hheld.tree.mask_within
    obtain ⟨hheld', hkept, hleaf⟩ := storeLeaf_spec hc hheld hv ht
      (Or.inr ⟨phys, flags, rfl, hph, hflagsOk⟩) (packed_lt hmask hph hflagsOk)
    rw [hwalk]
    refine ⟨_, true, ?_, hheld', hkept, .replaced hflagsOk hpresent he hph hfl hleaf rfl⟩
    simp only [packed_not_permission hmask hph hfl]
    exact if_neg (by simp [parentsAllow])

end Requests

end Operations

/-! ## The empty space -/

section Start

variable {mask root : Nat} {nx : Bool}

theorem descend_empty (hroot : ∀ i, own i → E root i = 0)
    {p : List Nat} (hp : Dom own p) (h : descend (next mask) E root p = some f) :
    p = [] ∧ f = root := by
  cases p with
  | nil =>
    cases h
    exact ⟨rfl, rfl⟩
  | cons i p =>
    rw [descend_cons, hroot i (hp.head i rfl), next_zero] at h
    cases h

/-- A root whose own entries are empty. -/
theorem tables_empty (nx : Bool) (hmask : Within mask vmmAddressMask)
    (hframe : Frame mask root) (hroot : ∀ i, own i → E root i = 0) :
    Tables mask nx own root E ∧ treeFrames mask root own E = {root} := by
  refine ⟨⟨hmask, hframe, ?_, ?_⟩, ?_⟩
  · intro p q f hp hq hfp hfq
    rw [(descend_empty hroot hp hfp).1, (descend_empty hroot hq hfq).1]
  · intro p f i hp hf _ hown
    obtain ⟨rfl, rfl⟩ := descend_empty hroot hp hf
    exact Or.inl (hroot i (hown rfl))
  · ext f
    simp only [treeFrames, Set.mem_ofPred_eq, Set.mem_singleton_iff]
    constructor
    · rintro ⟨p, hp, hf⟩
      exact (descend_empty hroot hp hf).2
    · rintro rfl
      exact ⟨[], ⟨by simp, by simp, by simp⟩, rfl⟩

theorem leafAt_empty (hroot : ∀ i, own i → E root i = 0)
    {virt : Nat} (hown : own (memoryPageIndex virt 4)) : leafAt mask root E virt = 0 := by
  rw [leafAt]
  cases h : descend (next mask) E root (path virt 3) with
  | none => rfl
  | some f =>
    have hnil := congrArg List.length (descend_empty hroot (path_dom (le_refl 3) hown) h).1
    rw [path_length] at hnil
    cases hnil

theorem slot_zero_page {memory : ByteMemory} {root : Nat}
    (h : ∀ x, root ≤ x → x < root + memoryPageSize → memory x = 0) (i : Nat) :
    slot memory root i = 0 := by
  have hsize : memoryPageSize = 4096 := rfl
  rw [slot]
  split
  · refine loadLe_zero_of fun x hlo hhi => h x ?_ ?_
    · rw [entryAddress] at hlo
      omega
    · rw [entryAddress] at hhi
      omega
  · rfl

/-- The mask of a space is that of the width it was made for. -/
theorem vmmSpaceInit_mask {context : γ} {bits : Nat} {ops : VmmOps γ} {space : VmmSpace γ}
    (h : vmmSpaceInit context root bits nx ops = some space) :
    memoryPhysicalMask bits = some space.physicalMask := by
  rw [vmmSpaceInit] at h
  obtain ⟨mask, hmask, h⟩ := Option.bind_eq_some_iff.1 h
  split at h
  · cases h
  · cases h
    exact hmask

theorem vmmSpaceInit_spec {context : γ} {bits : Nat} {ops : VmmOps γ} {space : VmmSpace γ}
    (hlt : root < 2 ^ 64) (h : vmmSpaceInit context root bits nx ops = some space) :
    ∃ mask, Within mask vmmAddressMask ∧ Frame mask root ∧ SpaceOn space mask nx root ∧
      space.ops = ops := by
  rw [vmmSpaceInit] at h
  cases hbits : memoryPhysicalMask bits with
  | none =>
    rw [hbits] at h
    cases h
  | some mask =>
    rw [hbits] at h
    simp only [Option.bind_eq_bind, Option.bind_some, Option.pure_def] at h
    split at h
    · cases h
    · rename_i hok
      cases h
      simp only [not_or, not_not] at hok
      exact ⟨mask, memoryPhysicalMask_within hbits,
        ⟨memoryIsPageAligned_iff.1 hok.1, within_of_and_not hlt hok.2.1⟩, ⟨rfl, rfl, rfl, rfl⟩, rfl⟩

end Start

end Utamo.Vmm
