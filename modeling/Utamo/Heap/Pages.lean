import Utamo.KernelSpace.Core

/-!
# Page transactions

`kernel/memory/heap_pages.c` grows a mapped prefix of an interval of the arena by whole pages.
It works through six callbacks, so that the kernel heap and the kernel stacks share it. Each new
page takes a frame, clears it and maps it; when one of these steps fails, the pages mapped so
far are unmapped and their frames returned. A rollback that loses track of a frame marks the
state as corrupted.

`PageLaws` is the contract of `heap_pages.h`. Under it a call of `heap_pages_grow` maps all pages or
none, and never corrupts the state (`heapPagesGrow_spec`).
-/

set_option autoImplicit false

namespace Utamo.Heap

open Lib Memory Vmm KernelSpace

variable {γ : Type}

/-! ## Model -/

/-- `VMM_TEST_SIZE` -/
def vmmTestSize : Nat := 0x400000

/-- `struct heap_page_ops`; the context is the state of the callbacks. A panic in `map`
is `none`. -/
structure PageOps (γ : Type) where
  alloc : γ → γ × Option Nat
  free : γ → Nat → γ × Bool
  zero : γ → Nat → γ × Bool
  map : γ → Nat → Nat → Nat → Option (γ × Bool)
  query : γ → Nat → Option VmmMapping
  unmap : γ → Nat → γ × Bool

/-- `struct heap_pages`; callbacks that are null are `none`. -/
structure HeapPages (γ : Type) where
  ops : Option (PageOps γ)
  base : Nat
  capacityBytes : Nat
  mappedBytes : Nat
  nx : Bool
  initialized : Bool
  corrupted : Bool

/-- `{0}` -/
def HeapPages.zero : HeapPages γ := ⟨none, 0, 0, 0, false, false, false⟩

/-- `valid_interval` -/
def validInterval (base capacity : Nat) : Bool :=
  let first := vmmDynamicBase + vmmTestSize
  let arenaEnd := vmmDynamicBase + vmmDynamicSize
  capacity ≠ 0 ∧ memoryIsPageAligned base ∧ memoryIsPageAligned capacity ∧ first ≤ base ∧
    base < arenaEnd ∧ capacity ≤ arenaEnd - base ∧ memoryIsCanonical base ∧
    memoryIsCanonical (base + capacity - 1)

/-- `heap_pages_init` -/
def heapPagesInit (state : HeapPages γ) (base capacityBytes : Nat) (nx : Bool)
    (ops : Option (PageOps γ)) : HeapPages γ × Bool :=
  if state.initialized ∨ ¬ ops.isSome ∨ ¬ validInterval base capacityBytes then (state, false)
  else
    ({ ops, base, capacityBytes, mappedBytes := 0, nx, initialized := true, corrupted := false },
      true)

section Grow

variable (ops : PageOps γ)

/-- `release_frame` -/
def releaseFrame (state : HeapPages γ) (c : γ) (phys : Nat) : HeapPages γ × γ :=
  match ops.free c phys with
  | (c, true) => (state, c)
  | (c, false) => ({ state with corrupted := true }, c)

/-- One round of `rollback`. -/
def rollbackPage (state : HeapPages γ) (c : γ) (virt : Nat) : HeapPages γ × γ :=
  match ops.query c virt with
  | none => ({ state with corrupted := true }, c)
  | some mapping =>
    if ¬ mapping.mapped ∨ mapping.pageSize ≠ memoryPageSize ∨
        ¬ memoryIsPageAligned mapping.physical then
      ({ state with corrupted := true }, c)
    else
      match ops.unmap c virt with
      -- A frame that may still be mapped is not returned.
      | (c, false) => ({ state with corrupted := true }, c)
      | (c, true) =>
        match ops.query c virt with
        | none => ({ state with corrupted := true }, c)
        | some after =>
          if after.mapped then ({ state with corrupted := true }, c)
          else releaseFrame ops state c mapping.physical

/-- `rollback`, of the first `pages` pages from `virt` on, the last one first. -/
def rollback (virt : Nat) : Nat → HeapPages γ → γ → HeapPages γ × γ
  | 0, state, c => (state, c)
  | pages + 1, state, c =>
    let (state, c) := rollbackPage ops state c (virt + memoryPageSize * pages)
    rollback virt pages state c

/-- The first loop of `heap_pages_grow`: nobody has mapped a page of the new range. -/
def rangeUnmapped (c : γ) (virt : Nat) : Nat → Bool
  | 0 => true
  | pages + 1 =>
    match ops.query c virt with
    | none => false
    | some mapping => ! mapping.mapped && rangeUnmapped c (virt + memoryPageSize) pages

/-- One round of the second loop of `heap_pages_grow`: take a frame, clear it and map it. A frame
that cannot be mapped is returned. -/
def growPage (virt flags : Nat) (state : HeapPages γ) (c : γ) : Option (HeapPages γ × γ × Bool) :=
  match ops.alloc c with
  | (c, none) => some (state, c, false)
  | (c, some phys) =>
    if ¬ memoryIsPageAligned phys ∨ phys &&& notU64 vmmAddressMask ≠ 0 then
      let (state, c) := releaseFrame ops { state with corrupted := true } c phys
      some (state, c, false)
    else
      match ops.zero c phys with
      | (c, false) =>
        let (state, c) := releaseFrame ops state c phys
        some (state, c, false)
      | (c, true) =>
        match ops.map c virt phys flags with
        | none => none
        | some (c, false) =>
          let (state, c) := releaseFrame ops state c phys
          some (state, c, false)
        | some (c, true) => some (state, c, true)

/-- The second loop of `heap_pages_grow`: `done` pages from `virt` on are mapped, and `pages`
remain. The result says whether all of them could be mapped. -/
def growLoop (virt flags : Nat) : Nat → Nat → HeapPages γ → γ → Option (HeapPages γ × γ × Bool)
  | 0, _, state, c => some (state, c, true)
  | pages + 1, done, state, c =>
    match growPage ops (virt + memoryPageSize * done) flags state c with
    | none => none
    | some (state, c, false) =>
      let (state, c) := rollback ops virt done state c
      some (state, c, false)
    | some (state, c, true) => growLoop virt flags pages (done + 1) state c

end Grow

/-- The flags of a new page. -/
def growFlags (nx : Bool) : Nat := vmmPresent ||| vmmWritable ||| (if nx then vmmNx else 0)

/-- What `heap_pages_grow` requires of its arguments. -/
def growAccepted (state : HeapPages γ) (oldMapped newMapped : Nat) : Bool :=
  state.initialized ∧ ¬ state.corrupted ∧ validInterval state.base state.capacityBytes ∧
    oldMapped = state.mappedBytes ∧ oldMapped ≤ newMapped ∧ newMapped ≤ state.capacityBytes ∧
    memoryIsPageAligned oldMapped ∧ memoryIsPageAligned newMapped

/-- `heap_pages_grow`. The addresses do not wrap, because the interval was checked. -/
def heapPagesGrow (state : HeapPages γ) (c : γ) (oldMapped newMapped : Nat) :
    Option (HeapPages γ × γ × Bool) :=
  match state.ops with
  | none => some (state, c, false)
  | some ops =>
    if ¬ growAccepted state oldMapped newMapped then some (state, c, false)
    else
      let virt := state.base + oldMapped
      let pages := (newMapped - oldMapped) / memoryPageSize
      if ¬ rangeUnmapped ops c virt pages then some (state, c, false)
      else
        match growLoop ops virt (growFlags state.nx) pages 0 state c with
        | none => none
        | some (state, c, false) => some (state, c, false)
        | some (state, c, true) => some ({ state with mappedBytes := newMapped }, c, true)

/-! ## The contract of the callbacks -/

/-- The first address of a page of the arena. -/
def ArenaPage (virt : Nat) : Prop :=
  virt % 4096 = 0 ∧ vmmDynamicBase ≤ virt ∧ virt < vmmDynamicBase + vmmDynamicSize

/-- What a page is mapped to. -/
structure PageEntry where
  phys : Nat
  flags : Nat
  deriving DecidableEq, Repr

/-- A query that reports what a page is mapped to. -/
def Reports (mapping : VmmMapping) : Option PageEntry → Prop
  | none => mapping.mapped = false
  | some entry => mapping.mapped = true ∧ mapping.pageSize = 4096 ∧ mapping.physical = entry.phys ∧
      mapping.flags = entry.flags

/-- What the callbacks act on: the states in which they keep their contract, the pages that the
caller may map, the true mapping of the arena, the frames that were allocated and not returned, and
the frames with nothing but zeros. -/
structure PageView (γ : Type) where
  good : γ → Prop
  inside : Nat → Prop
  page : γ → Nat → Option PageEntry
  owned : γ → Set Nat
  blank : γ → Set Nat

section Laws

variable (V : PageView γ)

/-- All pages are what they were, except for one. -/
def PageChanged (c c' : γ) (virt : Nat) (entry : Option PageEntry) : Prop :=
  ∀ v, ArenaPage v → V.page c' v = if v = virt then entry else V.page c v

/-- All pages are what they were. -/
def PagesSame (c c' : γ) : Prop := ∀ v, ArenaPage v → V.page c' v = V.page c v

/-- Frames that are clear stay clear while they are owned. -/
def BlankKept (c c' : γ) : Prop := ∀ f ∈ V.owned c, f ∈ V.owned c' → f ∈ V.blank c → f ∈ V.blank c'

/-- The contract of `heap_pages.h`. -/
structure PageLaws (ops : PageOps γ) : Prop where
  arena : ∀ virt, V.inside virt → ArenaPage virt
  alloc : ∀ c, V.good c → ∃ c' result, ops.alloc c = (c', result) ∧ V.good c' ∧ PagesSame V c c' ∧
    BlankKept V c c' ∧ ((result = none ∧ V.owned c' = V.owned c) ∨
      ∃ f, result = some f ∧ f ∉ V.owned c ∧ V.owned c' = insert f (V.owned c) ∧ f % 4096 = 0 ∧
        f &&& notU64 vmmAddressMask = 0)
  free : ∀ c f, V.good c → f ∈ V.owned c → ∃ c', ops.free c f = (c', true) ∧ V.good c' ∧
    PagesSame V c c' ∧ BlankKept V c c' ∧ V.owned c' = V.owned c \ {f}
  zero : ∀ c f, V.good c → f ∈ V.owned c → ∃ c' ok, ops.zero c f = (c', ok) ∧ V.good c' ∧
    PagesSame V c c' ∧ BlankKept V c c' ∧ V.owned c' = V.owned c ∧ (ok = true → f ∈ V.blank c')
  map : ∀ c virt f flags, V.good c → V.inside virt → V.page c virt = none → f ∈ V.owned c →
    flags < 2 ^ 64 → ∃ c' ok, ops.map c virt f flags = some (c', ok) ∧ V.good c' ∧
      BlankKept V c c' ∧ V.owned c' = V.owned c ∧
      (ok = true → PageChanged V c c' virt (some ⟨f, flags⟩)) ∧ (ok = false → PagesSame V c c')
  query : ∀ c virt, V.good c → V.inside virt →
    ∃ mapping, ops.query c virt = some mapping ∧ Reports mapping (V.page c virt)
  unmap : ∀ c virt, V.good c → V.inside virt → V.page c virt ≠ none →
    ∃ c', ops.unmap c virt = (c', true) ∧ V.good c' ∧ BlankKept V c c' ∧
      V.owned c' = V.owned c ∧ PageChanged V c c' virt none

end Laws

/-! ## Pages that are mapped one after another -/

/-- The first `done` pages from `virt` on are mapped to new frames, and all else is as in `c₀`. -/
structure Grown (V : PageView γ) (virt flags done : Nat) (frame : Nat → Nat) (c₀ c : γ) : Prop where
  good : V.good c
  owned : V.owned c = V.owned c₀ ∪ {f | ∃ i, i < done ∧ frame i = f}
  fresh : ∀ i, i < done → frame i ∉ V.owned c₀
  distinct : ∀ i j, i < done → j < done → frame i = frame j → i = j
  align : ∀ i, i < done → frame i % 4096 = 0
  mapped : ∀ i, i < done → V.page c (virt + 4096 * i) = some ⟨frame i, flags⟩
  blank : ∀ i, i < done → frame i ∈ V.blank c
  others : ∀ v, ArenaPage v → (∀ i, i < done → v ≠ virt + 4096 * i) → V.page c v = V.page c₀ v

section Steps

variable {V : PageView γ} {ops : PageOps γ} {virt flags done : Nat}
  {frame : Nat → Nat} {c₀ c c' : γ}

theorem Grown.nil (hc : V.good c₀) : Grown V virt flags 0 frame c₀ c₀ := by
  refine ⟨hc, ?_, ?_, ?_, ?_, ?_, ?_, fun _ _ _ => rfl⟩
  · ext f
    simp
  all_goals
    intro i hi
    omega

/-- Nothing is left of a transaction without pages. -/
theorem Grown.owned_zero (h : Grown V virt flags 0 frame c₀ c) :
    V.owned c = V.owned c₀ := by
  rw [h.owned]
  ext f
  simp

theorem Grown.frame_mem (h : Grown V virt flags done frame c₀ c) {i : Nat}
    (hi : i < done) : frame i ∈ V.owned c := by
  rw [h.owned]
  exact Or.inr ⟨i, hi, rfl⟩

/-- A step that keeps the mappings and the frames of the transaction. -/
theorem Grown.of_same (h : Grown V virt flags done frame c₀ c) (hgood : V.good c')
    (hin : ∀ i, i < done → ArenaPage (virt + 4096 * i)) (hpages : PagesSame V c c')
    (hblank : BlankKept V c c') (howned : V.owned c' = V.owned c) :
    Grown V virt flags done frame c₀ c' := by
  refine ⟨hgood, howned.trans h.owned, h.fresh, h.distinct, h.align, fun i hi => ?_, fun i hi => ?_,
    fun v hv hne => ?_⟩
  · rw [hpages _ (hin i hi)]
    exact h.mapped i hi
  · have hmem := h.frame_mem hi
    refine hblank _ hmem ?_ (h.blank i hi)
    rw [howned]
    exact hmem
  · rw [hpages v hv]
    exact h.others v hv hne

/-- The next page is mapped to a new frame. -/
theorem Grown.snoc (h : Grown V virt flags done frame c₀ c) (hgood : V.good c')
    (hin : ∀ i, i < done + 1 → ArenaPage (virt + 4096 * i)) {f : Nat} (hnew : f ∉ V.owned c)
    (halign : f % 4096 = 0) (howned : V.owned c' = insert f (V.owned c))
    (hkept : ∀ g ∈ V.owned c, g ∈ V.blank c → g ∈ V.blank c') (hblank : f ∈ V.blank c')
    (hpages : PageChanged V c c' (virt + 4096 * done) (some ⟨f, flags⟩)) :
    Grown V virt flags (done + 1) (Function.update frame done f) c₀ c' := by
  have hold : ∀ i, i < done → Function.update frame done f i = frame i :=
    fun i hi => Function.update_of_ne (by omega) f frame
  have hlast : Function.update frame done f done = f := Function.update_self done f frame
  -- A page of the transaction is an earlier one or the last.
  have hsplit : ∀ i, i < done + 1 → i < done ∨ i = done := fun i hi => by omega
  have hne : ∀ i, i < done → frame i ≠ f := by
    rintro i hi rfl
    exact hnew (h.frame_mem hi)
  refine ⟨hgood, ?_, fun i hi => ?_, fun i j hi hj heq => ?_, fun i hi => ?_, fun i hi => ?_,
    fun i hi => ?_, fun v hv hout => ?_⟩
  · rw [howned, h.owned]
    ext g
    constructor
    · rintro (rfl | hg | ⟨i, hi, rfl⟩)
      · exact Or.inr ⟨done, by omega, hlast⟩
      · exact Or.inl hg
      · exact Or.inr ⟨i, by omega, hold i hi⟩
    · rintro (hg | ⟨i, hi, rfl⟩)
      · exact Or.inr (Or.inl hg)
      · rcases hsplit i hi with hi | rfl
        · rw [hold i hi]
          exact Or.inr (Or.inr ⟨i, hi, rfl⟩)
        · exact Or.inl hlast
  · rcases hsplit i hi with hi | rfl
    · rw [hold i hi]
      exact h.fresh i hi
    · rw [hlast]
      intro hmem
      apply hnew
      rw [h.owned]
      exact Or.inl hmem
  · rcases hsplit i hi with hi | rfl <;> rcases hsplit j hj with hj | rfl
    · rw [hold i hi, hold j hj] at heq
      exact h.distinct i j hi hj heq
    · rw [hold i hi, hlast] at heq
      exact absurd heq (hne i hi)
    · rw [hold j hj, hlast] at heq
      exact absurd heq.symm (hne j hj)
    · rfl
  · rcases hsplit i hi with hi | rfl
    · rw [hold i hi]
      exact h.align i hi
    · rw [hlast]
      exact halign
  · rcases hsplit i hi with hi | rfl
    · rw [hpages _ (hin i (by omega)), if_neg (by omega), hold i hi]
      exact h.mapped i hi
    · rw [hpages _ (hin i (by omega)), if_pos rfl, hlast]
  · rcases hsplit i hi with hi | rfl
    · rw [hold i hi]
      exact hkept _ (h.frame_mem hi) (h.blank i hi)
    · rw [hlast]
      exact hblank
  · rw [hpages v hv, if_neg (hout done (by omega))]
    exact h.others v hv fun i hi => hout i (by omega)

/-- The last page is gone and its frame returned. -/
theorem Grown.pop (h : Grown V virt flags (done + 1) frame c₀ c) (hgood : V.good c')
    (hin : ∀ i, i < done + 1 → ArenaPage (virt + 4096 * i))
    (habsent : V.page c₀ (virt + 4096 * done) = none)
    (howned : V.owned c' = V.owned c \ {frame done})
    (hkept : BlankKept V c c')
    (hpages : PageChanged V c c' (virt + 4096 * done) none) :
    Grown V virt flags done frame c₀ c' := by
  have hother : ∀ i, i < done → frame i ≠ frame done := by
    intro i hi heq
    have := h.distinct i done (by omega) (by omega) heq
    omega
  refine ⟨hgood, ?_, fun i hi => h.fresh i (by omega),
    fun i j hi hj heq => h.distinct i j (by omega) (by omega) heq, fun i hi => h.align i (by omega),
    fun i hi => ?_, fun i hi => ?_, fun v hv hout => ?_⟩
  · rw [howned, h.owned]
    ext g
    constructor
    · rintro ⟨hg | ⟨i, hi, rfl⟩, hne⟩
      · exact Or.inl hg
      · have hlt : i ≠ done := by
          rintro rfl
          exact hne rfl
        exact Or.inr ⟨i, by omega, rfl⟩
    · rintro (hg | ⟨i, hi, rfl⟩)
      · refine ⟨Or.inl hg, ?_⟩
        rintro rfl
        exact h.fresh done (by omega) hg
      · exact ⟨Or.inr ⟨i, by omega, rfl⟩, hother i hi⟩
  · rw [hpages _ (hin i (by omega)), if_neg (by omega)]
    exact h.mapped i (by omega)
  · refine hkept _ (h.frame_mem (by omega)) ?_ (h.blank i (by omega))
    rw [howned]
    exact ⟨h.frame_mem (by omega), hother i hi⟩
  · rw [hpages v hv]
    split
    · rename_i heq
      rw [heq]
      exact habsent.symm
    · rename_i hne
      refine h.others v hv fun i hi => ?_
      by_cases hlast : i = done
      · rw [hlast]
        exact hne
      · exact hout i (by omega)

end Steps

/-! ## The transaction -/

/-- What a call of `heap_pages_grow` does. -/
inductive PagesOutcome (V : PageView γ) (state : HeapPages γ) (oldMapped newMapped : Nat) (c : γ) :
    HeapPages γ → γ → Bool → Prop
  | grown {frame : Nat → Nat} {c' : γ} : growAccepted state oldMapped newMapped = true →
      (∀ i, i < (newMapped - oldMapped) / 4096 →
        V.page c (state.base + oldMapped + 4096 * i) = none) →
      Grown V (state.base + oldMapped) (growFlags state.nx) ((newMapped - oldMapped) / 4096)
        frame c c' →
      PagesOutcome V state oldMapped newMapped c { state with mappedBytes := newMapped } c' true
  | failed {c' : γ} : V.good c' → PagesSame V c c' → V.owned c' = V.owned c →
      PagesOutcome V state oldMapped newMapped c state c' false

section Transaction

variable {V : PageView γ} {ops : PageOps γ} (laws : PageLaws V ops) {virt flags : Nat}
  {frame : Nat → Nat} {c₀ c : γ}

include laws

theorem releaseFrame_spec (state : HeapPages γ) (hc : V.good c) {f : Nat} (hf : f ∈ V.owned c) :
    ∃ c', releaseFrame ops state c f = (state, c') ∧ V.good c' ∧ PagesSame V c c' ∧
      BlankKept V c c' ∧ V.owned c' = V.owned c \ {f} := by
  obtain ⟨c', hcall, hrest⟩ := laws.free c f hc hf
  exact ⟨c', by rw [releaseFrame, hcall], hrest⟩

theorem rollbackPage_spec (state : HeapPages γ) {done : Nat}
    (h : Grown V virt flags (done + 1) frame c₀ c)
    (hin : ∀ i, i < done + 1 → V.inside (virt + 4096 * i))
    (habsent : V.page c₀ (virt + 4096 * done) = none) :
    ∃ c', rollbackPage ops state c (virt + 4096 * done) = (state, c') ∧
      Grown V virt flags done frame c₀ c' := by
  have hinside := hin done (by omega)
  have hpage := laws.arena _ hinside
  have hmapped := h.mapped done (by omega)
  obtain ⟨mapping, hquery, hreport⟩ := laws.query c _ h.good hinside
  rw [hmapped] at hreport
  obtain ⟨hpresent, hsize, hphys, -⟩ := hreport
  obtain ⟨c₁, hunmap, hgood₁, hblank₁, howned₁, hpages₁⟩ :=
    laws.unmap c _ h.good hinside (by rw [hmapped]; nofun)
  obtain ⟨after, hquery₁, hreport₁⟩ := laws.query c₁ _ hgood₁ hinside
  rw [hpages₁ _ hpage, if_pos rfl] at hreport₁
  have hgone : after.mapped = false := hreport₁
  obtain ⟨c₂, hrelease, hgood₂, hpages₂, hblank₂, howned₂⟩ := releaseFrame_spec laws state hgood₁
    (f := frame done) (by rw [howned₁]; exact h.frame_mem (by omega))
  refine ⟨c₂, ?_, ?_⟩
  · have hok : ¬ (¬ mapping.mapped = true ∨ mapping.pageSize ≠ memoryPageSize ∨
        ¬ memoryIsPageAligned mapping.physical = true) := by
      have halign := h.align done (by omega)
      rw [← show mapping.physical = frame done from hphys] at halign
      simp only [hpresent, hsize, memoryIsPageAligned_iff.2 halign]
      decide
    rw [rollbackPage, hquery]
    simp only [if_neg hok, hunmap, hquery₁, hgone, Bool.false_eq_true, if_false]
    rw [show mapping.physical = frame done from hphys]
    exact hrelease
  · refine h.pop hgood₂ (fun i hi => laws.arena _ (hin i hi)) habsent
      (by rw [howned₂, howned₁]) ?_ ?_
    · intro f hf hf₂ hclear
      have hf₁ : f ∈ V.owned c₁ := by
        rw [howned₁]
        exact hf
      exact hblank₂ f hf₁ hf₂ (hblank₁ f hf hf₁ hclear)
    · intro v hv
      rw [hpages₂ v hv]
      exact hpages₁ v hv

/-- A rollback undoes all pages of the transaction. -/
theorem rollback_spec (done : Nat) (state : HeapPages γ) {c : γ}
    (h : Grown V virt flags done frame c₀ c) (hin : ∀ i, i < done → V.inside (virt + 4096 * i))
    (habsent : ∀ i, i < done → V.page c₀ (virt + 4096 * i) = none) :
    ∃ c', rollback ops virt done state c = (state, c') ∧ Grown V virt flags 0 frame c₀ c' := by
  induction done generalizing c with
  | zero => exact ⟨c, rfl, h⟩
  | succ done ih =>
    obtain ⟨c₁, hround, hgrown⟩ := rollbackPage_spec laws state h hin (habsent done (by omega))
    obtain ⟨c', hrest, hnone⟩ := ih hgrown (fun i hi => hin i (by omega))
      fun i hi => habsent i (by omega)
    refine ⟨c', ?_, hnone⟩
    have hround' : rollbackPage ops state c (virt + memoryPageSize * done) = (state, c₁) := hround
    rw [rollback, hround']
    exact hrest

theorem rangeUnmapped_spec (hc : V.good c) (pages first : Nat)
    (hin : ∀ i, i < pages → V.inside (first + 4096 * i))
    (h : rangeUnmapped ops c first pages = true) :
    ∀ i, i < pages → V.page c (first + 4096 * i) = none := by
  induction pages generalizing first with
  | zero =>
    intro i hi
    omega
  | succ pages ih =>
    obtain ⟨mapping, hquery, hreport⟩ := laws.query c first hc (hin 0 (by omega))
    rw [rangeUnmapped, hquery] at h
    simp only [Bool.and_eq_true, Bool.not_eq_true'] at h
    have hrest := ih (first + 4096) (fun i hi => by
      have := hin (i + 1) (by omega)
      rwa [show first + 4096 * (i + 1) = first + 4096 + 4096 * i by omega] at this) h.2
    intro i hi
    cases i with
    | zero =>
      have hfirst : V.page c first = none := by
        cases hpage : V.page c first with
        | none => rfl
        | some entry =>
          rw [hpage] at hreport
          exact absurd (hreport.1.symm.trans h.1) (by decide)
      exact hfirst
    | succ i =>
      rw [show first + 4096 * (i + 1) = first + 4096 + 4096 * i by omega]
      exact hrest i (by omega)

/-- One round maps the next page, or it leaves everything as it was. -/
theorem growPage_spec (hflags : flags < 2 ^ 64) {done : Nat} (state : HeapPages γ)
    (h : Grown V virt flags done frame c₀ c)
    (hin : ∀ i, i < done + 1 → V.inside (virt + 4096 * i))
    (habsent : V.page c₀ (virt + 4096 * done) = none) :
    ∃ c' ok, growPage ops (virt + 4096 * done) flags state c = some (state, c', ok) ∧
      (ok = true → ∃ f, Grown V virt flags (done + 1) (Function.update frame done f) c₀ c') ∧
      (ok = false → Grown V virt flags done frame c₀ c') := by
  have hin' : ∀ i, i < done → ArenaPage (virt + 4096 * i) :=
    fun i hi => laws.arena _ (hin i (by omega))
  have hinside := hin done (by omega)
  have hpage := laws.arena _ hinside
  rw [growPage]
  obtain ⟨c₁, result, halloc, hgood₁, hpages₁, hblank₁, hout⟩ := laws.alloc c h.good
  rw [halloc]
  rcases hout with ⟨rfl, howned₁⟩ | ⟨f, rfl, hnew, howned₁, halign, hmask⟩
  · exact ⟨c₁, false, rfl, nofun, fun _ => h.of_same hgood₁ hin' hpages₁ hblank₁ howned₁⟩
  have hsubset : ∀ g ∈ V.owned c, g ∈ V.owned c₁ := fun g hg => by
    rw [howned₁]
    exact Set.mem_insert_of_mem _ hg
  have hf₁ : f ∈ V.owned c₁ := by
    rw [howned₁]
    exact Set.mem_insert _ _
  -- Returning the new frame leads back to the pages so far.
  have hreturn : ∀ c₂, V.good c₂ → PagesSame V c₁ c₂ → V.owned c₂ = V.owned c₁ →
      BlankKept V c₁ c₂ → ∃ c₃, releaseFrame ops state c₂ f = (state, c₃) ∧
        Grown V virt flags done frame c₀ c₃ := by
    intro c₂ hgood₂ hpages₂ howned₂ hblank₂
    obtain ⟨c₃, hrelease, hgood₃, hpages₃, hblank₃, howned₃⟩ :=
      releaseFrame_spec laws state hgood₂ (by rw [howned₂]; exact hf₁)
    refine ⟨c₃, hrelease, h.of_same hgood₃ hin' ?_ ?_ ?_⟩
    · exact fun v hv => (hpages₃ v hv).trans ((hpages₂ v hv).trans (hpages₁ v hv))
    · intro g hg hg₃ hclear
      have hg₁ := hsubset g hg
      have hg₂ : g ∈ V.owned c₂ := by
        rw [howned₂]
        exact hg₁
      exact hblank₃ g hg₂ hg₃ (hblank₂ g hg₁ hg₂ (hblank₁ g hg hg₁ hclear))
    · rw [howned₃, howned₂, howned₁, Set.insert_sdiff_of_mem _ (Set.mem_singleton f),
        Set.sdiff_singleton_eq_self hnew]
  have hvalid : ¬ (¬ memoryIsPageAligned f = true ∨ f &&& notU64 vmmAddressMask ≠ 0) := by
    rw [memoryIsPageAligned_iff.2 halign, hmask]
    decide
  simp only [if_neg hvalid]
  obtain ⟨c₂, ok₂, hzero, hgood₂, hpages₂, hblank₂, howned₂, hclear⟩ := laws.zero c₁ f hgood₁ hf₁
  rw [hzero]
  cases ok₂ with
  | false =>
    obtain ⟨c₃, hrelease, hgrown⟩ := hreturn c₂ hgood₂ hpages₂ howned₂ hblank₂
    refine ⟨c₃, false, ?_, nofun, fun _ => hgrown⟩
    simp only [hrelease]
  | true =>
    have hf₂ : f ∈ V.owned c₂ := by
      rw [howned₂]
      exact hf₁
    have hfree : V.page c₂ (virt + 4096 * done) = none := by
      rw [hpages₂ _ hpage, hpages₁ _ hpage, h.others _ hpage fun i hi => by omega]
      exact habsent
    obtain ⟨c₃, ok₃, hmap, hgood₃, hblank₃, howned₃, hok, hnot⟩ :=
      laws.map c₂ (virt + 4096 * done) f flags hgood₂ hinside hfree hf₂ hflags
    have hblank : BlankKept V c₁ c₃ := fun g hg₁ hg₃ hg => by
      have hg₂ : g ∈ V.owned c₂ := by
        rw [howned₂]
        exact hg₁
      exact hblank₃ g hg₂ hg₃ (hblank₂ g hg₁ hg₂ hg)
    simp only [hmap]
    cases ok₃ with
    | false =>
      obtain ⟨c₄, hrelease, hgrown⟩ := hreturn c₃ hgood₃
        (fun v hv => (hnot rfl v hv).trans (hpages₂ v hv)) (howned₃.trans howned₂) hblank
      refine ⟨c₄, false, ?_, nofun, fun _ => hgrown⟩
      simp only [hrelease]
    | true =>
      refine ⟨c₃, true, rfl, fun _ => ⟨f, ?_⟩, nofun⟩
      have howned : V.owned c₃ = insert f (V.owned c) := by rw [howned₃, howned₂, howned₁]
      refine h.snoc hgood₃ (fun i hi => laws.arena _ (hin i hi)) hnew halign howned
        (fun g hg hg' => ?_) ?_ fun v hv => ?_
      · have hg₁ := hsubset g hg
        refine hblank g hg₁ ?_ (hblank₁ g hg hg₁ hg')
        rw [howned]
        exact Set.mem_insert_of_mem _ hg
      · exact hblank₃ f hf₂ (by rw [howned₃]; exact hf₂) (hclear rfl)
      · rw [hok rfl v hv, hpages₂ v hv, hpages₁ v hv]

/-- The loop maps all pages, or it has undone what it did. -/
theorem growLoop_spec (hflags : flags < 2 ^ 64) (pages done : Nat) (state : HeapPages γ)
    {c : γ} {frame : Nat → Nat} (h : Grown V virt flags done frame c₀ c)
    (hin : ∀ i, i < done + pages → V.inside (virt + 4096 * i))
    (habsent : ∀ i, i < done + pages → V.page c₀ (virt + 4096 * i) = none) :
    ∃ c' ok frame', growLoop ops virt flags pages done state c = some (state, c', ok) ∧
      (ok = true → Grown V virt flags (done + pages) frame' c₀ c') ∧
      (ok = false → Grown V virt flags 0 frame' c₀ c') := by
  induction pages generalizing done c frame with
  | zero => exact ⟨c, true, frame, rfl, fun _ => h, nofun⟩
  | succ pages ih =>
    obtain ⟨c₁, ok₁, hround, hall, hnone⟩ := growPage_spec laws hflags state h
      (fun i hi => hin i (by omega)) (habsent done (by omega))
    have hround' : growPage ops (virt + memoryPageSize * done) flags state c =
        some (state, c₁, ok₁) := hround
    rw [growLoop, hround']
    cases ok₁ with
    | false =>
      obtain ⟨c', hback, hgrown⟩ := rollback_spec laws done state (hnone rfl)
        (fun i hi => hin i (by omega)) fun i hi => habsent i (by omega)
      refine ⟨c', false, frame, ?_, nofun, fun _ => hgrown⟩
      simp only [hback]
    | true =>
      obtain ⟨f, hgrown⟩ := hall rfl
      obtain ⟨c', ok, frame', hloop, hok, hnot⟩ := ih (done + 1) hgrown
        (fun i hi => hin i (by omega)) fun i hi => habsent i (by omega)
      refine ⟨c', ok, frame', hloop, fun hall' => ?_, hnot⟩
      rw [show done + (pages + 1) = done + 1 + pages by omega]
      exact hok hall'

/-- A call of `heap_pages_grow` maps all new pages to new frames, or it leaves everything
as it was. -/
theorem heapPagesGrow_spec (state : HeapPages γ) (hops : state.ops = none ∨ state.ops = some ops)
    (hinside : ∀ i, 4096 * i < state.capacityBytes → V.inside (state.base + 4096 * i))
    (hc : V.good c) (oldMapped newMapped : Nat) :
    ∃ state' c' ok, heapPagesGrow state c oldMapped newMapped = some (state', c', ok) ∧
      PagesOutcome V state oldMapped newMapped c state' c' ok := by
  have hsize : memoryPageSize = 4096 := rfl
  have hfail : ∃ state' c' ok, some (state, c, false) = some (state', c', ok) ∧
      PagesOutcome V state oldMapped newMapped c state' c' ok :=
    ⟨state, c, false, rfl, .failed hc (fun _ _ => rfl) rfl⟩
  rw [heapPagesGrow]
  rcases hops with hops | hops
  · rw [hops]
    exact hfail
  rw [hops]
  simp only [hsize]
  split
  · exact hfail
  rename_i haccepted
  rw [not_not] at haccepted
  have hargs := haccepted
  rw [growAccepted, decide_eq_true_eq] at hargs
  obtain ⟨-, -, -, -, hle, hcap, hold, hnew⟩ := hargs
  rw [memoryIsPageAligned_iff] at hold hnew
  have hin : ∀ i, i < (newMapped - oldMapped) / 4096 →
      V.inside (state.base + oldMapped + 4096 * i) := by
    intro i hi
    have hpage := hinside (oldMapped / 4096 + i) (by omega)
    rwa [show state.base + 4096 * (oldMapped / 4096 + i) = state.base + oldMapped + 4096 * i by
      omega] at hpage
  split
  · exact hfail
  rename_i hunmapped
  rw [not_not] at hunmapped
  have habsent := rangeUnmapped_spec laws hc _ _ hin hunmapped
  have hflags : growFlags state.nx < 2 ^ 64 := by
    cases state.nx <;> decide
  have hstart : Grown V (state.base + oldMapped) (growFlags state.nx) 0 (fun _ => 0) c c :=
    Grown.nil hc
  obtain ⟨c', ok, frame, hloop, hok, hnot⟩ := growLoop_spec laws hflags
    ((newMapped - oldMapped) / 4096) 0 state hstart (fun i hi => hin i (by omega))
    fun i hi => habsent i (by omega)
  rw [hloop]
  cases ok with
  | false =>
    have hgrown := hnot rfl
    refine ⟨state, c', false, rfl, .failed hgrown.good (fun v hv => ?_) hgrown.owned_zero⟩
    exact hgrown.others v hv nofun
  | true =>
    have hgrown := hok rfl
    rw [Nat.zero_add] at hgrown
    exact ⟨_, c', true, rfl, .grown haccepted habsent hgrown⟩

end Transaction

end Utamo.Heap
