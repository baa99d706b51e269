import Utamo.Lib.Transition
import Utamo.Vmm.Mutation
import Mathlib.Data.Set.Finite.Basic

/-!
# An address space is a map of pages

What an address space is for: a finite map from pages to frames with flags (`PageMap`). A run starts
at a successful `vmm_space_init` over an empty root table; the operations are called with any
arguments, and between calls the context of the callbacks may change in any way that keeps the
contract, as may every byte outside the tables. `pages` is updated from the results of the calls
only: a page is inserted, deleted or given other flags when the call returned `true`, and nothing
happens otherwise.

`goodVmmRun_step` is the step lemma: on a space whose leaves are the pages of the map, every call
returns, `true` only where the map allows it, and the leaves are again the pages of the map. That
the queries report the map in every run follows from it.
-/

set_option autoImplicit false

namespace Utamo.Vmm

open Lib Lib.ByteMemory Lib.Radix Memory

variable {γ : Type}
  {nx : Bool} {e : Option (Nat × Nat)}

/-! ## The abstract map -/

/-- Page number to physical address and flags. -/
abbrev PageMap := Nat → Option (Nat × Nat)

namespace PageMap

def insert (pages : PageMap) (page phys flags : Nat) : PageMap :=
  Function.update pages page (some (phys, flags))

def erase (pages : PageMap) (page : Nat) : PageMap := Function.update pages page none

/-- Other flags for a page, with the frame it has. -/
def setFlags (pages : PageMap) (page flags : Nat) : PageMap :=
  Function.update pages page ((pages page).map fun entry => (entry.1, flags))

/-- What a query of an address in a page should report. -/
def report (pages : PageMap) (virt : Nat) : VmmMapping :=
  match pages (virt / 4096) with
  | none => { mapped := false, physical := 0, flags := 0, pageSize := 0 }
  | some (phys, flags) =>
    { mapped := true, physical := phys + virt % 4096, flags, pageSize := 4096 }

/-- Only finitely many pages are mapped. -/
def Finite (pages : PageMap) : Prop := {page | pages page ≠ none}.Finite

theorem Finite.update {pages : PageMap} (h : pages.Finite) (page : Nat)
    (entry : Option (Nat × Nat)) :
    PageMap.Finite (Function.update pages page entry) := by
  refine (h.insert page).subset fun q hq => ?_
  by_cases hqp : q = page
  · exact Or.inl hqp
  · right
    rw [Set.mem_ofPred_eq, Function.update_of_ne hqp] at hq
    exact hq

end PageMap

/-! ## Runs -/

/-- An address space with the map of its pages. -/
structure VmmRun (γ : Type) where
  space : VmmSpace γ
  core : VmmState γ
  pages : PageMap

/-- What can happen to an address space. -/
inductive VmmCall (γ : Type)
  | map (virt phys flags : Nat)
  | unmap (virt : Nat)
  | protect (virt flags : Nat)
  | outside (core : VmmState γ)

/-- The page a call is about. -/
def VmmCall.page : VmmCall γ → Option Nat
  | .map virt _ _ => some (virt / 4096)
  | .unmap virt => some (virt / 4096)
  | .protect virt _ => some (virt / 4096)
  | .outside _ => none

def vmmExec (run : VmmRun γ) : VmmCall γ → Option (VmmRun γ)
  | .map virt phys flags => do
      let (core, ok) ← vmmSpaceMap run.space run.core virt phys flags
      return ⟨run.space, core, if ok then run.pages.insert (virt / 4096) phys flags else run.pages⟩
  | .unmap virt =>
    let (core, ok) := vmmSpaceUnmap run.space run.core virt
    some ⟨run.space, core, if ok then run.pages.erase (virt / 4096) else run.pages⟩
  | .protect virt flags =>
    let (core, ok) := vmmSpaceProtect run.space run.core virt flags
    some ⟨run.space, core, if ok then run.pages.setFlags (virt / 4096) flags else run.pages⟩
  | .outside core => some ⟨run.space, core, run.pages⟩

section Runs

variable (ops : VmmOps γ) (good : γ → Prop) (tables pending : γ → Set Nat)

/-- The arguments of the calls are 64-bit words. Others leave the tables to the space: they touch
neither the bytes of the tables nor the book on them. -/
def vmmEnabled (run : VmmRun γ) : VmmCall γ → Prop
  | .map virt phys flags => virt < 2 ^ 64 ∧ phys < 2 ^ 64 ∧ flags < 2 ^ 64
  | .unmap virt => virt < 2 ^ 64
  | .protect virt flags => virt < 2 ^ 64 ∧ flags < 2 ^ 64
  | .outside core => good core.context ∧ tables core.context = tables run.core.context ∧
      pending core.context = pending run.core.context ∧
      ∀ x, frameOf x ∈ tables run.core.context → core.memory x = run.core.memory x

/-- The state after a successful `vmm_space_init` on an empty root table. -/
def vmmStart (run : VmmRun γ) : Prop :=
  (∃ root bits nx, vmmSpaceInit run.core.context root bits nx ops = some run.space ∧ root < 2 ^ 64 ∧
    tables run.core.context = {root} ∧
    ∀ x, root ≤ x → x < root + memoryPageSize → run.core.memory x = 0) ∧
  good run.core.context ∧ pending run.core.context = ∅ ∧ run.pages = fun _ => none

def VmmReachable (run : VmmRun γ) : Prop :=
  Reachable (vmmStart ops good tables pending) (vmmEnabled good tables pending) vmmExec run

end Runs

/-! ## The step lemma -/

/-- A leaf and the entry of the map it stands for. -/
inductive Encodes (mask : Nat) (nx : Bool) : Nat → Option (Nat × Nat) → Prop
  | absent : Encodes mask nx 0 none
  | page {phys flags : Nat} : Frame mask phys → FlagsOk nx flags →
      Encodes mask nx (phys ||| flags) (some (phys, flags))

theorem Encodes.eq_none_iff {mask entry : Nat}
    (hmask : Within mask vmmAddressMask) (h : Encodes mask nx entry e) : e = none ↔ entry = 0 := by
  cases h with
  | absent => simp
  | page hp hf => simp [packed_ne_zero hmask hp hf]

/-- The packing of a leaf is unambiguous. -/
theorem Encodes.eq_some {mask phys flags : Nat}
    (hmask : Within mask vmmAddressMask) (hp : Frame mask phys) (hf : FlagsOk nx flags)
    (h : Encodes mask nx (phys ||| flags) e) : e = some (phys, flags) := by
  generalize hentry : phys ||| flags = entry at h
  cases h with
  | absent => exact absurd hentry (packed_ne_zero hmask hp hf)
  | @page phys' flags' hp' hf' =>
    have h1 := packed_mask hmask hp hf
    have h2 := packed_flags hmask hp hf
    rw [hentry] at h1 h2
    rw [← h1, ← h2, packed_mask hmask hp' hf', packed_flags hmask hp' hf']

theorem mappingOf_encodes {mask entry virt : Nat} {pages : PageMap}
    (hmask : Within mask vmmAddressMask) (h : Encodes mask nx entry (pages (virt / 4096))) :
    mappingOf mask entry virt = pages.report virt := by
  generalize he : pages (virt / 4096) = e at h
  rw [PageMap.report, he]
  cases h with
  | absent => rfl
  | page hp hf =>
    rw [mappingOf, if_neg (packed_ne_zero hmask hp hf), packed_mask hmask hp hf,
      packed_flags hmask hp hf]

/-- The whole address space belongs to the editor. -/
def everywhere (_ : Nat) : Prop := True

/-- The leaves of a space in order are the pages of the map. -/
structure Refines (good : γ → Prop) (tables pending : γ → Set Nat) (mask : Nat) (nx : Bool)
    (root : Nat) (core : VmmState γ) (pages : PageMap) : Prop where
  held : Held good tables pending mask nx everywhere root core
  leaves : ∀ virt, Address everywhere virt →
    Encodes mask nx (leafAt mask root (slot core.memory) virt) (pages (virt / 4096))
  finite : pages.Finite

section Step

variable {space : VmmSpace γ} {good : γ → Prop} {tables pending : γ → Set Nat} {mask root : Nat}
  {nx : Bool} {core core' : VmmState γ} {pages : PageMap} {virt phys flags : Nat}

/-- A change of one leaf is a change of one page. -/
theorem Refines.update (hr : Refines good tables pending mask nx root core pages)
    (hheld : Held good tables pending mask nx everywhere root core') {entry : Nat}
    (he : Encodes mask nx entry e)
    (hset : LeafSet mask root everywhere core.memory core'.memory virt entry) :
    Refines good tables pending mask nx root core' (Function.update pages (virt / 4096) e) := by
  refine ⟨hheld, fun w hw => ?_, hr.finite.update _ _⟩
  rw [hset w hw]
  by_cases hpage : SamePage w virt
  · have hwv : w / 4096 = virt / 4096 := hpage
    rw [if_pos hpage, hwv, Function.update_self]
    exact he
  · rw [if_neg hpage, Function.update_of_ne hpage]
    exact hr.leaves w hw

theorem Refines.kept (hr : Refines good tables pending mask nx root core pages)
    (hheld : Held good tables pending mask nx everywhere root core')
    (hkept : LeavesKept mask root everywhere core.memory core'.memory) :
    Refines good tables pending mask nx root core' pages :=
  ⟨hheld, fun w hw => by rw [hkept w hw]; exact hr.leaves w hw, hr.finite⟩

theorem Refines.eq_none_iff (hr : Refines good tables pending mask nx root core pages)
    (hv : Address everywhere virt) :
    pages (virt / 4096) = none ↔ leafAt mask root (slot core.memory) virt = 0 :=
  (hr.leaves virt hv).eq_none_iff hr.held.tree.mask_within

theorem canonical_of_query {mapping : VmmMapping}
    (h : vmmSpaceQuery space core virt = some mapping) : memoryIsCanonical virt = true := by
  by_contra hcan
  have hwalk : walk space core virt = none := by
    rw [walk, if_pos (Or.inr hcan)]
  rw [vmmSpaceQuery, hwalk] at h
  cases h

/-- A refused walk is a refused table. -/
theorem Refines.refused (hr : Refines good tables pending mask nx root core pages)
    {table : Nat → Bool} (h : Refused mask root (slot core.memory) table virt) :
    ∃ f ∈ tables core.context, table f = false := by
  obtain ⟨depth, f, hd, hf, htable⟩ := h
  refine ⟨f, ?_, htable⟩
  rw [hr.held.tables_eq]
  exact ⟨_, path_dom hd trivial, hf⟩

theorem Refines.present_iff (hr : Refines good tables pending mask nx root core pages)
    (hvirt : virt < 2 ^ 64) :
    PagePresent mask root core virt ↔
      virt % 4096 = 0 ∧ memoryIsCanonical virt = true ∧ pages (virt / 4096) ≠ none := by
  constructor
  · intro h
    have hv : Address everywhere virt := ⟨h.canonical, hvirt, trivial⟩
    exact ⟨h.align, h.canonical, fun hnone => h.present ((hr.eq_none_iff hv).1 hnone)⟩
  · rintro ⟨h1, h2, h3⟩
    have hv : Address everywhere virt := ⟨h2, hvirt, trivial⟩
    exact ⟨h1, h2, fun h0 => h3 ((hr.eq_none_iff hv).2 h0)⟩

theorem Refines.query_exact (hr : Refines good tables pending mask nx root core pages)
    (hs : SpaceOn space mask nx root) (hvirt : virt < 2 ^ 64)
    (hcan : memoryIsCanonical virt = true) :
    vmmSpaceQuery space core virt = some (pages.report virt) ∨
      (vmmSpaceQuery space core virt = none ∧
        ∃ f ∈ tables core.context, space.ops.table core.context f = false) := by
  have hv : Address everywhere virt := ⟨hcan, hvirt, trivial⟩
  rcases vmmSpaceQuery_spec hs hr.held.tree hcan hv.own with ⟨hnone, href⟩ | hsome
  · exact Or.inr ⟨hnone, hr.refused href⟩
  · left
    rw [hsome, mappingOf_encodes hr.held.tree.mask_within (hr.leaves virt hv)]

variable (hc : Contract space.ops good tables pending ∅) (hs : SpaceOn space mask nx root)
  (hr : Refines good tables pending mask nx root core pages)

include hc hs hr

theorem map_step (hvirt : virt < 2 ^ 64) (hphys : phys < 2 ^ 64) (hflags : flags < 2 ^ 64) :
    ∃ core' ok, vmmSpaceMap space core virt phys flags = some (core', ok) ∧
      Refines good tables pending mask nx root core'
        (if ok then pages.insert (virt / 4096) phys flags else pages) ∧
      (ok = true → MapRequest mask nx virt phys flags ∧ pages (virt / 4096) = none) ∧
      (ok = false → ¬ MapRequest mask nx virt phys flags ∨ pages (virt / 4096) ≠ none ∨
        (∃ f ∈ tables core.context, space.ops.table core.context f = false) ∨
        Starved space 3 core.context) := by
  obtain ⟨core', ok, hrun, hheld, -, hout⟩ :=
    vmmSpaceMap_spec hc hs hr.held hvirt hphys hflags fun _ => trivial
  refine ⟨core', ok, hrun, ?_⟩
  cases hout with
  | mapped hrequest habsent hset =>
    have hv : Address everywhere virt := ⟨hrequest.canonical, hvirt, trivial⟩
    exact ⟨hr.update hheld (.page hrequest.frame hrequest.flags) hset,
      fun _ => ⟨hrequest, (hr.eq_none_iff hv).2 habsent⟩, nofun⟩
  | failed hwhy hkept =>
    refine ⟨hr.kept hheld hkept, nofun, fun _ => ?_⟩
    by_cases hrequest : MapRequest mask nx virt phys flags
    · have hv : Address everywhere virt := ⟨hrequest.canonical, hvirt, trivial⟩
      rcases hwhy with h | h | h | h
      · exact Or.inl h
      · exact Or.inr (Or.inl fun hnone => h ((hr.eq_none_iff hv).1 hnone))
      · exact Or.inr (Or.inr (Or.inl (hr.refused h)))
      · exact Or.inr (Or.inr (Or.inr h))
    · exact Or.inl hrequest

theorem unmap_step (hvirt : virt < 2 ^ 64) :
    ∃ core' ok, vmmSpaceUnmap space core virt = (core', ok) ∧
      Refines good tables pending mask nx root core'
        (if ok then pages.erase (virt / 4096) else pages) ∧
      (ok = true → virt % 4096 = 0 ∧ memoryIsCanonical virt = true ∧ pages (virt / 4096) ≠ none) ∧
      (ok = false → ¬ (virt % 4096 = 0 ∧ memoryIsCanonical virt = true ∧
          pages (virt / 4096) ≠ none) ∨
        ∃ f ∈ tables core.context, space.ops.table core.context f = false) := by
  obtain ⟨core', ok, hrun, hheld, -, hout⟩ :=
    vmmSpaceUnmap_spec hc hs hr.held hvirt fun _ => trivial
  refine ⟨core', ok, hrun, ?_⟩
  cases hout with
  | unmapped hpresent hset _ =>
    exact ⟨hr.update hheld .absent hset, fun _ => (hr.present_iff hvirt).1 hpresent, nofun⟩
  | failed hwhy =>
    refine ⟨hr, nofun, fun _ => ?_⟩
    rcases hwhy with h | h
    · exact Or.inl fun hp => h ((hr.present_iff hvirt).2 hp)
    · exact Or.inr (hr.refused h)

theorem protect_step (hvirt : virt < 2 ^ 64) (hflags : flags < 2 ^ 64) :
    ∃ core' ok, vmmSpaceProtect space core virt flags = (core', ok) ∧
      Refines good tables pending mask nx root core'
        (if ok then pages.setFlags (virt / 4096) flags else pages) ∧
      (ok = true → FlagsOk nx flags ∧ virt % 4096 = 0 ∧ memoryIsCanonical virt = true ∧
        pages (virt / 4096) ≠ none) ∧
      (ok = false → ¬ (FlagsOk nx flags ∧ virt % 4096 = 0 ∧ memoryIsCanonical virt = true ∧
          pages (virt / 4096) ≠ none) ∨
        ∃ f ∈ tables core.context, space.ops.table core.context f = false) := by
  have hpresent := hr.present_iff hvirt
  obtain ⟨core', ok, hrun, hheld, -, hout⟩ :=
    vmmSpaceProtect_spec hc hs hr.held hvirt hflags fun _ => trivial
  refine ⟨core', ok, hrun, ?_⟩
  cases hout with
  | @replaced _ phys old hok hpage hleaf hp hf hset _ =>
    have hv : Address everywhere virt := ⟨hpage.canonical, hvirt, trivial⟩
    have hentry : pages (virt / 4096) = some (phys, old) := by
      refine Encodes.eq_some hr.held.tree.mask_within hp hf ?_
      rw [← hleaf]
      exact hr.leaves virt hv
    refine ⟨?_, fun _ => ⟨hok, hpresent.1 hpage⟩, nofun⟩
    rw [if_pos rfl, PageMap.setFlags, hentry]
    exact hr.update hheld (.page hp hok) hset
  | failed hwhy =>
    refine ⟨hr, nofun, fun _ => ?_⟩
    rcases hwhy with h | h | h
    · exact Or.inl fun hp => h hp.1
    · exact Or.inl fun hp => h (hpresent.2 hp.2)
    · exact Or.inr (hr.refused h)

end Step

/-! ## Whole runs -/

section Whole

variable {ops : VmmOps γ} {good : γ → Prop} {tables pending : γ → Set Nat}

/-- What holds in every run. -/
structure GoodVmmRun (ops : VmmOps γ) (good : γ → Prop) (tables pending : γ → Set Nat) (mask : Nat)
    (nx : Bool) (root : Nat) (run : VmmRun γ) : Prop where
  space : SpaceOn run.space mask nx root
  ops_eq : run.space.ops = ops
  refines : Refines good tables pending mask nx root run.core run.pages

theorem goodVmmRun_start {run : VmmRun γ} (h : vmmStart ops good tables pending run) :
    ∃ mask nx root, GoodVmmRun ops good tables pending mask nx root run := by
  obtain ⟨⟨root, bits, nx, hinit, hlt, htables, hzero⟩, hgood, hpending, hpages⟩ := h
  obtain ⟨mask, hmask, hframe, hspace, hops⟩ := vmmSpaceInit_spec hlt hinit
  have hroot : ∀ i, everywhere i → slot run.core.memory root i = 0 := fun i _ =>
    slot_zero_page hzero i
  obtain ⟨htree, hframes⟩ := tables_empty nx hmask hframe hroot
  refine ⟨mask, nx, root, hspace, hops, ⟨hgood, htree, ?_, hpending⟩, ?_, ?_⟩
  · rw [htables, hframes]
  · intro virt hv
    rw [leafAt_empty hroot hv.own, hpages]
    exact .absent
  · rw [hpages, PageMap.Finite]
    simp

theorem goodVmmRun_step (hc : Contract ops good tables pending ∅) {mask root : Nat}
    {run : VmmRun γ} (hrun : GoodVmmRun ops good tables pending mask nx root run) {call : VmmCall γ}
    (hen : vmmEnabled good tables pending run call) :
    ∃ run', vmmExec run call = some run' ∧ run'.space = run.space ∧
      GoodVmmRun ops good tables pending mask nx root run' ∧
      ∀ page, call.page ≠ some page → run'.pages page = run.pages page := by
  have hs := hrun.space
  have hr := hrun.refines
  rw [← hrun.ops_eq] at hc
  cases call with
  | map virt phys flags =>
    obtain ⟨hvirt, hphys, hflags⟩ := hen
    obtain ⟨core', ok, hexec, href, -⟩ := map_step hc hs hr hvirt hphys hflags
    refine ⟨⟨run.space, core', if ok then run.pages.insert (virt / 4096) phys flags else run.pages⟩,
      ?_, rfl, ⟨hs, hrun.ops_eq, href⟩, ?_⟩
    · simp only [vmmExec, hexec, Option.bind_eq_bind, Option.bind_some, Option.pure_def]
    · intro page hne
      cases ok with
      | false => rfl
      | true => exact Function.update_of_ne (fun h => hne (by rw [h]; rfl)) _ _
  | unmap virt =>
    obtain ⟨core', ok, hexec, href, -⟩ := unmap_step hc hs hr hen
    refine ⟨⟨run.space, core', if ok then run.pages.erase (virt / 4096) else run.pages⟩,
      by simp only [vmmExec, hexec], rfl, ⟨hs, hrun.ops_eq, href⟩, ?_⟩
    intro page hne
    cases ok with
    | false => rfl
    | true => exact Function.update_of_ne (fun h => hne (by rw [h]; rfl)) _ _
  | protect virt flags =>
    obtain ⟨core', ok, hexec, href, -⟩ := protect_step hc hs hr hen.1 hen.2
    refine ⟨⟨run.space, core', if ok then run.pages.setFlags (virt / 4096) flags else run.pages⟩,
      by simp only [vmmExec, hexec], rfl, ⟨hs, hrun.ops_eq, href⟩, ?_⟩
    intro page hne
    cases ok with
    | false => rfl
    | true => exact Function.update_of_ne (fun h => hne (by rw [h]; rfl)) _ _
  | outside core =>
    obtain ⟨hgood, htables, hpending, hbytes⟩ := hen
    obtain ⟨hheld, hkept⟩ := hr.held.congr hgood htables (hpending.trans hr.held.pending_eq) hbytes
    exact ⟨⟨run.space, core, run.pages⟩, rfl, rfl, ⟨hs, hrun.ops_eq, hr.kept hheld hkept⟩,
      fun _ _ => rfl⟩

theorem goodVmmRun_of_reachable (hc : Contract ops good tables pending ∅) {run : VmmRun γ}
    (h : VmmReachable ops good tables pending run) :
    ∃ mask nx root, GoodVmmRun ops good tables pending mask nx root run := by
  have hstart : ∀ r, vmmStart ops good tables pending r →
      ∃ mask nx root, GoodVmmRun ops good tables pending mask nx root r := fun r hr =>
    goodVmmRun_start hr
  refine h.invariant hstart ?_
  rintro r call r' ⟨mask, nx, root, hgood⟩ hen hexec
  obtain ⟨r'', hexec', -, hgood', -⟩ := goodVmmRun_step hc hgood hen
  rw [hexec] at hexec'
  cases hexec'
  exact ⟨mask, nx, root, hgood'⟩

/-- In every run of the operations, whatever the callbacks refuse, the queries report the map of
pages: a query fails only when the callback refuses one of the tables. `vmm_space_map` returns
`true` only for an absent page, `vmm_space_unmap` and `vmm_space_protect` only for a present one,
each of them fails only where the map, the request or the callbacks give a reason, and no call
changes what is reported for another page. -/
theorem vmm_space_refines_map (hc : Contract ops good tables pending ∅) {run : VmmRun γ}
    (h : VmmReachable ops good tables pending run) :
    run.pages.Finite ∧
      (∀ virt, virt < 2 ^ 64 → memoryIsCanonical virt = true →
        vmmSpaceQuery run.space run.core virt = some (run.pages.report virt) ∨
          (vmmSpaceQuery run.space run.core virt = none ∧
            ∃ f ∈ tables run.core.context, ops.table run.core.context f = false)) ∧
      (∀ virt phys flags, virt < 2 ^ 64 → phys < 2 ^ 64 → flags < 2 ^ 64 →
        ∃ core ok, vmmSpaceMap run.space run.core virt phys flags = some (core, ok) ∧
          (ok = true → MapRequest run.space.physicalMask run.space.nxEnabled virt phys flags ∧
            run.pages (virt / 4096) = none) ∧
          (ok = false → ¬ MapRequest run.space.physicalMask run.space.nxEnabled virt phys flags ∨
            run.pages (virt / 4096) ≠ none ∨
            (∃ f ∈ tables run.core.context, ops.table run.core.context f = false) ∨
            Starved run.space 3 run.core.context)) ∧
      (∀ virt, virt < 2 ^ 64 →
        ∃ core ok, vmmSpaceUnmap run.space run.core virt = (core, ok) ∧
          (ok = true → virt % 4096 = 0 ∧ memoryIsCanonical virt = true ∧
            run.pages (virt / 4096) ≠ none) ∧
          (ok = false → ¬ (virt % 4096 = 0 ∧ memoryIsCanonical virt = true ∧
              run.pages (virt / 4096) ≠ none) ∨
            ∃ f ∈ tables run.core.context, ops.table run.core.context f = false)) ∧
      (∀ virt flags, virt < 2 ^ 64 → flags < 2 ^ 64 →
        ∃ core ok, vmmSpaceProtect run.space run.core virt flags = (core, ok) ∧
          (ok = true → FlagsOk run.space.nxEnabled flags ∧ virt % 4096 = 0 ∧
            memoryIsCanonical virt = true ∧ run.pages (virt / 4096) ≠ none) ∧
          (ok = false → ¬ (FlagsOk run.space.nxEnabled flags ∧ virt % 4096 = 0 ∧
              memoryIsCanonical virt = true ∧ run.pages (virt / 4096) ≠ none) ∨
            ∃ f ∈ tables run.core.context, ops.table run.core.context f = false)) ∧
      ∀ call, vmmEnabled good tables pending run call →
        ∃ run', vmmExec run call = some run' ∧
          ∀ virt before after, virt < 2 ^ 64 → call.page ≠ some (virt / 4096) →
            vmmSpaceQuery run.space run.core virt = some before →
            vmmSpaceQuery run'.space run'.core virt = some after → before = after := by
  obtain ⟨mask, nx, root, hgood⟩ := goodVmmRun_of_reachable hc h
  have hs := hgood.space
  have hr := hgood.refines
  have hops := hgood.ops_eq
  rw [← hops] at hc
  rw [hs.physicalMask, hs.nxEnabled, ← hops]
  refine ⟨hr.finite, fun virt hvirt hcan => hr.query_exact hs hvirt hcan, ?_, ?_, ?_, ?_⟩
  · intro virt phys flags hvirt hphys hflags
    obtain ⟨core, ok, hexec, -, hyes, hno⟩ := map_step hc hs hr hvirt hphys hflags
    exact ⟨core, ok, hexec, hyes, hno⟩
  · intro virt hvirt
    obtain ⟨core, ok, hexec, -, hyes, hno⟩ := unmap_step hc hs hr hvirt
    exact ⟨core, ok, hexec, hyes, hno⟩
  · intro virt flags hvirt hflags
    obtain ⟨core, ok, hexec, -, hyes, hno⟩ := protect_step hc hs hr hvirt hflags
    exact ⟨core, ok, hexec, hyes, hno⟩
  · intro call hen
    rw [hops] at hc
    obtain ⟨run', hexec, hspace, hgood', hsame⟩ := goodVmmRun_step hc hgood hen
    refine ⟨run', hexec, fun virt before after hvirt hne hbefore hafter => ?_⟩
    have hcan := canonical_of_query hbefore
    rcases hr.query_exact hs hvirt hcan with h1 | ⟨h1, -⟩
    · rcases hgood'.refines.query_exact hgood'.space hvirt hcan with h2 | ⟨h2, -⟩
      · rw [hbefore] at h1
        rw [hafter] at h2
        cases h1
        cases h2
        rw [PageMap.report, PageMap.report, hsame _ hne]
      · rw [hafter] at h2
        cases h2
    · rw [hbefore] at h1
      cases h1

end Whole

/-- A book of frames that are handed out in ascending order, sixteen at most. -/
structure SmallBook where
  next : Nat
  tables : List Nat
  pending : List Nat

def smallOps : VmmOps SmallBook where
  table _ _ := true
  alloc c :=
    if c.next < 16 then
      (some (4096 * c.next), { c with next := c.next + 1, pending := 4096 * c.next :: c.pending })
    else (none, c)
  free c f := if f ∈ c.pending then some { c with pending := c.pending.filter (· ≠ f) } else none
  commit c f :=
    if f ∈ c.pending then
      some { c with tables := f :: c.tables, pending := c.pending.filter (· ≠ f) }
    else none
  invalidate c _ := c

def SmallBook.Sound (c : SmallBook) : Prop :=
  ∀ f, f ∈ c.tables ∨ f ∈ c.pending → f < 4096 * c.next

theorem smallOps_contract :
    Contract smallOps SmallBook.Sound (fun c => {f | f ∈ c.tables})
      (fun c => {f | f ∈ c.pending}) ∅ := by
  have hrest : ∀ (l : List Nat) (f : Nat), {g | g ∈ l.filter (· ≠ f)} = {g | g ∈ l} \ {f} := by
    intro l f
    ext g
    simp
  refine ⟨?_, ?_, ?_, ?_, fun c _ h => ⟨h, rfl, rfl⟩⟩
  · intro c f c' hgood halloc
    simp only [smallOps] at halloc
    split at halloc
    · rename_i hlt
      cases halloc
      refine ⟨?_, rfl, by ext g; simp, by omega, ?_, ?_, by simp⟩
      · intro g hg
        simp only [List.mem_cons] at hg ⊢
        rcases hg with h | rfl | h
        · have := hgood g (Or.inl h)
          omega
        · omega
        · have := hgood g (Or.inr h)
          omega
      · intro h
        exact absurd (hgood _ (Or.inl h)) (by omega)
      · intro h
        exact absurd (hgood _ (Or.inr h)) (by omega)
    · cases halloc
  · intro c c' hgood halloc
    simp only [smallOps] at halloc
    split at halloc
    · cases halloc
    · cases halloc
      exact ⟨hgood, rfl, rfl⟩
  · intro c f hgood hf
    refine ⟨_, if_pos hf, ?_, rfl, hrest c.pending f⟩
    rintro g (h | h)
    · exact hgood g (Or.inl h)
    · exact hgood g (Or.inr (List.mem_of_mem_filter h))
  · intro c f hgood hf
    refine ⟨_, if_pos hf, ?_, by ext g; simp, hrest c.pending f⟩
    rintro g (h | h)
    · rcases List.mem_cons.1 h with rfl | h
      · exact hgood g (Or.inr hf)
      · exact hgood g (Or.inl h)
    · exact hgood g (Or.inr (List.mem_of_mem_filter h))

/-- An empty space over the root table at `0x1000`. -/
def smallRun : VmmRun SmallBook where
  space := ⟨4096, vmmAddressMask &&& (2 ^ 40 - 1), true, true, smallOps⟩
  core := ⟨⟨2, [4096], []⟩, fun _ => 0⟩
  pages := fun _ => none

theorem smallRun_start :
    vmmStart smallOps SmallBook.Sound (fun c => {f | f ∈ c.tables}) (fun c => {f | f ∈ c.pending})
      smallRun := by
  refine ⟨⟨4096, 40, true, rfl, by decide, ?_, fun _ _ _ => rfl⟩, ?_, ?_, rfl⟩
  · ext f
    simp [smallRun]
  · intro f hf
    have : f = 4096 := by simpa [smallRun] using hf
    show f < 4096 * 2
    omega
  · ext f
    simp [smallRun]

/-- The state after mapping the page at `0x400000` to the frame at `0x9000`. -/
theorem vmm_space_refines_map_small :
    ∃ run, VmmReachable smallOps SmallBook.Sound (fun c => {f | f ∈ c.tables})
        (fun c => {f | f ∈ c.pending}) run ∧
      vmmExec smallRun (.map 0x400000 0x9000 (vmmPresent ||| vmmUser ||| vmmNx)) = some run ∧
      vmmSpaceQuery run.space run.core 0x400123 =
        some ⟨true, 0x9123, vmmPresent ||| vmmUser ||| vmmNx, 4096⟩ ∧
      (vmmSpaceMap run.space run.core 0x400000 0xa000 vmmPresent).map Prod.snd = some false := by
  have hen : vmmEnabled SmallBook.Sound (fun c => {f | f ∈ c.tables}) (fun c => {f | f ∈ c.pending})
      smallRun (.map 0x400000 0x9000 (vmmPresent ||| vmmUser ||| vmmNx)) := by
    refine ⟨?_, ?_, ?_⟩ <;> decide
  have hpages : (vmmExec smallRun (.map 0x400000 0x9000 (vmmPresent ||| vmmUser ||| vmmNx))).map
      (fun run => run.pages 0x400) = some (some (0x9000, vmmPresent ||| vmmUser ||| vmmNx)) := by
    decide +kernel
  cases hexec : vmmExec smallRun (.map 0x400000 0x9000 (vmmPresent ||| vmmUser ||| vmmNx)) with
  | none =>
    rw [hexec] at hpages
    cases hpages
  | some run =>
    rw [hexec, Option.map_some, Option.some.injEq] at hpages
    have hreach := Reachable.step (Reachable.start smallRun_start) hen hexec
    obtain ⟨-, hquery, hmap, -⟩ := vmm_space_refines_map smallOps_contract hreach
    refine ⟨run, hreach, rfl, ?_, ?_⟩
    · rcases hquery 0x400123 (by decide) (by decide) with h | ⟨-, f, -, h⟩
      · rw [h, PageMap.report, hpages]
      · cases h
    · obtain ⟨core, ok, hrun, hyes, -⟩ := hmap 0x400000 0xa000 vmmPresent (by decide) (by decide)
        (by decide)
      rw [hrun]
      cases ok with
      | false => rfl
      | true =>
        have habsent := (hyes rfl).2
        rw [hpages] at habsent
        cases habsent

end Utamo.Vmm
