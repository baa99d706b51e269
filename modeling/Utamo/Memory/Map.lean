import Utamo.Memory.Helpers
import Mathlib.Data.Finset.Card
import Mathlib.Order.Interval.Finset.Nat

/-!
# The physical memory map

`kernel/memory/memory_map.c`. Regions are appended in ascending order of their bases; regions that
the kernel may hand out (`requires_exclusive_region`) are page aligned and overlap no other region.
The array `regions` with its `count` is the list of the regions added so far.

`MapSound` is what holds of every map that was built by `memory_map_add` only (`MapBuilt.sound`).
Its usable regions are disjoint intervals of whole frames, so their bytes count the frames
(`card_usableFrames`).
-/

set_option autoImplicit false

namespace Utamo.Memory

open Lib

/-- `UTAMO_MEMORY_REGION_LIMIT` -/
def memoryRegionLimit : Nat := 512

/-- `enum memory_type`; `other` are the values above `UTAMO_MEMORY_FRAMEBUFFER`. -/
inductive MemoryType
  | usable
  | reserved
  | acpiReclaimable
  | acpiNvs
  | bad
  | bootloaderReclaimable
  | kernelAndModules
  | framebuffer
  | other (code : Nat)
  deriving DecidableEq, Repr

/-- `type <= UTAMO_MEMORY_FRAMEBUFFER` -/
def MemoryType.isKnown : MemoryType → Bool
  | .other _ => false
  | _ => true

/-- `struct memory_region` -/
structure MemoryRegion where
  base : Nat
  length : Nat
  type : MemoryType
  deriving DecidableEq, Repr

/-- `struct memory_map` -/
structure MemoryMap where
  regions : List MemoryRegion
  usableBytes : Nat
  bootloaderReclaimableBytes : Nat
  deriving DecidableEq, Repr

/-- `memory_map_init` -/
def memoryMapInit : MemoryMap := ⟨[], 0, 0⟩

/-- `requires_exclusive_region` -/
def requiresExclusiveRegion (type : MemoryType) : Bool :=
  type = .usable ∨ type = .bootloaderReclaimable

/-- The overlap test in the loop of `memory_map_add`. -/
def regionConflicts (region previous : MemoryRegion) : Bool :=
  (requiresExclusiveRegion region.type ∨ requiresExclusiveRegion previous.type) ∧
    region.base < previous.base + previous.length ∧ previous.base < region.base + region.length

/-- `memory_map_add` -/
def memoryMapAdd (map : MemoryMap) (region : MemoryRegion) : Option MemoryMap :=
  if memoryRegionLimit ≤ map.regions.length ∨ ¬ region.type.isKnown ∨ region.length = 0 ∨
      uint64Max - region.base < region.length then
    none
  else if ∃ previous ∈ map.regions.getLast?, region.base < previous.base then none
  else if requiresExclusiveRegion region.type ∧ (region.base ||| region.length) &&& 0xfff ≠ 0 then
    none
  else if map.regions.any (regionConflicts region) then none
  else
    match region.type with
    | .usable =>
      if uint64Max - map.usableBytes < region.length then none
      else some { map with regions := map.regions ++ [region]
                           usableBytes := map.usableBytes + region.length }
    | .bootloaderReclaimable =>
      if uint64Max - map.bootloaderReclaimableBytes < region.length then none
      else some { map with regions := map.regions ++ [region]
                           bootloaderReclaimableBytes :=
                             map.bootloaderReclaimableBytes + region.length }
    | _ => some { map with regions := map.regions ++ [region] }

/-- The maps that `memory_map_init` and `memory_map_add` build. -/
inductive MapBuilt : MemoryMap → Prop
  | init : MapBuilt memoryMapInit
  | add {map map' : MemoryMap} {region : MemoryRegion} : MapBuilt map →
      memoryMapAdd map region = some map' → MapBuilt map'

/-- The regions of a map, added one after the other. -/
theorem MapBuilt.run {map map' : MemoryMap} (h : MapBuilt map) {regions : List MemoryRegion}
    (hrun : regions.foldlM memoryMapAdd map = some map') : MapBuilt map' := by
  induction regions generalizing map with
  | nil =>
    cases hrun
    exact h
  | cons region regions ih =>
    rw [List.foldlM_cons, Option.bind_eq_bind, Option.bind_eq_some_iff] at hrun
    obtain ⟨next, hadd, hrest⟩ := hrun
    exact ih (h.add hadd) hrest

/-! ## Sound maps -/

/-- What `memory_map_add` checks of a region alone. -/
structure RegionSound (region : MemoryRegion) : Prop where
  known : region.type.isKnown = true
  length_pos : 0 < region.length
  end_le : region.base + region.length ≤ uint64Max
  aligned : requiresExclusiveRegion region.type = true →
    region.base % 4096 = 0 ∧ region.length % 4096 = 0

/-- Two regions that may stand in one map. -/
def Apart (a b : MemoryRegion) : Prop :=
  requiresExclusiveRegion a.type = true ∨ requiresExclusiveRegion b.type = true →
    a.base + a.length ≤ b.base ∨ b.base + b.length ≤ a.base

instance : Std.Symm Apart := ⟨fun _ _ h hex => (h hex.symm).symm⟩

/-- The bytes of the usable regions. -/
def usableLength (regions : List MemoryRegion) : Nat :=
  ((regions.filter fun r => r.type = .usable).map MemoryRegion.length).sum

/-- What `memory_map_add` maintains. -/
structure MapSound (map : MemoryMap) : Prop where
  region : ∀ r ∈ map.regions, RegionSound r
  apart : map.regions.Pairwise Apart
  usable : map.usableBytes = usableLength map.regions

theorem usableLength_snoc (regions : List MemoryRegion) (r : MemoryRegion) :
    usableLength (regions ++ [r]) =
      usableLength regions + if r.type = .usable then r.length else 0 := by
  rw [usableLength, usableLength, List.filter_append, List.map_append, List.sum_append]
  by_cases h : r.type = .usable
  · simp [h]
  · simp [h]

/-- What it takes to be added. -/
theorem memoryMapAdd_spec {map map' : MemoryMap} {region : MemoryRegion}
    (h : memoryMapAdd map region = some map') :
    RegionSound region ∧ map'.regions = map.regions ++ [region] ∧
      (∀ r ∈ map.regions, Apart r region) ∧
      map'.usableBytes = map.usableBytes + if region.type = .usable then region.length else 0 := by
  rw [memoryMapAdd] at h
  split at h
  · cases h
  rename_i hcheck
  simp only [not_or, not_not] at hcheck
  split at h
  · cases h
  split at h
  · cases h
  rename_i halign
  split at h
  · cases h
  rename_i hconflict
  have hsound : RegionSound region := by
    have hmax : uint64Max = 2 ^ 64 - 1 := rfl
    refine ⟨hcheck.2.1, by omega, by omega, fun hex => ?_⟩
    have hlow : (region.base ||| region.length) &&& 0xfff = 0 := by
      by_contra hne
      exact halign ⟨hex, hne⟩
    rw [Nat.and_or_distrib_right, Nat.or_eq_zero_iff] at hlow
    have hmod : ∀ x : Nat, x &&& 0xfff = x % 4096 := fun x => Nat.and_two_pow_sub_one_eq_mod x 12
    rw [hmod, hmod] at hlow
    exact hlow
  have hapart : ∀ r ∈ map.regions, Apart r region := by
    intro r hr hex
    by_contra hno
    refine hconflict (List.any_eq_true.2 ⟨r, hr, ?_⟩)
    rw [regionConflicts, decide_eq_true_eq]
    exact ⟨hex.symm, by omega, by omega⟩
  refine ⟨hsound, ?_⟩
  split at h
  · rename_i htype
    split at h
    · cases h
    · cases h
      exact ⟨rfl, hapart, by rw [if_pos htype]⟩
  · rename_i htype
    split at h
    · cases h
    · cases h
      exact ⟨rfl, hapart, by rw [if_neg (by rw [htype]; decide)]; rfl⟩
  · rename_i hne _
    cases h
    exact ⟨rfl, hapart, by rw [if_neg hne]; rfl⟩

theorem MapBuilt.sound {map : MemoryMap} (h : MapBuilt map) : MapSound map := by
  induction h with
  | init => exact ⟨by simp [memoryMapInit], by simp [memoryMapInit], rfl⟩
  | @add map map' region _ hadd ih =>
    obtain ⟨hsound, hregions, hapart, husable⟩ := memoryMapAdd_spec hadd
    refine ⟨?_, ?_, ?_⟩
    · intro r hr
      rw [hregions, List.mem_append, List.mem_singleton] at hr
      rcases hr with hr | rfl
      · exact ih.region r hr
      · exact hsound
    · rw [hregions, List.pairwise_append]
      refine ⟨ih.apart, by simp, ?_⟩
      intro a ha b hb
      rw [List.mem_singleton] at hb
      rw [hb]
      exact hapart a ha
    · rw [husable, hregions, usableLength_snoc, ih.usable]

/-! ## Usable frames -/

/-- A byte of a usable region. -/
def UsableByte (map : MemoryMap) (x : Nat) : Prop :=
  ∃ r ∈ map.regions, r.type = .usable ∧ r.base ≤ x ∧ x < r.base + r.length

/-- A frame whose bytes are all usable. -/
def UsableFrame (map : MemoryMap) (f : Nat) : Prop :=
  ∀ x, 4096 * f ≤ x → x < 4096 * f + 4096 → UsableByte map x

/-- The frames of the usable regions. -/
def usableFrames : List MemoryRegion → Finset Nat
  | [] => ∅
  | r :: rs =>
    if r.type = .usable then
      Finset.Ico (r.base / 4096) ((r.base + r.length) / 4096) ∪ usableFrames rs
    else usableFrames rs

theorem mem_usableFrames {regions : List MemoryRegion} {f : Nat} :
    f ∈ usableFrames regions ↔
      ∃ r ∈ regions, r.type = .usable ∧ r.base / 4096 ≤ f ∧ f < (r.base + r.length) / 4096 := by
  induction regions with
  | nil => simp [usableFrames]
  | cons r rs ih =>
    rw [usableFrames]
    by_cases h : r.type = .usable
    · rw [if_pos h, Finset.mem_union, Finset.mem_Ico, ih]
      simp [h]
    · rw [if_neg h, ih]
      simp [h]

section Sound

variable {map : MemoryMap} (hmap : MapSound map)

include hmap

theorem MapSound.usable_aligned {r : MemoryRegion} (hr : r ∈ map.regions) (ht : r.type = .usable) :
    r.base % 4096 = 0 ∧ r.length % 4096 = 0 :=
  (hmap.region r hr).aligned (by rw [ht]; rfl)

theorem MapSound.usableFrame_iff {f : Nat} :
    UsableFrame map f ↔ f ∈ usableFrames map.regions := by
  rw [mem_usableFrames]
  constructor
  · intro h
    obtain ⟨r, hr, ht, hlo, hhi⟩ := h (4096 * f) (le_refl _) (by omega)
    have := hmap.usable_aligned hr ht
    exact ⟨r, hr, ht, by omega, by omega⟩
  · rintro ⟨r, hr, ht, hlo, hhi⟩ x hx1 hx2
    have := hmap.usable_aligned hr ht
    exact ⟨r, hr, ht, by omega, by omega⟩

/-- A byte of a usable region lies in no region of another type. -/
theorem MapSound.type_of_usable {x : Nat} (hx : UsableByte map x) {r : MemoryRegion}
    (hr : r ∈ map.regions) (hlo : r.base ≤ x) (hhi : x < r.base + r.length) : r.type = .usable := by
  obtain ⟨r', hr', ht', hlo', hhi'⟩ := hx
  by_contra hne
  have hex : requiresExclusiveRegion r'.type = true := by rw [ht']; rfl
  have hdiff : r ≠ r' := fun h => hne (h ▸ ht')
  have := hmap.apart.forall hr hr' hdiff (Or.inr hex)
  omega

end Sound

/-- The usable regions are disjoint runs of whole frames. -/
theorem card_usableFrames {regions : List MemoryRegion} (hsound : ∀ r ∈ regions, RegionSound r)
    (hapart : regions.Pairwise Apart) :
    4096 * (usableFrames regions).card = usableLength regions := by
  induction regions with
  | nil => rfl
  | cons r rs ih =>
    rw [List.pairwise_cons] at hapart
    have hrest := ih (fun q hq => hsound q (List.mem_cons_of_mem _ hq)) hapart.2
    by_cases h : r.type = .usable
    · have halign := (hsound r List.mem_cons_self).aligned (by rw [h]; rfl)
      have hdisjoint : Disjoint (Finset.Ico (r.base / 4096) ((r.base + r.length) / 4096))
          (usableFrames rs) := by
        rw [Finset.disjoint_left]
        intro f hf hf'
        rw [Finset.mem_Ico] at hf
        obtain ⟨q, hq, ht, hlo, hhi⟩ := mem_usableFrames.1 hf'
        have hqalign := (hsound q (List.mem_cons_of_mem _ hq)).aligned (by rw [ht]; rfl)
        have := hapart.1 q hq (Or.inl (by rw [h]; rfl))
        omega
      have hlength : usableLength (r :: rs) = r.length + usableLength rs := by
        simp [usableLength, h]
      rw [usableFrames, if_pos h, Finset.card_union_of_disjoint hdisjoint, Nat.card_Ico, hlength,
        ← hrest]
      omega
    · rw [usableFrames, if_neg h, hrest]
      simp [usableLength, h]

end Utamo.Memory
