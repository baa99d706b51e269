import Utamo.Memory.Map

/-!
# The direct map

`kernel/memory/hhdm.c`. The boot loader maps physical memory of some types at a fixed offset in the
upper half. A translation succeeds when the request lies in one region of a mapped type. The usable
frames of a map that `hhdm_init` accepted all have a translation (`hhdmTranslate_usable`).
-/

set_option autoImplicit false

namespace Utamo.Memory

open Lib

variable {phys : Nat}

/-- `struct hhdm_context` -/
structure HhdmContext where
  map : MemoryMap
  offset : Nat
  physicalMask : Nat
  initialized : Bool

/-- `hhdm_type_mapped` -/
def hhdmTypeMapped (type : MemoryType) : Bool :=
  type = .usable ∨ type = .bootloaderReclaimable ∨ type = .kernelAndModules ∨ type = .framebuffer

/-- What `hhdm_init` checks of one region; `previous` is the base of the region before. -/
def hhdmRegionAccepted (mask offset : Nat) (previous : Option Nat) (region : MemoryRegion) : Bool :=
  if region.length = 0 ∨ uint64Max - region.base < region.length ∨ ¬ region.type.isKnown ∨
      ∃ base ∈ previous, region.base < base then
    false
  else if (region.type = .usable ∨ region.type = .bootloaderReclaimable) ∧
      (¬ memoryIsPageAligned region.base ∨ ¬ memoryIsPageAligned region.length) then
    false
  else if ¬ hhdmTypeMapped region.type then true
  else
    let last := region.base + region.length - 1
    ¬ ((mask ||| (memoryPageSize - 1)) < last ∨ uint64Max - offset < last ∨
      ¬ memoryIsCanonical (offset + region.base) ∨ ¬ memoryIsCanonical (offset + last))

/-- The loop of `hhdm_init`. -/
def hhdmRegionsAccepted (mask offset : Nat) : Option Nat → List MemoryRegion → Bool
  | _, [] => true
  | previous, region :: regions =>
    hhdmRegionAccepted mask offset previous region &&
      hhdmRegionsAccepted mask offset (some region.base) regions

/-- `hhdm_init` -/
def hhdmInit (context : HhdmContext) (map : MemoryMap) (offset physicalBits : Nat) :
    Option HhdmContext :=
  if context.initialized ∨ map.regions.length = 0 ∨ memoryRegionLimit < map.regions.length ∨
      offset < 0xffff800000000000 ∨ ¬ memoryIsPageAligned offset ∨ ¬ memoryIsCanonical offset then
    none
  else do
    let mask ← memoryPhysicalMask physicalBits
    if hhdmRegionsAccepted mask offset none map.regions then
      return { map, offset, physicalMask := mask, initialized := true }
    else none

/-- `hhdm_region` -/
def hhdmRegion (context : HhdmContext) (phys bytes : Nat) : Option MemoryRegion :=
  if ¬ context.initialized ∨ bytes = 0 ∨ uint64Max - phys < bytes - 1 then none
  else
    context.map.regions.find? fun region =>
      region.base ≤ phys ∧ phys - region.base < region.length ∧
        bytes ≤ region.length - (phys - region.base)

/-- `hhdm_translate` -/
def hhdmTranslate (context : HhdmContext) (phys bytes : Nat) : Option Nat := do
  let region ← hhdmRegion context phys bytes
  if ¬ hhdmTypeMapped region.type ∨ uint64Max - context.offset < phys then none
  else
    let virt := context.offset + phys
    if uint64Max - virt < bytes - 1 ∨ ¬ memoryIsCanonical virt ∨
        ¬ memoryIsCanonical (virt + bytes - 1) then
      none
    else return virt

/-! ## What is translated -/

/-- The region contains all bytes of the request. -/
def MemoryRegion.Contains (region : MemoryRegion) (phys bytes : Nat) : Prop :=
  region.base ≤ phys ∧ phys + bytes ≤ region.base + region.length

/-- The first region of the map that contains the request. -/
def FirstContaining (map : MemoryMap) (phys bytes : Nat) (region : MemoryRegion) : Prop :=
  ∃ before after, map.regions = before ++ region :: after ∧ region.Contains phys bytes ∧
    ∀ r ∈ before, ¬ r.Contains phys bytes

theorem hhdmRegionsAccepted_mem {mask offset : Nat} {regions : List MemoryRegion}
    {previous : Option Nat} (h : hhdmRegionsAccepted mask offset previous regions = true)
    {r : MemoryRegion} (hr : r ∈ regions) :
    ∃ before, hhdmRegionAccepted mask offset before r = true := by
  induction regions generalizing previous with
  | nil => cases hr
  | cons q regions ih =>
    rw [hhdmRegionsAccepted, Bool.and_eq_true] at h
    rcases List.mem_cons.1 hr with rfl | hr
    · exact ⟨previous, h.1⟩
    · exact ih h.2 hr

variable {context context' : HhdmContext} {map : MemoryMap} {offset bits bytes : Nat}

/-- What `hhdm_init` leaves behind. -/
theorem hhdmInit_spec (h : hhdmInit context map offset bits = some context') :
    context'.map = map ∧ context'.offset = offset ∧ context'.initialized = true ∧
      0xffff800000000000 ≤ offset ∧ ∀ r ∈ map.regions, hhdmTypeMapped r.type = true →
        r.base + r.length - 1 ≤ uint64Max - offset := by
  rw [hhdmInit] at h
  split at h
  · cases h
  rename_i hargs
  simp only [not_or] at hargs
  cases hmask : memoryPhysicalMask bits with
  | none =>
    rw [hmask] at h
    cases h
  | some mask =>
    rw [hmask] at h
    simp only [Option.bind_eq_bind, Option.bind_some, Option.pure_def] at h
    split at h
    · rename_i hregions
      cases h
      refine ⟨rfl, rfl, rfl, by omega, fun r hr hmapped => ?_⟩
      obtain ⟨before, haccepted⟩ := hhdmRegionsAccepted_mem hregions hr
      rw [hhdmRegionAccepted] at haccepted
      split at haccepted
      · cases haccepted
      split at haccepted
      · cases haccepted
      simp only [decide_eq_true_eq, not_or] at haccepted
      omega
    · cases h

theorem FirstContaining.mem {region : MemoryRegion} (h : FirstContaining map phys bytes region) :
    region ∈ map.regions := by
  obtain ⟨before, after, hregions, -⟩ := h
  rw [hregions]
  exact List.mem_append_right before List.mem_cons_self

theorem FirstContaining.contains {region : MemoryRegion}
    (h : FirstContaining map phys bytes region) :
    region.Contains phys bytes := by
  obtain ⟨-, -, -, hin, -⟩ := h
  exact hin

/-- The search of `hhdm_region` ends at the first region that contains the request. -/
theorem hhdmRegion_eq_some (hmap : MapSound map)
    (hinit : hhdmInit context map offset bits = some context')
    {region : MemoryRegion} :
    hhdmRegion context' phys bytes = some region ↔ 0 < bytes ∧
    FirstContaining map phys bytes region := by
  have hmax : uint64Max = 2 ^ 64 - 1 := rfl
  obtain ⟨hctx, -, hready, -, -⟩ := hhdmInit_spec hinit
  have hcontains : ∀ r : MemoryRegion, 0 < bytes →
      ((r.base ≤ phys ∧ phys - r.base < r.length ∧ bytes ≤ r.length - (phys - r.base)) ↔
        r.Contains phys bytes) := by
    intro r hpos
    rw [MemoryRegion.Contains]
    omega
  rw [hhdmRegion, hctx]
  by_cases hzero : bytes = 0
  · rw [if_pos (Or.inr (Or.inl hzero))]
    constructor
    · intro h
      cases h
    · rintro ⟨hpos, -⟩
      omega
  have hpos : 0 < bytes := Nat.pos_of_ne_zero hzero
  by_cases hwrap : uint64Max - phys < bytes - 1
  · -- a request that wraps lies in no region
    rw [if_pos (Or.inr (Or.inr hwrap))]
    constructor
    · intro h
      cases h
    · rintro ⟨-, hfirst⟩
      have hin := hfirst.contains
      have hend := (hmap.region region hfirst.mem).end_le
      rw [MemoryRegion.Contains] at hin
      omega
  rw [if_neg, List.find?_eq_some_iff_append]
  · constructor
    · rintro ⟨htest, before, after, hregions, hbefore⟩
      refine ⟨hpos, before, after, hregions,
        (hcontains region hpos).1 (of_decide_eq_true htest), ?_⟩
      intro r hr hin
      have hno := hbefore r hr
      rw [decide_eq_true ((hcontains r hpos).2 hin)] at hno
      cases hno
    · rintro ⟨-, before, after, hregions, hin, hbefore⟩
      refine ⟨decide_eq_true ((hcontains region hpos).2 hin), before, after, hregions, ?_⟩
      intro r hr
      rw [decide_eq_false fun htest => hbefore r hr ((hcontains r hpos).1 htest)]
      rfl
  · rintro (h | h | h)
    · exact h hready
    · exact hzero h
    · exact hwrap h

theorem canonical_of_upper {address : Nat} (h : 0xffff800000000000 ≤ address) :
    memoryIsCanonical address = true := by
  rw [memoryIsCanonical, decide_eq_true_eq]
  exact Or.inr h

/-- Behind the search, the checks of `hhdm_translate` are those of `hhdm_init`: only the type
can refuse. -/
theorem hhdmTranslate_eq_some (hmap : MapSound map)
    (hinit : hhdmInit context map offset bits = some context')
    {virt : Nat} :
    hhdmTranslate context' phys bytes = some virt ↔ virt = offset + phys ∧ 0 < bytes ∧
      ∃ region, FirstContaining map phys bytes region ∧ hhdmTypeMapped region.type = true := by
  have hmax : uint64Max = 2 ^ 64 - 1 := rfl
  obtain ⟨-, hoffset, -, hhigh, hfit⟩ := hhdmInit_spec hinit
  rw [hhdmTranslate, Option.bind_eq_bind, Option.bind_eq_some_iff]
  constructor
  · rintro ⟨region, hregion, hchecks⟩
    obtain ⟨hpos, hfirst⟩ := (hhdmRegion_eq_some hmap hinit).1 hregion
    split at hchecks
    · cases hchecks
    rename_i htype
    rw [not_or, not_not] at htype
    simp only at hchecks
    split at hchecks
    · cases hchecks
    · cases hchecks
      exact ⟨by rw [hoffset], hpos, region, hfirst, htype.1⟩
  · rintro ⟨rfl, hpos, region, hfirst, htype⟩
    refine ⟨region, (hhdmRegion_eq_some hmap hinit).2 ⟨hpos, hfirst⟩, ?_⟩
    have hin := hfirst.contains
    have hroom := hfit region hfirst.mem htype
    rw [MemoryRegion.Contains] at hin
    rw [hoffset, if_neg, if_neg]
    · rfl
    · rintro (h | h | h)
      · omega
      · exact h (canonical_of_upper (by omega))
      · exact h (canonical_of_upper (by omega))
    · rintro (h | h)
      · exact h htype
      · omega

/-- A region that excludes the others is the first to contain what it contains. -/
theorem firstContaining_of_exclusive (hmap : MapSound map) (hpos : 0 < bytes)
    {region : MemoryRegion} (hmem : region ∈ map.regions)
    (hexclusive : requiresExclusiveRegion region.type = true)
    (hin : region.Contains phys bytes) : FirstContaining map phys bytes region := by
  obtain ⟨before, after, hregions⟩ := List.append_of_mem hmem
  refine ⟨before, after, hregions, hin, fun r hr hcontains => ?_⟩
  have hapart := hmap.apart
  rw [hregions, List.pairwise_append] at hapart
  have hdisjoint := hapart.2.2 r hr region List.mem_cons_self (Or.inr hexclusive)
  rw [MemoryRegion.Contains] at hin hcontains
  omega

/-- The bytes of a usable frame lie in a usable region, which no other region overlaps. -/
theorem firstContaining_usable (hmap : MapSound map) (hpos : 0 < bytes)
    (hpage : phys % 4096 + bytes ≤ 4096) (husable : phys / 4096 ∈ usableFrames map.regions) :
    ∃ r, FirstContaining map phys bytes r ∧ r.type = .usable := by
  obtain ⟨r, hr, ht, hlo, hhi⟩ := mem_usableFrames.1 husable
  have hraligned := hmap.usable_aligned hr ht
  refine ⟨r, firstContaining_of_exclusive hmap hpos hr (by rw [ht]; rfl) ?_, ht⟩
  exact ⟨by omega, by omega⟩

/-! ## Usable memory is translated -/

variable (hmap : MapSound map) (h : hhdmInit context map offset bits = some context')

include hmap h

theorem hhdmRegion_within (hpos : 0 < bytes) (hpage : phys % 4096 + bytes ≤ 4096)
    (husable : phys / 4096 ∈ usableFrames map.regions) :
    ∃ q, hhdmRegion context' phys bytes = some q ∧ q.type = .usable := by
  obtain ⟨r, hfirst, ht⟩ := firstContaining_usable hmap hpos hpage husable
  exact ⟨r, (hhdmRegion_eq_some hmap h).2 ⟨hpos, hfirst⟩, ht⟩

/-- The region of a usable frame is usable. -/
theorem hhdmRegion_usable
    (halign : phys % 4096 = 0) (husable : phys / 4096 ∈ usableFrames map.regions) :
    ∃ q, hhdmRegion context' phys 4096 = some q ∧ q.type = .usable :=
  hhdmRegion_within hmap h (by omega) (by omega) husable

/-- A frame whose region is not usable is no usable frame. -/
theorem not_usable_of_region
    (halign : phys % 4096 = 0) {region : MemoryRegion}
    (hregion : hhdmRegion context' phys 4096 = some region) (hne : region.type ≠ .usable) :
    phys / 4096 ∉ usableFrames map.regions := by
  intro husable
  obtain ⟨q, hq, htype⟩ := hhdmRegion_usable hmap h halign husable
  rw [hregion] at hq
  cases hq
  exact hne htype

/-- Usable frames lie below the upper half. -/
theorem usable_lt
    (halign : phys % 4096 = 0) (husable : phys / 4096 ∈ usableFrames map.regions) :
    phys < 2 ^ 47 := by
  have hmax : uint64Max = 2 ^ 64 - 1 := rfl
  obtain ⟨-, -, -, hhigh, hfit⟩ := hhdmInit_spec h
  obtain ⟨r, hr, ht, hlo, hhi⟩ := mem_usableFrames.1 husable
  have hraligned := hmap.usable_aligned hr ht
  have hrfit := hfit r hr (by rw [ht]; rfl)
  omega

theorem hhdmTranslate_within (hpos : 0 < bytes) (hpage : phys % 4096 + bytes ≤ 4096)
    (husable : phys / 4096 ∈ usableFrames map.regions) :
    hhdmTranslate context' phys bytes = some (offset + phys) := by
  obtain ⟨r, hfirst, ht⟩ := firstContaining_usable hmap hpos hpage husable
  exact (hhdmTranslate_eq_some hmap h).2 ⟨rfl, hpos, r, hfirst, by rw [ht]; rfl⟩

/-- The direct map of an accepted map translates every usable frame. -/
theorem hhdmTranslate_usable
    (halign : phys % 4096 = 0) (husable : phys / 4096 ∈ usableFrames map.regions) :
    hhdmTranslate context' phys 4096 = some (offset + phys) :=
  hhdmTranslate_within hmap h (by omega) (by omega) husable

end Utamo.Memory
