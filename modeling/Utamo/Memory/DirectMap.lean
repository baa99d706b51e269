import Utamo.Memory.Hhdm

/-!
# The direct map as a partial bijection

Which requests `hhdm_translate` accepts, in terms of the memory map alone, and that
`hhdm_reverse` undoes it.

A translation goes by the first region that contains the request, whatever its type (`hhdm.h`).
Regions that are not exclusive may overlap, so that a request inside a region of a mapped type can
be refused: an earlier region of another type that contains it as well hides it
(`hhdm_translation_hidden`). Exclusive regions are never hidden.
-/

set_option autoImplicit false

namespace Utamo.Memory

open Lib

/-- `hhdm_reverse` -/
def hhdmReverse (context : HhdmContext) (virt bytes : Nat) : Option Nat :=
  if ¬ context.initialized ∨ virt < context.offset then none
  else
    let phys := virt - context.offset
    if hhdmTranslate context phys bytes = some virt then some phys else none

section DirectMap

variable {context context' : HhdmContext} {map : MemoryMap} {offset bits phys bytes : Nat}

theorem hhdmReverse_eq_some (hmap : MapSound map)
    (hinit : hhdmInit context map offset bits = some context')
    (hphys : phys < 2 ^ 64) {virt : Nat} :
    hhdmReverse context' virt bytes = some phys ↔
      hhdmTranslate context' phys bytes = some virt := by
  obtain ⟨-, hoffset, hready, -, -⟩ := hhdmInit_spec hinit
  rw [hhdmReverse, hready, hoffset]
  constructor
  · intro h
    split at h
    · cases h
    simp only at h
    split at h
    · rename_i htranslate
      cases h
      exact htranslate
    · cases h
  · intro h
    obtain ⟨rfl, -⟩ := (hhdmTranslate_eq_some hmap hinit).1 h
    have hargs : ¬ (¬ true = true ∨ offset + phys < offset) := by
      rintro (h1 | h1)
      · exact h1 rfl
      · omega
    rw [if_neg hargs]
    simp only [Nat.add_sub_cancel_left, h, if_true]

end DirectMap

/-- The direct map translates a request exactly if it is not empty and the first region that
contains it has a mapped type. Then the result is at the fixed offset, does not wrap and is
canonical in every byte, and `hhdm_reverse` undoes it and nothing else. A request inside an
exclusive region is always translated. -/
theorem hhdm_translation {context context' : HhdmContext} {map : MemoryMap} {offset bits : Nat}
    (hbuilt : MapBuilt map) (hinit : hhdmInit context map offset bits = some context')
    {phys bytes : Nat} (hoffset : offset < 2 ^ 64) (hphys : phys < 2 ^ 64) :
    ((hhdmTranslate context' phys bytes).isSome = true ↔ 0 < bytes ∧
      ∃ region, FirstContaining map phys bytes region ∧ hhdmTypeMapped region.type = true) ∧
    (∀ virt, hhdmTranslate context' phys bytes = some virt →
      virt = offset + phys ∧ virt + bytes ≤ 2 ^ 64 ∧
        ∀ i < bytes, memoryIsCanonical (virt + i) = true) ∧
    (∀ virt, hhdmReverse context' virt bytes = some phys ↔
      hhdmTranslate context' phys bytes = some virt) ∧
    ∀ region ∈ map.regions, requiresExclusiveRegion region.type = true → 0 < bytes →
      region.Contains phys bytes → hhdmTranslate context' phys bytes = some (offset + phys) := by
  have hmap := hbuilt.sound
  have hmax : uint64Max = 2 ^ 64 - 1 := rfl
  obtain ⟨-, -, -, hhigh, hfit⟩ := hhdmInit_spec hinit
  have hsome : ∀ virt, hhdmTranslate context' phys bytes = some virt ↔ virt = offset + phys ∧
      0 < bytes ∧
      ∃ region, FirstContaining map phys bytes region ∧ hhdmTypeMapped region.type = true :=
    fun virt => hhdmTranslate_eq_some hmap hinit
  refine ⟨?_, ?_, fun virt => hhdmReverse_eq_some hmap hinit hphys, ?_⟩
  · rw [Option.isSome_iff_exists]
    constructor
    · rintro ⟨virt, h⟩
      exact ((hsome virt).1 h).2
    · intro h
      exact ⟨offset + phys, (hsome _).2 ⟨rfl, h⟩⟩
  · intro virt h
    obtain ⟨rfl, hpos, region, hfirst, htype⟩ := (hsome virt).1 h
    have hin := hfirst.contains
    have hroom := hfit region hfirst.mem htype
    rw [MemoryRegion.Contains] at hin
    refine ⟨rfl, by omega, fun i _ => canonical_of_upper (by omega)⟩
  · intro region hmem hexclusive hpos hin
    refine (hsome _).2 ⟨rfl, hpos, region,
      firstContaining_of_exclusive hmap hpos hmem hexclusive hin, ?_⟩
    rw [requiresExclusiveRegion, decide_eq_true_eq] at hexclusive
    rw [hhdmTypeMapped, decide_eq_true_eq]
    rcases hexclusive with h | h
    · exact Or.inl h
    · exact Or.inr (Or.inl h)

/-- A framebuffer inside a reserved range that starts at the same address, and a usable region. -/
def overlappedMap : MemoryMap :=
  ⟨[⟨0x1000, 0x4000, .usable⟩, ⟨0x10000, 0x4000, .reserved⟩,
    ⟨0x10000, 0x2000, .framebuffer⟩], 0x4000, 0⟩

theorem overlappedMap_built : MapBuilt overlappedMap :=
  @MapBuilt.run _ _ .init overlappedMap.regions (by decide)

/-- A page of the usable region is translated, and back. -/
theorem hhdm_translation_usable : ∃ context',
    hhdmInit ⟨memoryMapInit, 0, 0, false⟩ overlappedMap 0xffff800000000000 36 = some context' ∧
    hhdmTranslate context' 0x2000 0x1000 = some 0xffff800000002000 ∧
    hhdmReverse context' 0xffff800000002000 0x1000 = some 0x2000 := by
  have hinit :
      (hhdmInit ⟨memoryMapInit, 0, 0, false⟩ overlappedMap 0xffff800000000000 36).isSome := by
    decide
  obtain ⟨context', hcontext⟩ := Option.isSome_iff_exists.1 hinit
  have htranslate : hhdmTranslate context' 0x2000 0x1000 = some 0xffff800000002000 :=
    (hhdm_translation overlappedMap_built hcontext (by decide) (by decide)).2.2.2
      ⟨0x1000, 0x4000, .usable⟩ (by decide) rfl (by decide) ⟨by decide, by decide⟩
  have hreverse : hhdmReverse context' 0xffff800000002000 0x1000 = some 0x2000 :=
    ((hhdm_translation overlappedMap_built hcontext (by decide) (by decide)).2.2.1 _).2 htranslate
  exact ⟨context', hcontext, htranslate, hreverse⟩

/-- A framebuffer that an earlier reserved region covers is not translated. -/
theorem hhdm_translation_hidden : ∃ context', MapBuilt overlappedMap ∧
    hhdmInit ⟨memoryMapInit, 0, 0, false⟩ overlappedMap 0xffff800000000000 36 = some context' ∧
    (∃ region ∈ overlappedMap.regions, hhdmTypeMapped region.type = true ∧
      region.Contains 0x10000 0x1000) ∧
    hhdmTranslate context' 0x10000 0x1000 = none := by
  have hnone : ((hhdmInit ⟨memoryMapInit, 0, 0, false⟩ overlappedMap 0xffff800000000000 36).map
      fun context' => hhdmTranslate context' 0x10000 0x1000) = some none := by decide
  obtain ⟨context', hcontext, htranslate⟩ := Option.map_eq_some_iff.1 hnone
  refine ⟨context', overlappedMap_built, hcontext,
    ⟨⟨0x10000, 0x2000, .framebuffer⟩, by decide, rfl, ?_⟩, htranslate⟩
  exact ⟨by decide, by decide⟩

end Utamo.Memory
