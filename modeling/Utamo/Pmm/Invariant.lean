import Utamo.Pmm.Core
import Mathlib.Data.Finset.Image

/-!
# The invariant of the frame allocator

A frame is in one of three conditions: unavailable (not eligible, hence occupied), free, or
allocated. `PmmInv` says so for every frame of the span, and that the counter `free_frames` counts
the free ones. `find_run` looks at `occupied` alone, so it is the first part that makes an
allocation consist of eligible frames.

Each operation is described by its effect on the two bits of every frame, and keeps the invariant.
-/

set_option autoImplicit false

namespace Utamo.Pmm

open Lib Memory

variable {f : Nat}

/-! ## The two bitmaps -/

def PmmState.isEligible (s : PmmState) (frame : Nat) : Bool :=
  bitmapTest s.memory s.eligible frame

def PmmState.isOccupied (s : PmmState) (frame : Nat) : Bool :=
  bitmapTest s.memory s.occupied frame

/-- The bitmaps follow one another and cover the span. -/
structure Layout (s : PmmState) : Prop where
  occupied_eq : s.occupied = s.eligible + s.plan.bitmapBytes
  capacity : s.plan.spanFrames ≤ 8 * s.plan.bitmapBytes
  span_le : s.plan.spanFrames ≤ 2 ^ 52

/-- The states that differ in their bits and in the counters only. -/
structure SameSpan (s s' : PmmState) : Prop where
  eligible : s'.eligible = s.eligible
  occupied : s'.occupied = s.occupied
  plan : s'.plan = s.plan
  total : s'.totalFrames = s.totalFrames
  init : s'.initialized = s.initialized

theorem SameSpan.refl (s : PmmState) : SameSpan s s := ⟨rfl, rfl, rfl, rfl, rfl⟩

theorem SameSpan.trans {s t u : PmmState} (h1 : SameSpan s t) (h2 : SameSpan t u) : SameSpan s u :=
  ⟨h2.eligible.trans h1.eligible, h2.occupied.trans h1.occupied, h2.plan.trans h1.plan,
    h2.total.trans h1.total, h2.init.trans h1.init⟩

theorem Layout.of_sameSpan {s s' : PmmState} (h : Layout s) (hs : SameSpan s s') : Layout s' := by
  refine ⟨?_, ?_, ?_⟩
  · rw [hs.occupied, hs.eligible, hs.plan]
    exact h.occupied_eq
  · rw [hs.plan]
    exact h.capacity
  · rw [hs.plan]
    exact h.span_le

section Bits

variable {s : PmmState} (hl : Layout s) {memory : ByteMemory} {first n frame : Nat} {value : Bool}

include hl

/-- A byte of one bitmap is not a byte of the other. -/
theorem Layout.apart {g : Nat} (hg : g < s.plan.spanFrames) :
    s.eligible + g / 8 ≠ s.occupied + f / 8 := by
  have h1 := hl.occupied_eq
  have h2 := hl.capacity
  omega

theorem Layout.eligible_setRange_occupied (hf : frame < s.plan.spanFrames) :
    bitmapTest (Bitmap.setRange memory s.occupied first n value) s.eligible frame =
      bitmapTest memory s.eligible frame := by
  refine Bitmap.test_congr (Bitmap.setRange_of_outside fun i _ _ => ?_)
  exact hl.apart hf

theorem Layout.occupied_set_eligible (hf : f < s.plan.spanFrames) :
    bitmapTest (bitmapSet memory s.eligible f value) s.occupied frame =
      bitmapTest memory s.occupied frame :=
  Bitmap.test_congr (Bitmap.set_of_outside (hl.apart hf).symm)

theorem Layout.eligible_set_occupied (hf : frame < s.plan.spanFrames) :
    bitmapTest (bitmapSet memory s.occupied f value) s.eligible frame =
      bitmapTest memory s.eligible frame :=
  Bitmap.test_congr (Bitmap.set_of_outside (hl.apart hf))

end Bits

theorem bitmapTest_set (memory : ByteMemory) (bitmap f g : Nat) (value : Bool) :
    bitmapTest (bitmapSet memory bitmap f value) bitmap g =
      if g = f then value else bitmapTest memory bitmap g := by
  by_cases h : g = f
  · rw [if_pos h, h]
    exact Bitmap.test_set_self
  · rw [if_neg h]
    exact Bitmap.test_set_of_ne (Ne.symm h)

theorem bitmapTest_setRange (memory : ByteMemory) (bitmap first n g : Nat) (value : Bool) :
    bitmapTest (Bitmap.setRange memory bitmap first n value) bitmap g =
      if first ≤ g ∧ g < first + n then value else bitmapTest memory bitmap g :=
  Bitmap.test_setRange

/-! ## The invariant -/

/-- The free frames of the span. -/
def freeSet (s : PmmState) : Finset Nat :=
  (Finset.range s.plan.spanFrames).filter fun f => s.isEligible f = true ∧ s.isOccupied f = false

structure PmmInv (map : MemoryMap) (s : PmmState) : Prop where
  init : s.initialized = true
  layout : Layout s
  occupied_of : ∀ f, f < s.plan.spanFrames → s.isEligible f = false → s.isOccupied f = true
  free_eq : s.freeFrames = (freeSet s).card
  cursor_lt : s.cursor < s.plan.spanFrames
  usable : ∀ f, f < s.plan.spanFrames → s.isEligible f = true → f ∈ usableFrames map.regions
  total_eq : s.totalFrames = (usableFrames map.regions).card

section Inv

variable {map : MemoryMap} {s s' : PmmState} (hinv : PmmInv map s)

include hinv

theorem PmmInv.free_le : s.freeFrames ≤ s.plan.spanFrames := by
  rw [hinv.free_eq]
  calc (freeSet s).card ≤ (Finset.range s.plan.spanFrames).card := Finset.card_filter_le _ _
    _ = s.plan.spanFrames := Finset.card_range _

theorem PmmInv.free_lt : s.freeFrames < 2 ^ 64 :=
  (hinv.free_le.trans hinv.layout.span_le).trans_lt (by decide)

/-- An unoccupied frame of the span is free. -/
theorem PmmInv.mem_freeSet (hf : f < s.plan.spanFrames) (hocc : s.isOccupied f = false) :
    f ∈ freeSet s := by
  rw [freeSet, Finset.mem_filter, Finset.mem_range]
  refine ⟨hf, ?_, hocc⟩
  by_contra hel
  rw [hinv.occupied_of f hf (by simpa using hel)] at hocc
  cases hocc

/-- The invariant after a change of bits that makes no frame eligible. -/
theorem PmmInv.of_bits (hsame : SameSpan s s')
    (hel : ∀ f, f < s.plan.spanFrames → s'.isEligible f = true → s.isEligible f = true)
    (hocc : ∀ f, f < s.plan.spanFrames → s'.isEligible f = false → s'.isOccupied f = true)
    (hfree : s'.freeFrames = (freeSet s').card) (hcursor : s'.cursor < s.plan.spanFrames) :
    PmmInv map s' := by
  refine ⟨hsame.init.trans hinv.init, hinv.layout.of_sameSpan hsame, ?_, hfree, ?_, ?_, ?_⟩
  · rw [hsame.plan]
    exact hocc
  · rw [hsame.plan]
    exact hcursor
  · rw [hsame.plan]
    exact fun f hf h => hinv.usable f hf (hel f hf h)
  · rw [hsame.total]
    exact hinv.total_eq

end Inv

/-! ## Reservations -/

section Reserve

variable {map : MemoryMap} {s : PmmState} (hinv : PmmInv map s)

include hinv

/-- One round of the loop of `pmm_core_reserve_range`: the frame is unavailable afterwards. -/
theorem reserveFrame_spec (hf : f < s.plan.spanFrames)
    (hnot : ¬ (s.isEligible f = true ∧ s.isOccupied f = true)) :
    PmmInv map (reserveFrame f s) ∧ SameSpan s (reserveFrame f s) ∧
      (reserveFrame f s).cursor = s.cursor ∧
      ∀ g, g < s.plan.spanFrames →
        (reserveFrame f s).isEligible g = (if g = f then false else s.isEligible g) ∧
        (reserveFrame f s).isOccupied g = (if g = f then true else s.isOccupied g) := by
  by_cases hel : s.isEligible f = true
  · have hfree : f ∈ freeSet s := hinv.mem_freeSet hf (by simpa [hel] using hnot)
    have hrun : reserveFrame f s = { s with
        memory := bitmapSet (bitmapSet s.memory s.eligible f false) s.occupied f true
        freeFrames := subU64 s.freeFrames 1 } := by
      rw [reserveFrame]
      exact if_pos hel
    have hsame : SameSpan s (reserveFrame f s) := by
      rw [hrun]
      exact ⟨rfl, rfl, rfl, rfl, rfl⟩
    have hbits : ∀ g, g < s.plan.spanFrames →
        (reserveFrame f s).isEligible g = (if g = f then false else s.isEligible g) ∧
        (reserveFrame f s).isOccupied g = (if g = f then true else s.isOccupied g) := by
      intro g hg
      rw [hrun]
      constructor
      · exact (hinv.layout.eligible_set_occupied hg).trans (bitmapTest_set _ _ _ _ _)
      · refine (bitmapTest_set _ _ _ _ _).trans ?_
        rw [hinv.layout.occupied_set_eligible hf]
        rfl
    have hset : freeSet (reserveFrame f s) = (freeSet s).erase f := by
      ext g
      rw [Finset.mem_erase, freeSet, freeSet, Finset.mem_filter, Finset.mem_filter, hsame.plan,
        Finset.mem_range]
      constructor
      · rintro ⟨hg, h1, h2⟩
        rw [(hbits g hg).1] at h1
        rw [(hbits g hg).2] at h2
        by_cases hgf : g = f
        · rw [if_pos hgf] at h1
          cases h1
        · rw [if_neg hgf] at h1 h2
          exact ⟨hgf, hg, h1, h2⟩
      · rintro ⟨hgf, hg, h1, h2⟩
        rw [(hbits g hg).1, (hbits g hg).2, if_neg hgf, if_neg hgf]
        exact ⟨hg, h1, h2⟩
    have hcursor : (reserveFrame f s).cursor = s.cursor := by rw [hrun]
    refine ⟨hinv.of_bits hsame ?_ ?_ ?_ ?_, hsame, hcursor, hbits⟩
    · intro g hg h
      rw [(hbits g hg).1] at h
      by_cases hgf : g = f
      · rw [if_pos hgf] at h
        cases h
      · rwa [if_neg hgf] at h
    · intro g hg h
      rw [(hbits g hg).1] at h
      rw [(hbits g hg).2]
      by_cases hgf : g = f
      · rw [if_pos hgf]
      · rw [if_neg hgf] at h ⊢
        exact hinv.occupied_of g hg h
    · have hpos : 0 < (freeSet s).card := Finset.card_pos.2 ⟨f, hfree⟩
      have heq := hinv.free_eq
      rw [hset, Finset.card_erase_of_mem hfree, ← heq, hrun]
      exact subU64_of_le (by omega) hinv.free_lt
    · rw [hcursor]
      exact hinv.cursor_lt
  · -- A frame that is not eligible is occupied already.
    have hrun : reserveFrame f s = s := by
      rw [reserveFrame]
      exact if_neg hel
    rw [hrun]
    refine ⟨hinv, SameSpan.refl s, rfl, fun g hg => ?_⟩
    have helf : s.isEligible f = false := by simpa using hel
    by_cases hgf : g = f
    · rw [if_pos hgf, if_pos hgf, hgf]
      exact ⟨helf, hinv.occupied_of f hf helf⟩
    · rw [if_neg hgf, if_neg hgf]
      exact ⟨rfl, rfl⟩

/-- What holds when the frames from `first` up to `i` are reserved. -/
structure Reserved (map : MemoryMap) (s : PmmState) (first i : Nat) (t : PmmState) : Prop where
  inv : PmmInv map t
  same : SameSpan s t
  eligible : ∀ g, g < s.plan.spanFrames →
    t.isEligible g = if first ≤ g ∧ g < i then false else s.isEligible g
  occupied : ∀ g, g < s.plan.spanFrames →
    t.isOccupied g = if first ≤ g ∧ g < i then true else s.isOccupied g

/-- The loop of `pmm_core_reserve_range`. -/
theorem reserveFrames_spec {first last : Nat} (hlast : last ≤ s.plan.spanFrames)
    (hnot : ∀ g, first ≤ g → g < last → ¬ (s.isEligible g = true ∧ s.isOccupied g = true)) :
    Reserved map s first last (forRange first last reserveFrame s) := by
  have hstart : ∀ i, i ≤ first → Reserved map s first i s := by
    intro i hi
    refine ⟨hinv, SameSpan.refl s, fun g _ => ?_, fun g _ => ?_⟩
    · rw [if_neg (by omega)]
    · rw [if_neg (by omega)]
  by_cases hle : first ≤ last
  · refine forRange_invariant hle (hstart first (le_refl _)) ?_
    intro i t hi1 hi2 ht
    have hi : i < s.plan.spanFrames := by omega
    have hnoti : ¬ (t.isEligible i = true ∧ t.isOccupied i = true) := by
      rw [ht.eligible i hi, ht.occupied i hi, if_neg (by omega), if_neg (by omega)]
      exact hnot i hi1 hi2
    obtain ⟨h1, h2, -, h4⟩ := reserveFrame_spec ht.inv (by rw [ht.same.plan]; exact hi) hnoti
    refine ⟨h1, ht.same.trans h2, fun g hg => ?_, fun g hg => ?_⟩
    · rw [(h4 g (by rw [ht.same.plan]; exact hg)).1, ht.eligible g hg]
      by_cases hgi : g = i
      · rw [if_pos hgi, if_pos (by omega)]
      · rw [if_neg hgi]
        exact if_congr (by omega) rfl rfl
    · rw [(h4 g (by rw [ht.same.plan]; exact hg)).2, ht.occupied g hg]
      by_cases hgi : g = i
      · rw [if_pos hgi, if_pos (by omega)]
      · rw [if_neg hgi]
        exact if_congr (by omega) rfl rfl
  · rw [forRange_of_le (by omega)]
    exact hstart last (by omega)

end Reserve

end Utamo.Pmm
