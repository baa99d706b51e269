import Utamo.Heap.Release

/-!
# The operations of the heap interface

`heap_core_init`, `heap_core_alloc`, `heap_core_calloc`, `heap_core_free` and `heap_core_realloc`
on a heap that satisfies the invariant: each returns, keeps the invariant, and changes at most the
used block passed to it and the one it returns.
-/

set_option autoImplicit false

namespace Utamo.Heap

open Lib Lib.ByteMemory

variable {γ : Type} {h h' : HeapCore γ} {bs bs' xs ys : List Block} {b : Block}
  {o size needed pointer : Nat} {c : Block} {h1 : HeapCore γ}

/-! ## Initialisation -/

/-- A successful `heap_core_init` leaves one free block. -/
theorem heapCoreInit_spec {base initialSize maxSize growthSize : Nat} {debugPoison : Bool}
    {ops : HeapOps γ}
    (hinit : heapCoreInit h base initialSize maxSize growthSize debugPoison ops = some h') :
    HeapInv h' [⟨initialSize, false, true, 0⟩] ∧ Poisoned h' [⟨initialSize, false, true, 0⟩] := by
  unfold heapCoreInit at hinit
  split at hinit
  · cases hinit
  rename_i hguard
  simp only [not_or, not_lt, not_not] at hguard
  obtain ⟨-, hbase, halign, hmin, hmax, hgrow, hsizes, hroom⟩ := hguard
  simp only [Option.some.injEq] at hinit
  obtain ⟨h0, hh0⟩ : ∃ g : HeapCore γ, g =
      { base, mappedSize := initialSize, maxSize, growthSize, freeHead := 0, ops,
        usedBytes := 0, liveAllocations := 0, allocations := 0, frees := 0, peakUsage := 0,
        failedAllocations := 0, invalidFrees := 0, debugPoison, initialized := true,
        memory := h.memory } := ⟨_, rfl⟩
  have hc0 : Context h0 := by
    rw [hh0]
    exact contextValid_iff.1 (decide_eq_true ⟨rfl, hbase, halign, hmin, hmax, hroom, hgrow, hsizes⟩)
  have hmapped : h0.mappedSize = initialSize := by rw [hh0]
  have hge := hc0.mapped_ge
  have hal := hc0.mapped_align
  have hlt : initialSize + 1 < 2 ^ 64 := by
    have h1 := hc0.mapped_le
    have h2 := hc0.max_le
    have h4 := hc0.base_align
    simp only [uint64Max] at h2
    omega
  rw [hmapped] at hge hal
  obtain ⟨h1, hh1⟩ : ∃ g, g = writeBlock h0 0 initialSize 0 0 false := ⟨_, rfl⟩
  have hs1 : SameState h0 h1 := hh1 ▸ writeBlock_same _ _ _ _ _
  have hhead1 : h1.freeHead = 0 := by rw [hh1, writeBlock_freeHead, hh0]
  have hw : HeaderIs (readField h1 0) (blockCookie h0 0) 0 heapNone heapNone
      ⟨initialSize, false, false, 0⟩ :=
    hh1 ▸ writeBlock_header hc0 hal hlt (by decide) (by decide) (by decide)
  have ht1 : Tiled h1 [⟨initialSize, false, true, 0⟩] := by
    refine ⟨hs1.context hc0, ⟨?_, trivial⟩, ?_, ?_, by simpa using hge, by simpa using hal⟩
    · rw [hs1.blockCookie]
      -- The only block of the list has no neighbours, linked or not.
      exact ⟨hw.sizeFlags, hw.prevSize, hw.requested, by simpa using hw.freePrev,
        by simpa [firstLinked] using hw.freeNext, hw.cookie⟩
    · rw [hs1.mappedSize, hmapped]
      simp
    · rw [hhead1]
      rfl
  have hcount : h1.usedBytes = 0 ∧ h1.liveAllocations = 0 ∧ h1.debugPoison = debugPoison := by
    rw [hs1.usedBytes, hs1.liveAllocations, hs1.debugPoison, hh0]
    exact ⟨rfl, rfl, rfl⟩
  rw [← hh0, ← hh1] at hinit
  have hm : SameState h1 h' ∧ h'.freeHead = h1.freeHead ∧ SameOutside h1 h' 48 initialSize := by
    rw [← hinit]
    split
    · exact ⟨fillArena_same _ _ _, rfl, fillArena_sameOutside (by simp [headerSize])
        (by simp only [headerSize]; omega)⟩
    · exact ⟨SameState.refl _, rfl, fun _ _ => rfl⟩
  have ht' : Tiled h' [⟨initialSize, false, true, 0⟩] :=
    tiled_payload ht1 hm.1 hm.2.1 (o := 0) (b := ⟨initialSize, false, true, 0⟩) (by simp [place])
      (by simpa using hm.2.2)
  refine ⟨⟨ht', ?_, ⟨by rintro ⟨⟩, trivial⟩, ?_, ?_, ?_⟩, ?_⟩
  · simp only [List.mem_singleton, forall_eq]
    exact blockOk_free _
  · rw [hm.1.usedBytes, hcount.1]
    rfl
  · rw [hm.1.liveAllocations, hcount.2.1]
    rfl
  · exact Nat.zero_le _
  · intro hflag o c hc _ a hlo hhi
    rw [hm.1.debugPoison, hcount.2.2] at hflag
    simp only [place, List.mem_singleton, Prod.mk.injEq] at hc
    obtain ⟨rfl, rfl⟩ := hc
    rw [hm.1.base] at hlo hhi
    rw [← hinit, if_pos hflag]
    exact memset_of_inside (by simp only [headerSize]; omega)
      (by simp only [headerSize] at hhi ⊢; omega)

/-! ## Allocation -/

theorem failedAllocation_eq (hc : Context h) : failedAllocation h =
    { h with failedAllocations := increment h.failedAllocations } := by
  unfold failedAllocation
  rw [if_pos hc.initialized]

/-- A change of the failure counter and the callback context. -/
theorem HeapInv.of_failed (hi : HeapInv h bs)
    (heq : h' = { h with ops := h'.ops, failedAllocations := h'.failedAllocations }) :
    HeapInv h' bs := by
  rw [heq]
  exact hi.of_sameArena ⟨rfl, rfl, rfl, rfl, rfl, rfl, rfl⟩ ⟨rfl, rfl, rfl⟩

theorem allocOutcome_failed {requested : Nat} (hi : HeapInv h bs)
    (heq : h' = { h with ops := h'.ops, failedAllocations := h'.failedAllocations }) :
    AllocOutcome h bs requested h' 0 bs :=
  ⟨hi.of_failed heq, fun _ => ⟨rfl, heq⟩, fun h0 => absurd rfl h0⟩

/-- `heap_core_alloc` returns. A request fails exactly if its size overflows, or no block fits and
the heap cannot grow. -/
theorem heapCoreAlloc_spec (hi : HeapInv h bs) (size : Nat) :
    ∃ h' pointer bs', heapCoreAlloc h size = some (h', pointer) ∧
      AllocOutcome h bs size h' pointer bs' ∧ (0 < size →
        (pointer = 0 ↔ uint64Max < size + 63 ∨
          (NoFit bs (roundedSize size) ∧ ¬ CanGrow h bs (roundedSize size))) ∧
        (size + 63 ≤ uint64Max → ¬ NoFit bs (roundedSize size) → h'.ops = h.ops)) := by
  have hfail : AllocOutcome h bs size (failedAllocation h) 0 bs :=
    allocOutcome_failed hi (by rw [failedAllocation_eq hi.tiled.context])
  unfold heapCoreAlloc
  by_cases hsize : size = 0
  · rw [if_pos hsize]
    exact ⟨h, 0, bs, rfl, allocOutcome_failed hi rfl, fun hpos => by omega⟩
  rw [if_neg hsize]
  simp only [heapCoreValidate_of_inv hi, Option.bind_eq_bind, Option.bind_some, Option.pure_def]
  rw [if_neg (by simp)]
  have hreq := requiredSize_eq (Nat.pos_of_ne_zero hsize)
  by_cases hover : uint64Max < size + 63
  · rw [if_pos hover] at hreq
    rw [hreq]
    exact ⟨_, 0, bs, rfl, hfail, fun _ => ⟨iff_of_true rfl (Or.inl hover), fun hle => by omega⟩⟩
  rw [if_neg hover] at hreq
  rw [hreq, or_iff_right hover]
  obtain ⟨h1, pointer, bs1, halloc, hout, hnull, hops⟩ :=
    allocate_spec hi (requiredSize_rounded hreq) true
  simp only [halloc, Option.bind_some]
  by_cases hp : pointer = 0
  · obtain ⟨rfl, heq⟩ := hout.failed hp
    rw [if_pos hp, hp]
    rw [hp] at hnull
    refine ⟨_, 0, _, rfl, allocOutcome_failed hi ?_, fun _ => ⟨hnull rfl, fun _ hfit => ?_⟩⟩
    · rw [failedAllocation_eq hout.inv.tiled.context, heq]
    · rw [failedAllocation_eq hout.inv.tiled.context]
      exact hops hfit
  · rw [if_neg hp]
    exact ⟨h1, pointer, bs1, rfl, hout, fun _ => ⟨hnull rfl, fun _ => hops⟩⟩

/-- A used block fits its request. -/
theorem HeapInv.fits (hi : HeapInv h bs) (hc : UsedAt bs o c) :
    0 < c.requested ∧ c.requested + 48 ≤ c.size :=
  (hi.ok c (mem_of_place hc.1)).used_request hc.2

theorem HeapInv.write_payload (hi : HeapInv h bs) (hc : UsedAt bs o c)
    (hs : SameState h h') (hhead : h'.freeHead = h.freeHead)
    (hm : SameOutside h h' (o + 48) (o + c.size)) :
    HeapInv h' bs ∧ Evolves (· = o) h bs h' bs := by
  obtain ⟨xs, ys, rfl, rfl⟩ := mem_place_iff.1 hc.1
  rw [Nat.zero_add] at hm ⊢
  exact hi.payload hc.2 hs hhead hm

theorem heapCoreCalloc_spec (hi : HeapInv h bs) (count size : Nat) :
    ∃ h' pointer bs', heapCoreCalloc h count size = some (h', pointer) ∧
      AllocOutcome h bs (count * size) h' pointer bs' := by
  unfold heapCoreCalloc
  by_cases hzero : count = 0 ∨ size = 0
  · rw [if_pos hzero]
    exact ⟨h, 0, bs, rfl, allocOutcome_failed hi rfl⟩
  rw [if_neg hzero]
  by_cases hover : uint64Max / size < count
  · rw [if_pos hover]
    exact ⟨_, 0, bs, rfl, allocOutcome_failed hi (by rw [failedAllocation_eq hi.tiled.context])⟩
  rw [if_neg hover]
  obtain ⟨h1, pointer, bs1, halloc, hout, -⟩ := heapCoreAlloc_spec hi (count * size)
  simp only [halloc, Option.bind_eq_bind, Option.bind_some, Option.pure_def]
  by_cases hp : pointer = 0
  · rw [if_neg (by simpa using hp)]
    exact ⟨h1, pointer, bs1, rfl, hout⟩
  rw [if_pos hp]
  obtain ⟨o, c, hpo, hc, hreq, hfresh, hev⟩ := hout.placed hp
  obtain ⟨-, hfits⟩ := hout.inv.fits hc
  obtain ⟨h2, hh2⟩ : ∃ g, g = { h1 with memory := memset h1.memory pointer 0 (count * size) } :=
    ⟨_, rfl⟩
  have hm : SameOutside h1 h2 (o + 48) (o + c.size) := by
    intro a ha
    rw [hev.base] at ha
    rw [hh2]
    exact memset_of_outside (by omega)
  obtain ⟨hi2, hev2⟩ := hout.inv.write_payload hc (hh2 ▸ ⟨rfl⟩) (by rw [hh2]) hm
  exact ⟨h2, pointer, bs1, by rw [hh2], hi2, fun h0 => absurd h0 hp,
    fun _ => ⟨o, c, hpo, hc, hreq, hfresh, hev.trans hev2⟩⟩

/-! ## Release -/

/-- The outcome of `heap_core_free`. -/
inductive FreeOutcome (h : HeapCore γ) (bs : List Block) (pointer : Nat) :
    HeapCore γ → Bool → List Block → Prop
  | null : pointer = 0 → FreeOutcome h bs pointer h true bs
  | freed {h' : HeapCore γ} {bs' : List Block} {o : Nat} {b : Block} :
      IsPayload h bs pointer o b → HeapInv h' bs' → Evolves (· = o) h bs h' bs' →
      (∀ d, ¬ UsedAt bs' o d) → FreeOutcome h bs pointer h' true bs'
  | rejected : pointer ≠ 0 → (∀ o b, ¬ IsPayload h bs pointer o b) →
      FreeOutcome h bs pointer { h with invalidFrees := increment h.invalidFrees } false bs

theorem heapCoreFree_spec (hi : HeapInv h bs) (pointer : Nat) :
    ∃ h' r bs', heapCoreFree h pointer = some (h', r) ∧ FreeOutcome h bs pointer h' r bs' := by
  unfold heapCoreFree
  by_cases hp : pointer = 0
  · rw [if_pos hp]
    exact ⟨h, true, bs, rfl, FreeOutcome.null hp⟩
  rw [if_neg hp]
  simp only [heapCoreValidate_of_inv hi, Option.bind_eq_bind, Option.bind_some, Option.pure_def]
  rw [if_neg (by simp)]
  rcases pointerOffset_spec hi.tiled pointer with ⟨o, b, hpay, hoff⟩ | ⟨hnone, hoff⟩
  · have hne : o ≠ heapNone := by
      have := (hi.tiled.place_le hpay.1).2.2
      omega
    simp only [hoff, Option.bind_some]
    rw [if_neg hne]
    obtain ⟨xs, ys, rfl, ho⟩ := mem_place_iff.1 hpay.1
    rw [Nat.zero_add] at ho
    rw [ho] at hpay ⊢
    obtain ⟨h1, bs1, hrel, hi1, hev, hgone⟩ := release_spec hi hpay.2.1
    rw [hrel]
    exact ⟨h1, true, bs1, rfl, FreeOutcome.freed hpay hi1 hev hgone⟩
  · simp only [hoff, Option.bind_some, if_true]
    exact ⟨_, false, bs, rfl, FreeOutcome.rejected hp hnone⟩

/-! ## Resizing -/

/-- The outcome of `heap_core_realloc` for a pointer that is not `NULL` and a size that is not
zero. -/
inductive ReallocOutcome (h : HeapCore γ) (bs : List Block) (pointer size : Nat) :
    HeapCore γ → Nat → List Block → Prop
  | failed {h' : HeapCore γ} :
      h' = { h with ops := h'.ops, failedAllocations := h'.failedAllocations } →
      ReallocOutcome h bs pointer size h' 0 bs
  | resized {h' : HeapCore γ} {bs' : List Block} {o : Nat} {b c : Block} :
      IsPayload h bs pointer o b → HeapInv h' bs' → Evolves (· = o) h bs h' bs' →
      UsedAt bs' o c → c.requested = size →
      (∀ i, i < min b.requested size → h'.memory (pointer + i) = h.memory (pointer + i)) →
      ReallocOutcome h bs pointer size h' pointer bs'
  | moved {h' : HeapCore γ} {bs' : List Block} {o o' replacement : Nat} {b c : Block} :
      IsPayload h bs pointer o b → HeapInv h' bs' → Evolves (fun x => x = o ∨ x = o') h bs h' bs' →
      replacement = h.base + o' + 48 → (∀ d, ¬ UsedAt bs o' d) → UsedAt bs' o' c →
      c.requested = size → (∀ d, ¬ UsedAt bs' o d) →
      (∀ i, i < min b.requested size → h'.memory (replacement + i) = h.memory (pointer + i)) →
      ReallocOutcome h bs pointer size h' replacement bs'

theorem usedAt_unique {b : Block} (ht : Tiled h bs) (hb : UsedAt bs o b)
    (hc : UsedAt bs o c) : b = c := by
  have h1 := (ht.place_le hb.1).2.1
  have h2 := (ht.place_le hc.1).2.1
  rcases place_apart hb.1 hc.1 with ⟨-, heq⟩ | hsep | hsep
  · exact heq
  · omega
  · omega

/-- `resize_block` as the end of `heap_core_realloc`. -/
theorem resizeBlock_outcome {b0 : Block}
    (hpay : IsPayload h bs pointer (span xs) b0) (hi1 : HeapInv h1 (xs ++ b :: ys))
    (hev1 : Evolves (· = span xs) h bs h1 (xs ++ b :: ys)) (hu : b.used = true)
    (hreq : b.requested = b0.requested) (hr : Rounded size needed) (hle : needed ≤ b.size)
    (hm1 : ∀ i, i < b0.requested → h1.memory (pointer + i) = h.memory (pointer + i)) :
    ∃ h' bs', (do let g ← resizeBlock h1 (span xs) size needed
                  some (g, pointer)) = some (h', pointer) ∧
      ReallocOutcome h bs pointer size h' pointer bs' := by
  obtain ⟨h2, hres, hi2, hev2, hm2⟩ := resizeBlock_spec hi1 hu hr hle
  refine ⟨h2, _, by rw [hres]; rfl, ReallocOutcome.resized hpay hi2 (hev1.trans hev2)
    (usedAt_trimmed hu) rfl fun i hlt => ?_⟩
  have hp := hpay.2.2
  simp only [headerSize] at hp
  rw [hm2 (pointer + i) (by rw [hev1.base]; omega) (by rw [hev1.base, hreq]; omega),
    hm1 i (by omega)]

/-- The copy to the replacement and the release of the old block. -/
theorem moveBlock_spec {bs1 : List Block} {replacement : Nat}
    (hi : HeapInv h bs) (hpay : IsPayload h bs pointer o b)
    (hout : AllocOutcome h bs size h1 replacement bs1) :
    ∃ h' q bs', moveBlock h1 pointer o size replacement = some (h', q) ∧
      ReallocOutcome h bs pointer size h' q bs' := by
  unfold moveBlock
  by_cases hrep : replacement = 0
  · rw [if_pos hrep]
    obtain ⟨rfl, heq⟩ := hout.failed hrep
    refine ⟨_, 0, _, rfl, ReallocOutcome.failed ?_⟩
    rw [failedAllocation_eq hout.inv.tiled.context, heq]
  rw [if_neg hrep]
  obtain ⟨o', c, hpo, hc, hcreq, hfresh, hev⟩ := hout.placed hrep
  have hb : UsedAt bs o b := ⟨hpay.1, hpay.2.1⟩
  have hne : o ≠ o' := by
    rintro rfl
    exact hfresh b hb
  have hb1 : UsedAt bs1 o b := (hev.used o b hne).2 hb
  have hp := hpay.2.2
  simp only [headerSize] at hp
  -- Both payloads lie inside their blocks, and the blocks are apart.
  obtain ⟨-, hbfits⟩ := hi.fits hb
  obtain ⟨-, hcfits⟩ := hout.inv.fits hc
  have hapart : o + b.size ≤ o' ∨ o' + c.size ≤ o := by
    rcases place_apart hb1.1 hc.1 with ⟨heq, -⟩ | hsep | hsep
    · exact absurd heq hne
    · exact Or.inl hsep
    · exact Or.inr hsep
  obtain ⟨xs, ys, hsplit, ho⟩ := mem_place_iff.1 hb1.1
  rw [Nat.zero_add] at ho
  have hread : readField h1 o .requested = b.requested := by
    rw [ho]
    exact Tiled.header (hsplit ▸ hout.inv.tiled) |>.requested
  have hcopy : (if b.requested < size then b.requested else size) = min b.requested size := by
    split <;> omega
  simp only [hread, hcopy]
  obtain ⟨h2, hh2⟩ : ∃ g, g = { h1 with
    memory := memcpy h1.memory replacement pointer (min b.requested size) } := ⟨_, rfl⟩
  have hm2 : SameOutside h1 h2 (o' + 48) (o' + c.size) := by
    intro a ha
    rw [hev.base] at ha
    rw [hh2]
    exact memcpy_of_outside (by omega)
  obtain ⟨hi2, hev2⟩ := hout.inv.write_payload hc (hh2 ▸ ⟨rfl⟩) (by rw [hh2]) hm2
  rw [hsplit] at hi2
  obtain ⟨h3, bs3, hrel, hi3, hev3, hgone⟩ := release_spec hi2 hb1.2
  rw [← ho] at hrel hev3 hgone
  rw [← hsplit] at hev3
  have hbase12 : h2.base = h.base := by rw [hev2.base, hev.base]
  refine ⟨h3, replacement, bs3, ?_, ReallocOutcome.moved hpay hi3 ?_ hpo hfresh
    ((hev3.used o' c (Ne.symm hne)).2 hc) hcreq hgone ?_⟩
  · simp only [← hh2, hrel, Option.bind_eq_bind, Option.bind_some, Option.pure_def]
  · exact ((hev.mono fun x hx => Or.inr hx).trans (hev2.mono fun x hx => Or.inr hx)).trans
      (hev3.mono fun x hx => Or.inl hx)
  · intro i hlt
    rw [hev3.bytes o' c (Ne.symm hne) hc (replacement + i) (by omega) (by omega), hh2]
    show memcpy h1.memory replacement pointer (min b.requested size) (replacement + i) = _
    rw [memcpy_apply (by omega) hlt, hev.bytes o b hne hb (pointer + i) (by omega) (by omega)]

theorem eq_nil_of_span (hge : ∀ c ∈ ys, 64 ≤ c.size) (hspan : span ys = 0) : ys = [] := by
  cases ys with
  | nil => rfl
  | cons c ys =>
    have := hge c (by simp)
    rw [span_cons] at hspan
    omega

/-- A block at the tail has at most a free block behind it. -/
theorem atTail_spec (ht : Tiled h (xs ++ b :: ys)) (htail : atTail h (span xs) b.size = true) :
    ys = [] ∨ ∃ c, ys = [c] ∧ c.used = false := by
  have hspan := ht.span_eq
  have hge : ∀ c ∈ ys, 64 ≤ c.size := fun c hc => ht.size_ge c (by simp [hc])
  simp only [span_append, span_cons] at hspan
  simp only [atTail, decide_eq_true_eq] at htail
  rcases htail with hend | ⟨hun, hend⟩
  · exact Or.inl (eq_nil_of_span hge (by omega))
  · cases ys with
    | nil => exact Or.inl rfl
    | cons c rest =>
      have ht' : Tiled h ((xs ++ [b]) ++ c :: rest) := by simpa using ht
      have hnext : span (xs ++ [b]) = span xs + b.size := by simp
      have hcs := ht'.blockSize_eq
      have hcu := ht'.blockUsed_eq
      rw [hnext] at hcs hcu
      rw [hcs] at hend
      rw [hcu] at hun
      rw [span_cons] at hspan
      have hrest : rest = [] :=
        eq_nil_of_span (fun d hd => hge d (by simp [hd])) (by omega)
      rw [hrest]
      exact Or.inr ⟨c, rfl, by simpa using hun⟩

/-- After growth the block at the tail is followed by the free block that ends the arena. -/
theorem grown_at_tail {bs1 : List Block}
    (htail : ys = [] ∨ ∃ c, ys = [c] ∧ c.used = false) (hu : b.used = true)
    (hout : GrowOutcome h (xs ++ b :: ys) needed h1 true bs1) :
    ∃ c, bs1 = xs ++ b :: [c] ∧ c.used = false ∧ needed ≤ c.size := by
  obtain ⟨ws, c, rfl, hcu, hcs, hws⟩ := hout.granted rfl
  refine ⟨c, ?_, hcu, hcs⟩
  rcases hws with hws | ⟨t, hws, htu⟩
  · rcases htail with rfl | ⟨d, rfl, hdu⟩
    · rw [← hws]
      simp
    · -- Two free neighbours would not be merged.
      have hco := hout.inv.coalesced
      have hlist : ws ++ [c] = (xs ++ [b]) ++ (d :: [c]) := by simp [← hws]
      rw [hlist] at hco
      have := (coalesced_append.1 hco).2.2.1 (by rw [hdu]; rfl)
      rw [hcu] at this
      cases this
  · rcases htail with rfl | ⟨d, rfl, hdu⟩
    · have hbt := List.append_inj_right' hws rfl
      rw [List.cons.injEq] at hbt
      rw [hbt.1, htu] at hu
      cases hu
    · have hlist : (xs ++ [b]) ++ [d] = ws ++ [t] := by simpa using hws
      have hws' := List.append_inj_left' hlist rfl
      rw [← hws']
      simp

theorem AllocOutcome.of_failed
    (heq : h1 = { h with ops := h1.ops, failedAllocations := h1.failedAllocations })
    (hout : AllocOutcome h1 bs size h' pointer bs') : AllocOutcome h bs size h' pointer bs' := by
  refine ⟨hout.inv, fun hp => ?_, fun hp => ?_⟩
  · obtain ⟨hbs, heq'⟩ := hout.failed hp
    exact ⟨hbs, by rw [heq', heq]⟩
  · obtain ⟨o, c, hpo, hc, hreq, hfresh, hev⟩ := hout.placed hp
    refine ⟨o, c, by rw [hpo, heq], hc, hreq, hfresh, Evolves.trans ?_ hev⟩
    exact Evolves.of_memory_eq (by rw [heq]) (by rw [heq]) (by rw [heq])

/-- The last part of `heap_core_realloc`, when the block can neither stay nor take its
neighbour. -/
theorem reallocElsewhere_spec (hi : HeapInv h (xs ++ b :: ys))
    (hpay : IsPayload h (xs ++ b :: ys) pointer (span xs) b) (hr : Rounded size needed)
    (hlt : b.size < needed) :
    ∃ h' q bs', reallocElsewhere h pointer (span xs) size needed b.size = some (h', q) ∧
      ReallocOutcome h (xs ++ b :: ys) pointer size h' q bs' := by
  have hu := hpay.2.1
  obtain ⟨h1, replacement, bs1, halloc, hout, -⟩ := allocate_spec hi hr false
  simp only [reallocElsewhere, halloc, Option.bind_eq_bind, Option.bind_some, Option.pure_def]
  by_cases hrep : replacement = 0
  case neg =>
    rw [if_pos hrep]
    exact moveBlock_spec hi hpay hout
  rw [if_neg (by simpa using hrep)]
  obtain ⟨rfl, heq1⟩ := hout.failed hrep
  have hi1 := hout.inv
  have hev1 : Evolves (· = span xs) h (xs ++ b :: ys) h1 (xs ++ b :: ys) :=
    Evolves.of_memory_eq (by rw [heq1]) (by rw [heq1]) (by rw [heq1])
  by_cases htail : atTail h1 (span xs) b.size = true
  · rw [if_pos htail]
    obtain ⟨h2, r, bs2, hgrow, hgout, -⟩ := growHeap_spec hi1 (needed - b.size)
    simp only [hgrow, Option.bind_some]
    cases r with
    | false =>
      obtain ⟨rfl, heq2⟩ := hgout.refused rfl
      rw [if_neg (by simp)]
      exact moveBlock_spec hi hpay (allocOutcome_failed hi (by rw [heq2, heq1]))
    | true =>
      rw [if_pos rfl]
      obtain ⟨c, rfl, hcu, hcs⟩ := grown_at_tail (atTail_spec hi1.tiled htail) hu hgout
      have hev2 := hev1.trans (hgout.evolves.mono nofun)
      rcases consumeNext_spec hgout.inv hu hlt with
        ⟨-, hno⟩ | ⟨h3, size3, rest, hcons, hle3, hi3, hev3, hm3⟩
      · exact absurd ⟨c, [], rfl, hcu, by omega⟩ hno
      · simp only [hcons, if_true]
        obtain ⟨-, hfits⟩ := hi.fits ⟨hpay.1, hu⟩
        have hp := hpay.2.2
        simp only [headerSize] at hp
        obtain ⟨h4, bs4, hres, hout4⟩ :=
          resizeBlock_outcome hpay hi3 (hev2.trans hev3) hu rfl hr hle3
          fun i hlt' => by
            rw [hm3 (pointer + i) (by rw [hev2.base]; omega) (by rw [hev2.base]; omega),
              hgout.evolves.bytes (span xs) b id ⟨place_mid xs ys b, hu⟩ (pointer + i)
                (by rw [hev1.base]; omega) (by rw [hev1.base]; omega), heq1]
        exact ⟨h4, pointer, bs4, hres, hout4⟩
  · rw [if_neg htail]
    obtain ⟨h2, replacement2, bs2, halloc2, hout2, -⟩ := allocate_spec hi1 hr true
    simp only [halloc2, Option.bind_some]
    exact moveBlock_spec hi hpay (hout2.of_failed heq1)

theorem heapCoreRealloc_spec (hi : HeapInv h bs) (hp : pointer ≠ 0)
    (hsize : size ≠ 0) :
    ∃ h' q bs', heapCoreRealloc h pointer size = some (h', q) ∧
      ReallocOutcome h bs pointer size h' q bs' := by
  have hfail : ∃ h' q bs', some (failedAllocation h, 0) = some (h', q) ∧
      ReallocOutcome h bs pointer size h' q bs' :=
    ⟨_, 0, bs, rfl, ReallocOutcome.failed (by rw [failedAllocation_eq hi.tiled.context])⟩
  unfold heapCoreRealloc
  rw [if_neg hp, if_neg hsize]
  simp only [heapCoreValidate_of_inv hi, Option.bind_eq_bind, Option.bind_some, Option.pure_def]
  rw [if_neg (by simp)]
  cases hreq : requiredSize size with
  | none => exact hfail
  | some needed =>
    have hr := requiredSize_rounded hreq
    rcases pointerOffset_spec hi.tiled pointer with ⟨o, b, hpay, hoff⟩ | ⟨-, hoff⟩
    · have hne : o ≠ heapNone := by
        have := (hi.tiled.place_le hpay.1).2.2
        omega
      obtain ⟨xs, ys, rfl, ho⟩ := mem_place_iff.1 hpay.1
      rw [Nat.zero_add] at ho
      subst ho
      have hu := hpay.2.1
      simp only [hoff, Option.bind_some]
      rw [if_neg hne, hi.tiled.blockSize_eq]
      by_cases hle : needed ≤ b.size
      · rw [if_pos hle]
        obtain ⟨h1, bs1, hres, hout⟩ := resizeBlock_outcome hpay hi (Evolves.refl _ _) hu rfl hr hle
          fun _ _ => rfl
        exact ⟨h1, pointer, bs1, hres, hout⟩
      rw [if_neg hle]
      have hlt : b.size < needed := by omega
      rcases consumeNext_spec hi hu hlt with ⟨hcons, -⟩ |
        ⟨h1, size1, rest, hcons, hle1, hi1, hev1, hm1⟩
      · simp only [hcons]
        rw [if_neg (by simp)]
        exact reallocElsewhere_spec hi hpay hr hlt
      · simp only [hcons, if_true]
        obtain ⟨-, hfits⟩ := hi.fits ⟨hpay.1, hu⟩
        have hpo := hpay.2.2
        simp only [headerSize] at hpo
        obtain ⟨h2, bs2, hres, hout⟩ := resizeBlock_outcome hpay hi1 hev1 hu rfl hr hle1
          fun i hlt' => hm1 (pointer + i) (by omega) (by omega)
        exact ⟨h2, pointer, bs2, hres, hout⟩
    · simp only [hoff, Option.bind_some, if_true]
      exact hfail

end Utamo.Heap
