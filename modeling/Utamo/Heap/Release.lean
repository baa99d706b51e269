import Utamo.Heap.Operations

/-!
# Release and resizing

`release` merges a block with its free neighbours: what `absorbPrevious` and `absorbNext` take out
of the free list becomes one gap together with the block, and the gap becomes one free block.
`consume_next` and `resize_block` change a used block in place; the bytes below the smaller of the
old and the new request stay.
-/

set_option autoImplicit false

namespace Utamo.Heap

open Lib Lib.ByteMemory

variable {γ : Type} {h h' : HeapCore γ} {bs xs ys : List Block} {b : Block}

/-! ## Absorbing a free block in front -/

/-- Blocks taken out of the free list. -/
def detached (bs : List Block) : List Block := bs.map fun c => { c with linked := false }

theorem span_detached (bs : List Block) : span (detached bs) = span bs := by
  induction bs with
  | nil => rfl
  | cons c bs ih =>
    rw [detached] at ih ⊢
    rw [List.map_cons, span_cons, span_cons, ih]

theorem mem_place_detached {off o : Nat} {c : Block} (hc : (o, c) ∈ place off (detached bs)) :
    ∃ d, (o, d) ∈ place off bs := by
  induction bs generalizing off with
  | nil => simp [detached, place] at hc
  | cons d bs ih =>
    simp only [detached, List.map_cons, place, List.mem_cons, Prod.mk.injEq] at hc ih ⊢
    rcases hc with ⟨ho, -⟩ | hc
    · exact ⟨d, Or.inl ⟨ho, rfl⟩⟩
    · obtain ⟨e, he⟩ := ih hc
      exact ⟨e, Or.inr he⟩

/-- `xs` is `pre` and behind it the free block, if any, that a block behind `xs` merges with. -/
structure TrailSplit (xs pre tl : List Block) : Prop where
  eq : xs = pre ++ tl
  unused : ∀ c ∈ tl, c.used = false
  maximal : lastFree false pre = false

theorem trailSplit (hco : Coalesced false xs) :
    TrailSplit xs xs [] ∨ ∃ pre f, f.used = false ∧ TrailSplit xs pre [f] := by
  rcases List.eq_nil_or_concat xs with rfl | ⟨pre, f, rfl⟩
  · exact Or.inl ⟨rfl, nofun, rfl⟩
  · rw [List.concat_eq_append] at hco ⊢
    cases hu : f.used with
    | true =>
      refine Or.inl ⟨by simp, nofun, ?_⟩
      rw [lastFree_append, lastFree, hu]
      rfl
    | false =>
      refine Or.inr ⟨pre, f, hu, rfl, by simp [hu], ?_⟩
      cases hf : lastFree false pre with
      | false => rfl
      | true =>
        have := (coalesced_append.1 hco).2.1 hf
        rw [hu] at this
        cases this

theorem absorbPrevious_spec (ht : Tiled h (xs ++ b :: ys)) (hco : Coalesced false xs)
    (hlink : ∀ c ∈ xs, c.linked = !c.used) :
    ∃ pre tl h1, TrailSplit xs pre tl ∧
      absorbPrevious h (span xs) b.size (lastSize 0 xs) =
        (h1, span pre, b.size + span tl, lastSize 0 pre) ∧
      Tiled h1 (pre ++ (detached tl ++ b :: ys)) ∧ SameState h h1 ∧
      ∀ a, OutsideHeaders h (xs ++ b :: ys) a → h1.memory a = h.memory a := by
  rcases trailSplit hco with hsplit | ⟨pre, f, hu, hsplit⟩
  · refine ⟨xs, [], h, hsplit, ?_, ht, SameState.refl h, fun _ _ => rfl⟩
    unfold absorbPrevious
    rw [if_neg]
    · simp
    · rintro ⟨hne, hun⟩
      -- The block in front exists and is used, so there is nothing to absorb.
      rcases List.eq_nil_or_concat xs with rfl | ⟨pre, f, rfl⟩
      · exact hne rfl
      · rw [List.concat_eq_append] at ht hun hsplit
        have ht' : Tiled h (pre ++ f :: (b :: ys)) := by simpa using ht
        have hlast : lastSize 0 (pre ++ [f]) = f.size := by
          rw [lastSize_append]
          rfl
        have hoff : span (pre ++ [f]) - f.size = span pre := by simp
        have hmax := hsplit.maximal
        rw [hlast, hoff, ht'.blockUsed_eq] at hun
        rw [lastFree_append, lastFree, lastFree] at hmax
        exact hun (by simpa using hmax)
  · obtain ⟨rfl, -, -⟩ := id hsplit
    have ht' : Tiled h (pre ++ f :: (b :: ys)) := by simpa using ht
    have hl : f.linked = true := by rw [hlink f (by simp), hu]; rfl
    have hge := ht'.size_ge f (by simp)
    have hlast : lastSize 0 (pre ++ [f]) = f.size := by
      rw [lastSize_append]
      rfl
    have hoff : span (pre ++ [f]) - f.size = span pre := by simp
    have ht1 := removeFree_tiled ht' hl
    refine ⟨pre, [f], removeFree h (span pre), hsplit, ?_, ht1, removeFree_same _, ?_⟩
    · unfold absorbPrevious
      rw [hlast, hoff, ht'.blockUsed_eq, hu, if_pos ⟨by omega, by simp⟩]
      simp only [ht1.header.prevSize, span_cons, span_nil, Nat.add_zero]
    · intro a ha
      exact removeFree_memory ht' hl (by simpa using ha)

/-! ## `release` -/

/-- The part of `release` after the counters. -/
theorem merge_spec (ht : Tiled h (xs ++ b :: ys)) (hco : Coalesced false xs)
    (hlink : ∀ c ∈ xs ++ b :: ys, c.linked = !c.used) (hu : b.used = true) :
    ∃ pre tl h1 h2 size h', TrailSplit xs pre tl ∧
      absorbPrevious h (span xs) b.size (lastSize 0 xs) =
        (h1, span pre, b.size + span tl, lastSize 0 pre) ∧
      absorbNext h1 (span pre + (b.size + span tl)) (b.size + span tl) = (h2, size) ∧
      makeFree h2 (span pre) size (lastSize 0 pre) = some h' ∧
      Tiled h' (pre ++ (⟨size, false, true, 0⟩ :: dropLead ys)) ∧ SameState h h' ∧
      Evolves (· = span xs) h (xs ++ b :: ys) h' (pre ++ (⟨size, false, true, 0⟩ :: dropLead ys)) ∧
      size = span tl + b.size + leadFree ys := by
  have hl : b.linked = false := by rw [hlink b (by simp), hu]; rfl
  obtain ⟨pre, tl, h1, hsplit, habs1, ht1, hs1, hm1⟩ :=
    absorbPrevious_spec ht hco fun c hc => hlink c (by simp [hc])
  have hbge := ht.size_ge b (by simp)
  -- The free block behind.
  have ht1' : Tiled h1 ((pre ++ detached tl ++ [b]) ++ ys) := by simpa using ht1
  have hnext : span (pre ++ detached tl ++ [b]) = span pre + (b.size + span tl) := by
    simp only [span_append, span_cons, span_nil, span_detached]
    omega
  obtain ⟨h2, habs2, ht2, hs2, hm2⟩ := absorbNext_spec ht1' (fun c hc => hlink c (by simp [hc]))
    (b.size + span tl)
  rw [hnext] at habs2
  -- Together they are a gap.
  have ht2' : Tiled h2 (pre ++ ((detached tl ++ [b] ++ detachedLead ys) ++ dropLead ys)) := by
    simpa using ht2
  have hgap : span (detached tl ++ [b] ++ detachedLead ys) = b.size + span tl + leadFree ys := by
    simp only [span_append, span_cons, span_nil, span_detached, span_detachedLead]
    omega
  have hg := ht2'.gap (by
    intro c hc
    simp only [List.mem_append, List.mem_singleton, detached, List.mem_map] at hc
    rcases hc with (⟨d, -, rfl⟩ | rfl) | hc
    · rfl
    · exact hl
    · exact detachedLead_unlinked ys c hc)
  rw [hgap] at hg
  have hal : (b.size + span tl + leadFree ys) % 16 = 0 := by
    have h1 := ht.size_align b (by simp)
    have h2 : span tl % 16 = 0 := span_align fun c hc => ht.size_align c (by simp [hsplit.eq, hc])
    have h3 : leadFree ys % 16 = 0 := leadFree_align fun c hc => ht.size_align c (by simp [hc])
    omega
  obtain ⟨h3, hmake, ht3, hs3, hm3, hp3⟩ := makeFree_spec hg (by omega) hal (lastSize_lt ht2')
  have hs12 := hs1.trans hs2
  have hs := hs12.trans hs3
  refine ⟨pre, tl, h1, h2, _, h3, hsplit, habs1, habs2, hmake, ht3, hs, ?_, by omega⟩
  have hmid : span (tl ++ [b] ++ lead ys) = b.size + span tl + leadFree ys := by
    simp only [span_append, span_cons, span_nil, span_lead]
    omega
  have hxs : xs ++ b :: ys = pre ++ ((tl ++ [b] ++ lead ys) ++ dropLead ys) := by
    simp [hsplit.eq, lead_append_dropLead]
  have hspan : span xs = span pre + span tl := by rw [hsplit.eq, span_append]
  rw [hxs] at ht hm1 ⊢
  have key : Evolves (· = span xs) h (pre ++ ((tl ++ [b] ++ lead ys) ++ dropLead ys)) h3
      (pre ++ ([⟨b.size + span tl + leadFree ys, false, true, 0⟩] ++ dropLead ys)) := by
    refine evolves_splice ht (Or.inl (by rw [hmid]; simp)) hs.base hs.debugPoison ?_ ?_
      (touchedIn_unused (by simp)) ?_
    · intro a ha hout _
      rw [hmid] at hout
      rw [hm3 a ?_ ?_ (by rw [hs12.base]; exact hout), hm2 a ?_, hm1 a ha]
      · -- Detaching blocks does not move them.
        intro o c hc
        rw [hs1.base]
        have hc' : (o, c) ∈ place 0 (pre ++ (detached tl ++ b :: ys)) := by simpa using hc
        rw [← hxs] at ha
        rw [hsplit.eq, List.append_assoc] at ha
        rw [mem_place_splice, span_detached] at hc'
        rcases hc' with hc | hc | hc
        · exact ha o c (mem_place_splice.2 (Or.inl hc))
        · obtain ⟨d, hd⟩ := mem_place_detached hc
          exact ha o d (mem_place_splice.2 (Or.inr (Or.inl hd)))
        · exact ha o c (mem_place_splice.2 (Or.inr (Or.inr hc)))
      · intro o c hc
        rw [hs12.base]
        exact ha o c (place_left hc _)
      · intro o c hc
        rw [hs12.base]
        refine ha o c (mem_place_splice.2 (Or.inr (Or.inr ?_)))
        rw [hmid]
        exact hc
    · exact ((touchedIn_unused hsplit.unused).append (.cons hspan.symm nofun)).append
        (touchedIn_unused fun _ => lead_unused)
    · intro hflag o c hc _ a hlo hhi
      simp only [place, List.mem_singleton, Prod.mk.injEq] at hc
      rw [hc.1] at hlo hhi
      rw [hc.2] at hhi
      refine hp3 (by rw [hs12.debugPoison]; exact hflag) a ?_ ?_
      · rw [hs12.base]
        exact hlo
      · rw [hs12.base]
        exact hhi
  exact key

theorem not_usedAt_released {pre rest : List Block} {size o : Nat}
    (ht : Tiled h (pre ++ (⟨size, false, true, 0⟩ :: rest))) (hlo : span pre ≤ o)
    (hhi : o < span pre + size) (d : Block) :
    ¬ UsedAt (pre ++ (⟨size, false, true, 0⟩ :: rest)) o d := by
  rintro ⟨hd, hdu⟩
  have hge := (ht.place_le hd).2.1
  rcases place_apart hd (place_mid pre rest ⟨size, false, true, 0⟩) with ⟨-, rfl⟩ | hsep | hsep
  · cases hdu
  · omega
  · simp only at hsep
    omega

/-- `release` makes a used block free and touches no other. -/
theorem release_spec (hi : HeapInv h (xs ++ b :: ys)) (hu : b.used = true) :
    ∃ h' bs', release h (span xs) = some h' ∧ HeapInv h' bs' ∧
      Evolves (· = span xs) h (xs ++ b :: ys) h' bs' ∧ ∀ d, ¬ UsedAt bs' (span xs) d := by
  have hhd := hi.tiled.header
  obtain ⟨h0, hh0⟩ : ∃ g, g = { h with
    usedBytes := subU64 h.usedBytes b.requested
    liveAllocations := subU64 h.liveAllocations 1
    frees := increment h.frees } := ⟨_, rfl⟩
  have ht0 : Tiled h0 (xs ++ b :: ys) :=
    hi.tiled.of_sameArena (by rw [hh0]; exact ⟨rfl, rfl, rfl, rfl, rfl, rfl, rfl⟩)
  have hev0 : Evolves (· = span xs) h (xs ++ b :: ys) h0 (xs ++ b :: ys) := by
    rw [hh0]
    exact Evolves.of_memory_eq rfl rfl rfl
  obtain ⟨hx, hby⟩ := coalesced_append.1 hi.coalesced
  obtain ⟨pre, tl, h1, h2, size, h3, hsplit, habs1, habs2, hmake, ht3, hs3, hev3, hsize⟩ :=
    merge_spec ht0 hx (fun c hc => (hi.ok c hc).linked) hu
  have hspan : span xs = span pre + span tl := by rw [hsplit.eq, span_append]
  have hbge := hi.tiled.size_ge b (by simp)
  refine ⟨h3, _, ?_, ?_, hev0.trans hev3, not_usedAt_released ht3 (by omega) (by omega)⟩
  · simp only [release, hi.tiled.blockSize_eq, hhd.prevSize, hhd.requested, ← hh0, habs1, habs2,
      hmake]
  · have htl : requestedSum tl = 0 ∧ usedCount tl = 0 := by
      have key : ∀ cs : List Block, (∀ c ∈ cs, BlockOk c ∧ c.used = false) →
          requestedSum cs = 0 ∧ usedCount cs = 0 := by
        intro cs hcs
        induction cs with
        | nil => exact ⟨rfl, rfl⟩
        | cons c cs ih =>
          obtain ⟨hok, hcu⟩ := hcs c (by simp)
          obtain ⟨h1, h2⟩ := ih fun d hd => hcs d (by simp [hd])
          simp [requestedSum, usedCount, hok.free_request hcu, hcu, h1, h2]
      exact key tl fun c hc => ⟨hi.ok c (by simp [hsplit.eq, hc]), hsplit.unused c hc⟩
    obtain ⟨hsum, hcount⟩ := HeapInv.sum_lt hi.tiled hi.ok
    have hused := hi.usedBytes
    have hlive := hi.liveAllocations
    have hpeak := hi.peak
    simp only [requestedSum_append, usedCount_append, requestedSum, usedCount, hsplit.eq, htl.1,
      htl.2, hu, if_true] at hused hlive hsum hcount hpeak
    refine ⟨ht3, ?_, ?_, ?_, ?_, ?_⟩
    · exact forall_mem_mid.2 ⟨fun c hc => hi.ok c (by simp [hsplit.eq, hc]), blockOk_free _,
        fun c hc => hi.ok c (by simp [mem_of_dropLead hc])⟩
    · rw [hsplit.eq, coalesced_append] at hx
      refine coalesced_append.2 ⟨hx.1, fun hf => ?_, coalesced_dropLead hby.2⟩
      rw [hsplit.maximal] at hf
      cases hf
    · rw [hs3.usedBytes, hh0, requestedSum_append, requestedSum,
        requestedSum_dropLead fun c hc => hi.ok c (by simp [hc])]
      show subU64 h.usedBytes b.requested = _
      rw [subU64_of_le (by omega) (by omega)]
      simp only
      omega
    · rw [hs3.liveAllocations, hh0, usedCount_append, usedCount, usedCount_dropLead]
      show subU64 h.liveAllocations 1 = _
      rw [subU64_of_le (by omega) (by omega)]
      simp only [Bool.false_eq_true, if_false]
      omega
    · rw [hs3.peakUsage, hh0, requestedSum_append, requestedSum,
        requestedSum_dropLead fun c hc => hi.ok c (by simp [hc])]
      simp only
      omega

/-! ## Resizing in place -/

/-- The debug fills at the end of `resize_block` stay inside the payload, behind the bytes that are
kept. -/
theorem resizeFill_spec {size : Nat} (old : Nat) (hi : HeapInv h (xs ++ b :: ys))
    (hu : b.used = true) (hfits : size + 48 ≤ b.size) :
    ∃ h', (if h.debugPoison = true then
        let g := if old < size then fillArena h (span xs + headerSize + old) 0xcd (size - old)
          else h
        some (fillArena g (span xs + headerSize + size) 0xdd
          (blockSize g (span xs) - headerSize - size))
      else some h) = some h' ∧
      HeapInv h' (xs ++ b :: ys) ∧ Evolves (· = span xs) h (xs ++ b :: ys) h' (xs ++ b :: ys) ∧
      ∀ a, a < h.base + span xs + 48 + min old size → h'.memory a = h.memory a := by
  by_cases hp : h.debugPoison = true
  · rw [if_pos hp]
    simp only
    obtain ⟨g, hg⟩ : ∃ g, g = if old < size then
        fillArena h (span xs + headerSize + old) 0xcd (size - old) else h := ⟨_, rfl⟩
    have hgs : SameState h g ∧ g.freeHead = h.freeHead ∧
        SameOutside h g (span xs + 48 + min old size) (span xs + b.size) := by
      rw [hg]
      split
      · exact ⟨fillArena_same _ _ _, rfl, fillArena_sameOutside (by simp only [headerSize]; omega)
          (by simp only [headerSize]; omega)⟩
      · exact ⟨SameState.refl _, rfl, fun _ _ => rfl⟩
    obtain ⟨hi1, hev1⟩ := hi.payload hu hgs.1 hgs.2.1 fun a ha => hgs.2.2 a (by omega)
    have hm2 : SameOutside g (fillArena g (span xs + headerSize + size) 0xdd
        (blockSize g (span xs) - headerSize - size)) (span xs + 48 + size) (span xs + b.size) := by
      rw [hi1.tiled.blockSize_eq]
      exact fillArena_sameOutside (by simp only [headerSize]; omega)
        (by simp only [headerSize]; omega)
    obtain ⟨hi2, hev2⟩ := hi1.payload hu (fillArena_same _ _ _) rfl fun a ha => hm2 a (by omega)
    refine ⟨_, by rw [← hg], hi2, hev1.trans hev2, fun a ha => ?_⟩
    rw [hm2 a (by rw [hgs.1.base]; omega), hgs.2.2 a (by omega)]
  · rw [if_neg hp]
    exact ⟨h, rfl, hi, Evolves.refl _ _, fun _ _ => rfl⟩

/-- `resize_block` gives a used block a new request that fits it, and keeps the bytes below both
requests. -/
theorem resizeBlock_spec {size needed : Nat} (hi : HeapInv h (xs ++ b :: ys)) (hu : b.used = true)
    (hr : Rounded size needed) (hle : needed ≤ b.size) :
    ∃ h', resizeBlock h (span xs) size needed = some h' ∧
      HeapInv h' (xs ++ trimmed { b with requested := size } needed ys) ∧
      Evolves (· = span xs) h (xs ++ b :: ys) h'
        (xs ++ trimmed { b with requested := size } needed ys) ∧
      ∀ a, h.base + span xs + 48 ≤ a → a < h.base + span xs + 48 + min b.requested size →
        h'.memory a = h.memory a := by
  have hb := hi.ok b (by simp)
  have hl : b.linked = false := by rw [hb.linked, hu]; rfl
  have hfits := hr.fits
  have hreq := hi.tiled.header.requested
  obtain ⟨hpos, hbfits⟩ := hb.used_request hu
  obtain ⟨h0, hh0⟩ : ∃ g, g = { h with
    usedBytes := addU64 (subU64 h.usedBytes b.requested) size } := ⟨_, rfl⟩
  have ht0 : Tiled h0 (xs ++ b :: ys) :=
    hi.tiled.of_sameArena (by rw [hh0]; exact ⟨rfl, rfl, rfl, rfl, rfl, rfl, rfl⟩)
  have hbase0 : h0.base = h.base := by rw [hh0]
  obtain ⟨h1, hh1⟩ : ∃ g, g = writeField h0 (span xs) .requested size := ⟨_, rfl⟩
  have hs1 : SameState h0 h1 := hh1 ▸ writeField_same _ _ _
  have hlt := hr.lt
  have ht1 : Tiled h1 (xs ++ { b with requested := size } :: ys) :=
    hh1 ▸ ht0.setRequested hl (by omega)
  have hm1 : ∀ a, a < h.base + span xs ∨ h.base + span xs + 48 ≤ a → h1.memory a = h.memory a := by
    intro a ha
    rw [hh1, writeField_memory (by rw [hbase0]; exact ha), hh0]
  have hev1 : Evolves (· = span xs) h (xs ++ b :: ys) h1
      (xs ++ { b with requested := size } :: ys) :=
    evolves_block hi.tiled rfl hu (by rw [hs1.base, hbase0]) (by rw [hs1.debugPoison, hh0])
      fun a ha _ => hm1 a (ha _ _ (place_mid xs ys b))
  obtain ⟨h2, htrim, ht2, hs2, hev2, hm2⟩ := trimBlock_evolves ht1 hu hl
    (fun c hc => (hi.ok c (by simp [hc])).linked) hr.ge hr.align hle
  have hok : BlockOk { b with requested := size } :=
    ⟨hb.linked, fun _ => ⟨hr.pos, by simp only; omega⟩, fun hf => by rw [hu] at hf; cases hf⟩
  have hord := (hi.ordered.replace hok hu).trimmed hu hfits
  have hused := hi.usedBytes
  have hsum2 : requestedSum (xs ++ trimmed { b with requested := size } needed ys) =
      requestedSum xs + (size + requestedSum ys) := by
    rw [requestedSum_append, requestedSum_trimmed fun c hc => hi.ok c (by simp [hc]), requestedSum]
  have hcount2 : usedCount (xs ++ trimmed { b with requested := size } needed ys) =
      usedCount (xs ++ b :: ys) := by
    rw [usedCount_append, usedCount_trimmed, usedCount_append, usedCount, usedCount]
  obtain ⟨rest, hrest⟩ := trimmed_head { b with requested := size } needed ys
  rw [hrest] at ht2 hev2 hord hsum2 hcount2 ⊢
  obtain ⟨hsum, -⟩ := HeapInv.sum_lt ht2 hord.ok
  obtain ⟨hsum0, -⟩ := HeapInv.sum_lt hi.tiled hi.ok
  obtain ⟨h3, hh3⟩ : ∃ g, g = raisePeak h2 := ⟨_, rfl⟩
  obtain ⟨hi3, hev3⟩ : HeapInv h3 _ ∧ Evolves (· = span xs) h2 _ h3 _ := by
    rw [hh3]
    refine HeapInv.of_raisePeak ht2 hord ⟨rfl, rfl, rfl, rfl, rfl, rfl, rfl⟩ rfl ?_ ?_
    · rw [requestedSum_append, requestedSum] at hused hsum0
      rw [hs2.usedBytes, hs1.usedBytes, hh0]
      show addU64 (subU64 h.usedBytes b.requested) size = _
      rw [hsum2] at hsum ⊢
      rw [subU64_of_le (by omega) (by omega), addU64_of_lt (by omega)]
      omega
    · rw [hs2.liveAllocations, hs1.liveAllocations, hh0, hcount2]
      exact hi.liveAllocations
  have hm3 : h3.memory = h2.memory := by rw [hh3, raisePeak_eq]
  have hbase3 : h3.base = h.base := by rw [hev3.base, hs2.base, hs1.base, hbase0]
  have hkept := le_keptSize (b := { b with requested := size }) hle
  obtain ⟨h4, hfill, hi4, hev4, hm4⟩ := resizeFill_spec b.requested hi3 hu
    (by omega : size + 48 ≤ keptSize { b with requested := size } needed)
  refine ⟨h4, ?_, hi4, hev1.trans (hev2.trans (hev3.trans hev4)), ?_⟩
  · simp only [resizeBlock, hreq, ← hh0, ← hh1, htrim, Option.bind_eq_bind, Option.bind_some,
      Option.pure_def, ← hh3]
    exact hfill
  · intro a hlo hhi
    rw [hm4 a (by rw [hbase3]; exact hhi), hm3, hm2 a (by rw [hs1.base, hbase0]; exact hlo)
      (by rw [hs1.base, hbase0]; omega), hm1 a (by omega)]

/-- Whether the block in front of `ys` can grow to `needed` bytes by taking a free block. -/
def CanConsume (b : Block) (ys : List Block) (needed : Nat) : Prop :=
  ∃ c rest, ys = c :: rest ∧ c.used = false ∧ needed ≤ b.size + c.size

/-- `consume_next` widens a used block by the free block behind it, if that is enough. -/
theorem consumeNext_spec {needed : Nat} (hi : HeapInv h (xs ++ b :: ys)) (hu : b.used = true)
    (hlt : b.size < needed) :
    (consumeNext h (span xs) needed = (h, false) ∧ ¬ CanConsume b ys needed) ∨
      ∃ h' size rest, consumeNext h (span xs) needed = (h', true) ∧ needed ≤ size ∧
        HeapInv h' (xs ++ { b with size := size } :: rest) ∧
        Evolves (· = span xs) h (xs ++ b :: ys) h' (xs ++ { b with size := size } :: rest) ∧
        ∀ a, h.base + span xs + 48 ≤ a → a < h.base + span xs + b.size →
          h'.memory a = h.memory a := by
  have ht := hi.tiled
  have hb := hi.ok b (by simp)
  have hl : b.linked = false := by rw [hb.linked, hu]; rfl
  have hspan := ht.span_eq
  have hbge := ht.size_ge b (by simp)
  have hbal := ht.size_align b (by simp)
  simp only [span_append, span_cons] at hspan
  simp only [consumeNext, ht.blockSize_eq]
  cases ys with
  | nil =>
    left
    rw [if_pos (Or.inl (by simp only [span_nil] at hspan; omega))]
    refine ⟨rfl, ?_⟩
    rintro ⟨c, rest, hnil, -⟩
    cases hnil
  | cons c rest =>
    have ht' : Tiled h ((xs ++ [b]) ++ c :: rest) := by simpa using ht
    have hnext : span (xs ++ [b]) = span xs + b.size := by simp
    have hcs := ht'.blockSize_eq
    have hcu := ht'.blockUsed_eq
    have hcge := ht.size_ge c (by simp)
    have hcal := ht.size_align c (by simp)
    rw [hnext] at hcs hcu
    rw [span_cons] at hspan
    rw [hcs, hcu]
    by_cases hguard : c.used = true ∨ c.size < needed - b.size
    · left
      rw [if_pos (Or.inr hguard)]
      refine ⟨rfl, ?_⟩
      rintro ⟨d, rest', hcons, hdu, hds⟩
      obtain ⟨rfl, rfl⟩ := List.cons.inj hcons
      rcases hguard with hg | hg
      · rw [hdu] at hg
        cases hg
      · omega
    right
    have hfree : c.used = false := by
      cases hc : c.used with
      | false => rfl
      | true => exact absurd (Or.inl hc) hguard
    have hcl : c.linked = true := by rw [(hi.ok c (by simp)).linked, hfree]; rfl
    rw [if_neg (by rintro (h1 | h1); · omega
                   · exact hguard h1)]
    obtain ⟨h1, hh1⟩ : ∃ g, g = removeFree h (span xs + b.size) := ⟨_, rfl⟩
    have hs1 : SameState h h1 := hh1 ▸ removeFree_same _
    have ht1 : Tiled h1 (xs ++ ([b, { c with linked := false }] ++ rest)) := by
      have := removeFree_tiled ht' hcl
      rw [hnext, ← hh1] at this
      simpa using this
    have hm1 : ∀ a, OutsideHeaders h (xs ++ b :: c :: rest) a → h1.memory a = h.memory a := by
      intro a ha
      have := removeFree_memory ht' hcl (a := a) (by simpa using ha)
      rw [hnext, ← hh1] at this
      exact this
    have hg1 := ht1.gap (by simp [hl])
    have hgapsize : span [b, { c with linked := false }] = b.size + c.size := by simp
    rw [hgapsize] at hg1
    have hpow := hg1.lt_pow
    obtain ⟨h2, hh2⟩ : ∃ g, g = writeField h1 (span xs) .sizeFlags
      ((b.size + c.size) ||| heapUsed) := ⟨_, rfl⟩
    have hs2 : SameState h1 h2 := hh2 ▸ writeField_same _ _ _
    have hm2 : SameOutside h1 h2 (span xs) (span xs + 48) :=
      hh2 ▸ sameOutside_writeField (le_refl _) (le_refl _)
    have hg2 := hg1.of_sameOutside hs2 (by rw [hh2]; rfl) fun a ha => hm2 a (by omega)
    obtain ⟨h3, hh3⟩ : ∃ g, g = followingPrevious h2 (span xs) (b.size + c.size) := ⟨_, rfl⟩
    have hs3 : SameState h2 h3 := hh3 ▸ followingPrevious_same _ _
    have hm3 := followingPrevious_sameOutside (h := h2) (span xs) (b.size + c.size)
    rw [← hh3] at hm3
    have hg3 : Gapped h3 xs (b.size + c.size) (b.size + c.size) rest := hh3 ▸ hg2.setTag rfl
    have hs12 := hs1.trans hs2
    have hs := hs12.trans hs3
    have hheader : HeaderIs (readField h3 (span xs)) (blockCookie h3 (span xs)) (lastSize 0 xs)
        heapNone heapNone { b with size := b.size + c.size } := by
      have ht1' : Tiled h1 (xs ++ b :: { c with linked := false } :: rest) := ht1
      have hb2 :=
        header_setSize ht1'.header hu hl (by omega : (b.size + c.size) % 16 = 0) (by omega)
      rw [← hh2] at hb2
      rw [(hs2.trans hs3).blockCookie]
      exact hb2.congr (hm3.readField hs3.base (Or.inl (by omega)))
    have ht3 : Tiled h3 (xs ++ { b with size := b.size + c.size } :: rest) :=
      hg3.fill hl (by simp only; omega) (by simp only; omega) rfl rfl hheader
    have hmem : ∀ a, OutsideHeaders h (xs ++ b :: c :: rest) a →
        (a < h.base + span xs ∨ h.base + span xs + 48 ≤ a) → h3.memory a = h.memory a := by
      intro a ha hout
      have htag : h3.memory a = h2.memory a := by
        cases rest with
        | nil =>
          rw [hh3, followingPrevious, if_neg]
          rw [hs12.mappedSize]
          simp only [span_nil] at hspan
          omega
        | cons d rest =>
          have := ha (span xs + b.size + c.size) d (mem_place_iff.2
            ⟨xs ++ [b, c], rest, by simp, by simp [Nat.add_assoc]⟩)
          exact hm3 a (by rw [hs12.base]; omega)
      rw [htag, hm2 a (by rw [hs1.base]; omega), hm1 a ha]
    refine ⟨h3, b.size + c.size, rest, by rw [← hh1, ← hh2, ← hh3], by omega, ?_, ?_, ?_⟩
    · obtain ⟨hx, hbc⟩ := coalesced_append.1 hi.coalesced
      have hreq := (hi.ok c (by simp)).free_request hfree
      obtain ⟨hpos, hfits⟩ := hb.used_request hu
      refine hi.recount ht3 ⟨?_, ?_⟩ hs.counters ?_ ?_
      · refine forall_mem_mid.2 ⟨fun d hd => hi.ok d (by simp [hd]), ?_,
          fun d hd => hi.ok d (by simp [hd])⟩
        exact ⟨hb.linked, fun h1 => ⟨hpos, by simp only; omega⟩, hb.free_request⟩
      · refine coalesced_append.2 ⟨hx, hbc.1, ?_⟩
        have hrest := hbc.2.2
        simp only [hu]
        exact hrest.weaken
      · simp [requestedSum_append, requestedSum, hreq]
      · simp [usedCount_append, usedCount, hfree]
    · have key : Evolves (· = span xs) h (xs ++ ([b, c] ++ rest)) h3
          (xs ++ ([{ b with size := b.size + c.size }] ++ rest)) := by
        refine evolves_splice ht (Or.inl (by simp)) hs.base hs.debugPoison ?_
          (.cons rfl (touchedIn_unused (by simp [hfree])))
            (.cons rfl fun o d hd => absurd hd List.not_mem_nil) ?_
        · intro a ha hout _
          simp only [span_cons, span_nil] at hout
          exact hmem a ha (by omega)
        · intro _ o d hd hdu
          rw [List.mem_singleton.1 (mem_of_place hd)] at hdu
          exact Bool.noConfusion (hu.symm.trans hdu)
      exact key
    · intro a hlo hhi
      exact hmem a (fun x d hd => ht.payload_outside (place_mid xs _ b) hd hlo hhi) (Or.inr hlo)

end Utamo.Heap
