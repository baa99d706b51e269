import Utamo.Heap.FreeList

/-!
# The heap invariant and validation

`HeapInv h bs` is the representation invariant: the arena is tiled by `bs`, exactly the unused
blocks are in the free list, no two neighbours are unused, and the counters are the sums over the
used blocks. On such a heap `heap_core_validate` returns true (`heapCoreValidate_of_inv`), and the
walks `last_block` and `exact_block` find what they look for.
-/

set_option autoImplicit false

namespace Utamo.Heap

open Lib Lib.ByteMemory

variable {γ : Type} {h h' : HeapCore γ} {bs xs ys : List Block} {b : Block}

/-- A used block has a request that fits; an unused one has none; exactly the unused blocks are in
the free list. -/
structure BlockOk (b : Block) : Prop where
  linked : b.linked = !b.used
  used_request : b.used = true → 0 < b.requested ∧ b.requested + 48 ≤ b.size
  free_request : b.used = false → b.requested = 0

/-- No two neighbouring blocks are unused; `free` says whether the block before is. -/
def Coalesced : Bool → List Block → Prop
  | _, [] => True
  | free, b :: bs => (free = true → b.used = true) ∧ Coalesced (!b.used) bs

/-- The requested bytes. -/
def requestedSum : List Block → Nat
  | [] => 0
  | b :: bs => b.requested + requestedSum bs

/-- The number of used blocks. -/
def usedCount : List Block → Nat
  | [] => 0
  | b :: bs => (if b.used then 1 else 0) + usedCount bs

/-- Whether the last block is unused. -/
def lastFree : Bool → List Block → Bool
  | free, [] => free
  | _, b :: bs => lastFree (!b.used) bs

theorem requestedSum_append (xs ys : List Block) :
    requestedSum (xs ++ ys) = requestedSum xs + requestedSum ys := by
  induction xs with
  | nil => simp [requestedSum]
  | cons b xs ih => simp [requestedSum, ih, Nat.add_assoc]

theorem usedCount_append (xs ys : List Block) :
    usedCount (xs ++ ys) = usedCount xs + usedCount ys := by
  induction xs with
  | nil => simp [usedCount]
  | cons b xs ih => simp [usedCount, ih, Nat.add_assoc]

theorem coalesced_append {free : Bool} :
    Coalesced free (xs ++ ys) ↔ Coalesced free xs ∧ Coalesced (lastFree free xs) ys := by
  induction xs generalizing free with
  | nil => simp [Coalesced, lastFree]
  | cons b xs ih => simp [Coalesced, lastFree, ih, and_assoc]

theorem lastFree_append (free : Bool) :
    lastFree free (xs ++ ys) = lastFree (lastFree free xs) ys := by
  induction xs generalizing free with
  | nil => rfl
  | cons b xs ih => simp [lastFree, ih]

/-- The representation invariant of a heap. -/
structure HeapInv (h : HeapCore γ) (bs : List Block) : Prop where
  tiled : Tiled h bs
  ok : ∀ b ∈ bs, BlockOk b
  coalesced : Coalesced false bs
  usedBytes : h.usedBytes = requestedSum bs
  liveAllocations : h.liveAllocations = usedCount bs
  peak : requestedSum bs ≤ h.peakUsage

theorem BlockOk.request_le (hb : BlockOk b) : b.requested ≤ b.size := by
  cases hu : b.used with
  | true =>
    have := (hb.used_request hu).2
    omega
  | false =>
    rw [hb.free_request hu]
    omega

theorem requestedSum_le (hok : ∀ b ∈ bs, BlockOk b) : requestedSum bs ≤ span bs := by
  induction bs with
  | nil => simp [requestedSum]
  | cons b bs ih =>
    have h1 := (hok b (by simp)).request_le
    have h2 := ih fun c hc => hok c (by simp [hc])
    simp only [requestedSum, span_cons]
    omega

theorem usedCount_le (bs : List Block) : usedCount bs ≤ bs.length := by
  induction bs with
  | nil => simp [usedCount]
  | cons b bs ih =>
    simp only [usedCount, List.length_cons]
    split <;> omega

/-! ## Validation -/

/-- The state of the validation loop after the blocks `done`, before the blocks `todo`. -/
def stateAfter (done todo : List Block) : ValidateState where
  previous := lastSize 0 done
  freeCurrent := firstLinked (span done) todo heapNone
  freePrior := lastLinked 0 done heapNone
  live := usedCount done
  requested := requestedSum done
  previousFree := lastFree false done

theorem headerSound_of_tiled {done todo : List Block} {c : Block}
    (ht : Tiled h (done ++ c :: todo)) :
    headerSound h (span done) (stateAfter done (c :: todo)) = true := by
  have hle := ht.place_le (place_mid done todo c)
  have hal := ht.size_align c (by simp)
  have hand : (c.size + if c.used then 1 else 0) &&& 14 = 0 := by
    obtain ⟨k, hk⟩ : ∃ k, c.size = 2 ^ 4 * k := ⟨c.size / 16, by omega⟩
    have hlt : (if c.used then 1 else 0) < 2 ^ 4 := by split <;> decide
    rw [hk, Nat.two_pow_add_eq_or_of_lt hlt, Nat.and_or_distrib_right]
    have h1 : 2 ^ 4 * k &&& 14 = 0 := by
      apply Nat.eq_of_testBit_eq
      intro i
      rw [Nat.testBit_and, Nat.testBit_two_pow_mul, Nat.zero_testBit]
      by_cases hi : i < 4
      · simp [show ¬ 4 ≤ i by omega]
      · have : Nat.testBit 14 i = false := Nat.testBit_lt_two_pow (by
          calc 14 < 2 ^ 4 := by decide
            _ ≤ 2 ^ i := Nat.pow_le_pow_right (by decide) (by omega))
        simp [this]
    rw [h1]
    cases c.used <;> decide
  have hcookie := ht.header.cookie
  have hprev := ht.header.prevSize
  have hflags := ht.header.sizeFlags
  have hsize := ht.blockSize_eq
  simp only [headerSound, headerSize, heapMinBlock, heapFlagMask, heapUsed, stateAfter,
    decide_eq_true_eq, hcookie, hprev, hflags, hsize]
  exact ⟨by omega, trivial, hand, by omega, by omega, trivial⟩

theorem validateBlock_eq {done todo : List Block} {c : Block} (hi : HeapInv h (done ++ c :: todo)) :
    validateBlock h (span done) (stateAfter done (c :: todo)) =
      some (stateAfter (done ++ [c]) todo) := by
  have ht := hi.tiled
  have hc := hi.ok c (by simp)
  have hhd := ht.header
  have hspan : requestedSum (done ++ c :: todo) ≤ span (done ++ c :: todo) := requestedSum_le hi.ok
  have hlen := ht.length_le
  have hcount := usedCount_le (done ++ c :: todo)
  have hmap := ht.mapped_lt
  have hnone : heapNone = 2 ^ 64 - 1 := rfl
  rw [ht.span_eq, requestedSum_append, requestedSum] at hspan
  rw [usedCount_append, usedCount] at hcount
  unfold validateBlock
  rw [if_pos (headerSound_of_tiled ht), ht.blockSize_eq, ht.blockUsed_eq, hhd.requested,
    hhd.freePrev, hhd.freeNext]
  cases hu : c.used with
  | true =>
    have hl : c.linked = false := by rw [hc.linked, hu]; rfl
    obtain ⟨hreq, hfit⟩ := hc.used_request hu
    rw [hu, if_pos rfl] at hcount
    rw [if_pos rfl, hl, if_neg]
    · simp only [stateAfter, Option.some.injEq, ValidateState.mk.injEq]
      refine ⟨by rw [lastSize_append]; rfl, ?_, ?_, ?_, ?_, ?_⟩
      · rw [firstLinked, hl, if_neg (by simp)]
        simp
      · rw [lastLinked_append, lastLinked, hl, if_neg (by simp)]
        rfl
      · rw [addU64_of_lt (by omega), usedCount_append, usedCount, hu]
        simp [usedCount]
      · rw [addU64_of_lt (by omega), requestedSum_append, requestedSum]
        simp [requestedSum]
      · rw [lastFree_append, lastFree, hu]
        rfl
    · simp only [headerSize, if_neg (show ¬ (false = true) by simp)]
      rintro (h1 | h1 | h1 | h1)
      · omega
      · omega
      · exact h1 rfl
      · exact h1 rfl
  | false =>
    have hl : c.linked = true := by rw [hc.linked, hu]; rfl
    have hreq := hc.free_request hu
    have hco := (coalesced_append.1 hi.coalesced).2
    have hfree : lastFree false done = false := by
      cases hf : lastFree false done with
      | false => rfl
      | true =>
        have := hco.1 hf
        rw [hu] at this
        cases this
    rw [if_neg (by simp), hl, if_pos rfl, if_pos rfl, if_neg, if_neg]
    · simp only [stateAfter, Option.some.injEq, ValidateState.mk.injEq]
      refine ⟨by rw [lastSize_append]; rfl, ?_, ?_, ?_, ?_, ?_⟩
      · simp
      · rw [lastLinked_append, lastLinked, hl, if_pos rfl]
        simp [lastLinked]
      · rw [usedCount_append, usedCount, hu]
        simp [usedCount]
      · rw [requestedSum_append, requestedSum, hreq]
        simp [requestedSum]
      · rw [lastFree_append, lastFree, hu]
        rfl
    · simp only [stateAfter]
      rw [firstLinked, hl, if_pos rfl]
      rintro (h1 | h1)
      · exact h1 rfl
      · exact h1 rfl
    · simp only [stateAfter, hfree]
      rintro (h1 | h1)
      · exact h1 hreq
      · cases h1

theorem validateLoop_eq (todo : List Block) :
    ∀ (done : List Block) (fuel : Nat), HeapInv h (done ++ todo) → todo.length < fuel →
      validateLoop h fuel (span done) (stateAfter done todo) =
        some (some (stateAfter (done ++ todo) [])) := by
  induction todo with
  | nil =>
    intro done fuel hi hfuel
    obtain ⟨fuel, rfl⟩ : ∃ n, fuel = n + 1 := ⟨fuel - 1, by omega⟩
    have hspan := hi.tiled.span_eq
    rw [List.append_nil] at hspan ⊢
    rw [validateLoop, if_neg (by omega)]
  | cons c todo ih =>
    intro done fuel hi hfuel
    obtain ⟨fuel, rfl⟩ : ∃ n, fuel = n + 1 := ⟨fuel - 1, by omega⟩
    have hle := hi.tiled.place_le (place_mid done todo c)
    have hsplit : done ++ c :: todo = (done ++ [c]) ++ todo := by simp
    have hspan : span done + c.size = span (done ++ [c]) := by simp
    rw [List.length_cons] at hfuel
    rw [validateLoop, if_pos (by omega), validateBlock_eq hi]
    simp only
    rw [hi.tiled.blockSize_eq, hspan, hsplit]
    exact ih (done ++ [c]) fuel (hsplit ▸ hi) (by omega)

/-- A heap that satisfies the invariant passes `heap_core_validate`. -/
theorem heapCoreValidate_of_inv (hi : HeapInv h bs) : heapCoreValidate h = some true := by
  have hlen := hi.tiled.length_le
  have hloop := validateLoop_eq bs [] (h.mappedSize + 1) hi (by omega)
  have hstart : stateAfter [] bs = validateStart h := by
    unfold validateStart
    rw [hi.tiled.head]
    rfl
  unfold heapCoreValidate
  rw [if_pos (contextValid_iff.2 hi.tiled.context), ← hstart]
  rw [span_nil] at hloop
  rw [hloop]
  simp only [Option.map_some, List.nil_append, stateAfter, firstLinked, Option.some.injEq,
    decide_eq_true_eq, and_true]
  exact ⟨hi.usedBytes.symm, hi.liveAllocations.symm, hi.peak⟩

/-! ## The last block and the block at an offset -/

theorem span_align (hal : ∀ c ∈ bs, c.size % 16 = 0) : span bs % 16 = 0 := by
  induction bs with
  | nil => rfl
  | cons c bs ih =>
    have h1 := hal c (by simp)
    have h2 := ih fun d hd => hal d (by simp [hd])
    rw [span_cons]
    omega

theorem place_align {o : Nat} (hal : ∀ c ∈ bs, c.size % 16 = 0) (ho : (o, b) ∈ place 0 bs) :
    o % 16 = 0 := by
  obtain ⟨xs, ys, rfl, rfl⟩ := mem_place_iff.1 ho
  have := span_align fun c hc => hal c (List.mem_append_left (b :: ys) hc)
  omega

theorem lastBlockLoop_eq (todo : List Block) :
    ∀ (done : List Block) (fuel : Nat), Tiled h (done ++ todo ++ [b]) → todo.length < fuel →
      lastBlockLoop h fuel (span done) = some (span (done ++ todo)) := by
  induction todo with
  | nil =>
    intro done fuel ht hfuel
    obtain ⟨fuel, rfl⟩ : ∃ n, fuel = n + 1 := ⟨fuel - 1, by omega⟩
    rw [List.append_nil] at ht ⊢
    have hspan := ht.span_eq
    rw [lastBlockLoop, ht.blockSize_eq, if_neg]
    simp only [span_append, span_cons, span_nil] at hspan
    omega
  | cons c todo ih =>
    intro done fuel ht hfuel
    obtain ⟨fuel, rfl⟩ : ∃ n, fuel = n + 1 := ⟨fuel - 1, by omega⟩
    rw [List.length_cons] at hfuel
    have ht' : Tiled h (done ++ c :: (todo ++ [b])) := by simpa using ht
    have hspan := ht.span_eq
    have hb := ht.size_ge b (by simp)
    simp only [span_append, span_cons, span_nil] at hspan
    have hnext : span done + c.size = span (done ++ [c]) := by simp
    rw [lastBlockLoop, ht'.blockSize_eq, if_pos (by omega), hnext]
    have key := ih (done ++ [c]) fuel (by simpa using ht) (by omega)
    simpa using key

theorem lastBlock_eq (ht : Tiled h (xs ++ [b])) : lastBlock h = some (span xs) := by
  have hlen := ht.length_le
  simp only [List.length_append, List.length_cons, List.length_nil] at hlen
  exact lastBlockLoop_eq xs [] (h.mappedSize + 1) ht (by omega)

theorem exactBlockLoop_spec (target : Nat) (todo : List Block) :
    ∀ (done : List Block) (fuel : Nat), Tiled h (done ++ todo) → todo.length < fuel →
      ∃ r, exactBlockLoop h target fuel (span done) = some r ∧
        (r.isSome = true ↔ ∃ c, (target, c) ∈ place (span done) todo) := by
  induction todo with
  | nil =>
    intro done fuel ht hfuel
    obtain ⟨fuel, rfl⟩ : ∃ n, fuel = n + 1 := ⟨fuel - 1, by omega⟩
    have hspan := ht.span_eq
    rw [List.append_nil] at hspan
    exact ⟨none, by rw [exactBlockLoop, if_neg (by omega)], by simp [place]⟩
  | cons c todo ih =>
    intro done fuel ht hfuel
    obtain ⟨fuel, rfl⟩ : ∃ n, fuel = n + 1 := ⟨fuel - 1, by omega⟩
    rw [List.length_cons] at hfuel
    have hle := ht.place_le (place_mid done todo c)
    have hspan : span done + c.size = span (done ++ [c]) := by simp
    rw [exactBlockLoop, if_pos (by omega)]
    by_cases heq : span done = target
    · exact ⟨some (span done), by rw [if_pos heq], by simp [place, heq]⟩
    · obtain ⟨r, hr, hiff⟩ := ih (done ++ [c]) fuel (by simpa using ht) (by omega)
      refine ⟨r, by rw [if_neg heq, ht.blockSize_eq, hspan, hr], ?_⟩
      rw [hiff, ← hspan]
      constructor
      · rintro ⟨d, hd⟩
        exact ⟨d, by simp [place, hd]⟩
      · rintro ⟨d, hd⟩
        simp only [place, List.mem_cons, Prod.mk.injEq] at hd
        rcases hd with ⟨h1, -⟩ | hd
        · exact absurd h1.symm heq
        · exact ⟨d, hd⟩

/-- `exact_block` finds a block exactly at the offsets where blocks begin. -/
theorem exactBlock_spec (ht : Tiled h bs) (target : Nat) :
    ∃ r, exactBlock h target = some r ∧ (r.isSome = true ↔ ∃ c, (target, c) ∈ place 0 bs) := by
  have hlen := ht.length_le
  exact exactBlockLoop_spec target bs [] (h.mappedSize + 1) ht (by omega)

/-- The used block whose payload begins at `pointer`. -/
def IsPayload (h : HeapCore γ) (bs : List Block) (pointer offset : Nat) (b : Block) : Prop :=
  (offset, b) ∈ place 0 bs ∧ b.used = true ∧ pointer = h.base + offset + headerSize

/-- `pointer_offset` recognises exactly the payload addresses of used blocks. -/
theorem pointerOffset_spec (ht : Tiled h bs) (pointer : Nat) :
    (∃ offset b, IsPayload h bs pointer offset b ∧ pointerOffset h pointer = some offset) ∨
      ((∀ offset b, ¬ IsPayload h bs pointer offset b) ∧
        pointerOffset h pointer = some heapNone) := by
  have hbase := ht.context.base_align
  unfold pointerOffset
  by_cases hguard : pointer < h.base ∨ pointer - h.base < headerSize ∨
      h.mappedSize ≤ pointer - h.base ∨ pointer &&& heapFlagMask ≠ 0
  · right
    rw [if_pos hguard]
    refine ⟨?_, rfl⟩
    rintro offset b ⟨ho, -, rfl⟩
    have hle := ht.place_le ho
    have hal : offset % 16 = 0 := place_align ht.size_align ho
    simp only [headerSize, heapFlagMask, and_fifteen] at hguard
    omega
  · rw [if_neg hguard]
    simp only [headerSize, heapFlagMask, and_fifteen] at hguard
    simp only [not_or, not_lt, not_le, not_not] at hguard
    obtain ⟨h1, h2, h3, h4⟩ := hguard
    obtain ⟨r, hr, hiff⟩ := exactBlock_spec ht (pointer - h.base - headerSize)
    have hpointer : pointer = h.base + (pointer - h.base - headerSize) + headerSize := by
      simp only [headerSize]
      omega
    simp only [hr, Option.bind_eq_bind, Option.bind_some, Option.pure_def]
    by_cases hex : ∃ c, (pointer - h.base - headerSize, c) ∈ place 0 bs
    · obtain ⟨c, hc⟩ := hex
      obtain ⟨xs, ys, rfl, ho⟩ := mem_place_iff.1 hc
      rw [Nat.zero_add] at ho
      have hused : blockUsed h (pointer - h.base - headerSize) = c.used := by
        rw [ho]
        exact ht.blockUsed_eq
      have hsome : r.isSome = true := hiff.2 ⟨c, hc⟩
      cases hu : c.used with
      | true =>
        left
        exact ⟨_, c, ⟨hc, hu, hpointer⟩, by simp [hsome, hused, hu]⟩
      | false =>
        right
        refine ⟨?_, by simp [hused, hu]⟩
        rintro offset d ⟨hd, hdu, hp⟩
        have hoff : offset = pointer - h.base - headerSize := by
          rw [hp]
          omega
        rw [hoff] at hd
        rcases place_apart hc hd with ⟨-, rfl⟩ | hsep | hsep
        · rw [hu] at hdu
          cases hdu
        · have := (ht.place_le hc).2.1
          omega
        · have := (ht.place_le hd).2.1
          omega
    · right
      have hnone : r.isSome = false := by
        cases hs : r.isSome with
        | false => rfl
        | true => exact absurd (hiff.1 hs) hex
      refine ⟨?_, by simp [hnone]⟩
      rintro offset d ⟨hd, -, hp⟩
      have hoff : offset = pointer - h.base - headerSize := by
        rw [hp]
        omega
      exact hex ⟨d, hoff ▸ hd⟩

end Utamo.Heap
