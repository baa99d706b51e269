import Utamo.Heap.Runs
import Mathlib.Data.Finset.Card

/-!
# What the clients of the heap rely on

Contracts of `heap_core.h` over all runs:

* `heap_realloc_preserves`: a resized allocation keeps its bytes, wherever it ends up;
* `heap_allocation_failure`: a request fails for one of the documented causes only, and then changes
  nothing;
* `heap_free_poisoned`: with debug poison on, free payload is filled with `0xdd`;
* `heap_first_fit`, `heap_released_whole`: where an allocation is placed, and what is
  left of them all.
-/

set_option autoImplicit false

namespace Utamo.Heap

open Lib Lib.ByteMemory

variable {γ : Type} {h h' : HeapCore γ} {bs bs' : List Block}
  {o pointer size needed : Nat}

/-! ## Allocations in the arena -/

/-- A live allocation as the headers have it: a used block with its request. -/
def LiveAllocation (h : HeapCore γ) (pointer size : Nat) : Prop :=
  ∃ o, pointer = h.base + o + headerSize ∧ exactBlock h o = some (some o) ∧ blockUsed h o = true ∧
    readField h o .requested = size

theorem exactBlockLoop_target {target fuel x : Nat}
    (hx : exactBlockLoop h target fuel o = some (some x)) :
    x = target := by
  induction fuel generalizing o with
  | zero => cases hx
  | succ fuel ih =>
    rw [exactBlockLoop] at hx
    split at hx
    · split at hx
      · rename_i heq
        cases hx
        exact heq
      · exact ih hx
    · cases hx

/-- A block of the arena as the headers have it. -/
theorem exactBlock_iff (hi : HeapInv h bs) :
    exactBlock h o = some (some o) ↔ ∃ c, (o, c) ∈ place 0 bs := by
  obtain ⟨r, hr, hiff⟩ := exactBlock_spec hi.tiled o
  rw [← hiff, hr, Option.some.injEq]
  constructor
  · intro h1
    rw [h1]
    rfl
  · intro h1
    obtain ⟨x, rfl⟩ := Option.isSome_iff_exists.1 h1
    rw [exactBlockLoop_target hr]

theorem liveAllocation_iff (hi : HeapInv h bs) :
    LiveAllocation h pointer size ↔
      ∃ o c, UsedAt bs o c ∧ pointer = h.base + o + 48 ∧ size = c.requested := by
  constructor
  · rintro ⟨o, hp, hblock, hused, hreq⟩
    obtain ⟨c, hc⟩ := (exactBlock_iff hi).1 hblock
    obtain ⟨-, -, hcu, hcr⟩ := hi.arenaSound.headers o c hc
    exact ⟨o, c, ⟨hc, hcu.symm.trans hused⟩, hp, hreq.symm.trans hcr⟩
  · rintro ⟨o, c, ⟨hc, hu⟩, hp, hreq⟩
    obtain ⟨-, -, hcu, hcr⟩ := hi.arenaSound.headers o c hc
    exact ⟨o, hp, (exactBlock_iff hi).2 ⟨c, hc⟩, hcu.trans hu, hcr.trans hreq.symm⟩

/-- The allocations that the clients hold are the live allocations of the arena. -/
theorem GoodRun.live_iff {s : HeapRun γ} (hg : GoodRun s bs) :
    s.live pointer = some size ↔ LiveAllocation s.heap pointer size := by
  rw [liveAllocation_iff hg.inv]
  exact hg.represents pointer size

/-! ## Counting used blocks -/

/-- The arena offsets of the used blocks. -/
def usedOffsets (bs : List Block) : Finset Nat :=
  (((place 0 bs).filter fun p => p.2.used).map Prod.fst).toFinset

theorem mem_usedOffsets : o ∈ usedOffsets bs ↔ ∃ c, UsedAt bs o c := by
  simp only [usedOffsets, List.mem_toFinset, List.mem_map, List.mem_filter, UsedAt]
  constructor
  · rintro ⟨⟨x, c⟩, hc, rfl⟩
    exact ⟨c, hc⟩
  · rintro ⟨c, hc⟩
    exact ⟨(o, c), hc, rfl⟩

theorem card_usedOffsets (hpos : ∀ c ∈ bs, 0 < c.size) : (usedOffsets bs).card = usedCount bs := by
  have hnodup : (((place 0 bs).filter fun p => p.2.used).map Prod.fst).Nodup :=
    ((place_ascending 0 hpos).sublist (List.filter_sublist.map Prod.fst)).imp Nat.ne_of_lt
  have hcount : ∀ (cs : List Block) (off : Nat),
      (((place off cs).filter fun p => p.2.used).map Prod.fst).length = usedCount cs := by
    intro cs
    induction cs with
    | nil => intro off; rfl
    | cons c cs ih =>
      intro off
      rw [place, List.filter_cons, usedCount]
      cases c.used with
      | true =>
        simp only [if_true, List.map_cons, List.length_cons, ih]
        omega
      | false =>
        simp only [Bool.false_eq_true, if_false, ih]
        omega
  rw [usedOffsets, List.toFinset_card_of_nodup hnodup, hcount]

/-- A resized block stays one used block, and a moved one takes the place of another. -/
theorem ReallocOutcome.usedCount_eq {q : Nat} (hi : HeapInv h bs)
    (hout : ReallocOutcome h bs pointer size h' q bs') (hi' : HeapInv h' bs') :
    usedCount bs' = usedCount bs := by
  rw [← card_usedOffsets hi.tiled.size_pos, ← card_usedOffsets hi'.tiled.size_pos]
  cases hout with
  | failed heq => rfl
  | resized hpay hgood hev hc hreq hbytes =>
    rename_i o b c
    congr 1
    ext x
    rw [mem_usedOffsets, mem_usedOffsets]
    by_cases hx : x = o
    · subst hx
      exact iff_of_true ⟨c, hc⟩ ⟨b, hpay.1, hpay.2.1⟩
    · exact exists_congr fun d => hev.used x d hx
  | moved hpay hgood hev hq hfresh hc hreq hgone hbytes =>
    rename_i o o' b c
    have hmem : o ∈ usedOffsets bs := mem_usedOffsets.2 ⟨b, hpay.1, hpay.2.1⟩
    have hnew : o' ∉ (usedOffsets bs).erase o := by
      intro hin
      obtain ⟨d, hd⟩ := mem_usedOffsets.1 (Finset.mem_of_mem_erase hin)
      exact hfresh d hd
    have hset : usedOffsets bs' = insert o' ((usedOffsets bs).erase o) := by
      ext x
      rw [Finset.mem_insert, Finset.mem_erase, mem_usedOffsets, mem_usedOffsets]
      by_cases hx' : x = o'
      · subst hx'
        exact iff_of_true ⟨c, hc⟩ (Or.inl rfl)
      by_cases hx : x = o
      · subst hx
        exact iff_of_false (fun ⟨d, hd⟩ => hgone d hd)
          (by rintro (h1 | h1); exacts [hx' h1, h1.1 rfl])
      · rw [or_iff_right hx', and_iff_right hx]
        exact exists_congr fun d => hev.used x d (by rintro (h1 | h1); exacts [hx h1, hx' h1])
    rw [hset, Finset.card_insert_of_notMem hnew, Finset.card_erase_of_mem hmem]
    have hpos := Finset.card_pos.2 ⟨o, hmem⟩
    omega

/-! ## Resizing -/

/-- In every state of every run: `heap_core_realloc` of a live allocation returns, and if it returns
a pointer, that is a live allocation of the new size with the old bytes, the old one is gone unless
it is the same, and all others are as before. -/
theorem heap_realloc_preserves {s : HeapRun γ} (hs : HeapReachable s) {p old new : Nat}
    (hlive : LiveAllocation s.heap p old) (hnew : 0 < new) :
    ∃ h' q, heapCoreRealloc s.heap p new = some (h', q) ∧ (q ≠ 0 →
      LiveAllocation h' q new ∧
      (∀ i, i < min old new → h'.memory (q + i) = s.heap.memory (p + i)) ∧
      (q ≠ p → ∀ n, ¬ LiveAllocation h' p n) ∧
      (∀ r n, r ≠ p → r ≠ q → (LiveAllocation h' r n ↔ LiveAllocation s.heap r n)) ∧
      h'.liveAllocations = s.heap.liveAllocations) := by
  obtain ⟨bs, hg⟩ := goodRun_of_reachable hs
  obtain ⟨o0, b0, hb0, hp0, hold⟩ := (liveAllocation_iff hg.inv).1 hlive
  have hp : p ≠ 0 := by omega
  obtain ⟨h', q, bs', hcall, hout⟩ := heapCoreRealloc_spec hg.inv hp (by omega : new ≠ 0)
  obtain ⟨hgood, -⟩ := callEffect_realloc hg hp (by omega : new ≠ 0) hout
  refine ⟨h', q, hcall, fun hq => ?_⟩
  -- what the clients hold afterwards, and that it is what the arena has
  have hlive' : ∀ r n, LiveAllocation h' r n ↔ withRealloc s.live p new q r = some n :=
    fun r n => hgood.live_iff.symm
  have hwith : withRealloc s.live p new q =
      Function.update (Function.update s.live p none) q (some new) := by
    rw [withRealloc, if_neg hp, if_neg (by omega), if_neg hq]
  refine ⟨?_, ?_, ?_, ?_, ?_⟩
  · rw [hlive', hwith, Function.update_self]
  · -- the block that was passed is the one of the outcome
    have hsame : ∀ {o : Nat} {b : Block}, IsPayload s.heap bs p o b → b = b0 := by
      intro o b hpay
      have hpo : p = s.heap.base + o + 48 := hpay.2.2
      obtain rfl : o = o0 := by omega
      exact usedAt_unique hg.inv.tiled ⟨hpay.1, hpay.2.1⟩ hb0
    rw [hold]
    cases hout with
    | failed => exact absurd rfl hq
    | resized hpay _ _ _ _ hbytes => exact hsame hpay ▸ hbytes
    | moved hpay _ _ _ _ _ _ _ hbytes => exact hsame hpay ▸ hbytes
  · intro hne n hn
    rw [hlive', hwith, Function.update_of_ne hne.symm, Function.update_self] at hn
    cases hn
  · intro r n hrp hrq
    rw [hlive', hwith, Function.update_of_ne hrq, Function.update_of_ne hrp, hg.live_iff]
  · rw [hgood.inv.liveAllocations, hg.inv.liveAllocations]
    exact hout.usedCount_eq hg.inv hgood.inv

/-- The first of two allocations cannot grow where it is: the heap grows, and the allocation moves
behind the second one. -/
theorem heap_realloc_preserves_moved :
    ∃ h', heapCoreRealloc (smallRunAfter [.alloc 16, .alloc 16]).heap 4144 40 = some (h', 4272) ∧
      LiveAllocation h' 4272 40 ∧
      (∀ i, i < 16 → h'.memory (4272 + i) =
        (smallRunAfter [.alloc 16, .alloc 16]).heap.memory (4144 + i)) ∧
      (∀ n, ¬ LiveAllocation h' 4144 n) ∧
      (∀ r n, r ≠ 4144 → r ≠ 4272 → (LiveAllocation h' r n ↔
        LiveAllocation (smallRunAfter [.alloc 16, .alloc 16]).heap r n)) ∧
      h'.liveAllocations = (smallRunAfter [.alloc 16, .alloc 16]).heap.liveAllocations := by
  have hlive : LiveAllocation (smallRunAfter [.alloc 16, .alloc 16]).heap 4144 16 :=
    ⟨0, by decide +kernel, by decide +kernel, by decide +kernel, by decide +kernel⟩
  have hq : (heapCoreRealloc (smallRunAfter [.alloc 16, .alloc 16]).heap 4144 40).map Prod.snd =
      some 4272 := by decide +kernel
  obtain ⟨h', q, hcall, hkept⟩ := heap_realloc_preserves
    (smallRunAfter_reachable (by simp [heapEnabled])) hlive (show 0 < 40 by decide)
  rw [hcall] at hq
  cases hq
  obtain ⟨hmoved, hbytes, hgone, hrest⟩ := hkept (by decide)
  exact ⟨h', hcall, hmoved, hbytes, hgone (by decide), hrest⟩

/-! ## The largest free block -/

/-- The number is the payload of the largest free block, or zero without one. -/
structure Largest (bs : List Block) (largest : Nat) : Prop where
  bound : ∀ c ∈ bs, c.linked = true → c.size ≤ largest + 48
  attained : largest = 0 ∨ ∃ c ∈ bs, c.linked = true ∧ c.size = largest + 48

theorem statsLoop_spec (todo : List Block) : ∀ (done : List Block) (fuel freeBytes largest : Nat),
    Tiled h (done ++ todo) → todo.length < fuel → Largest done largest →
      ∃ free' largest', statsLoop h fuel (firstLinked (span done) todo heapNone) freeBytes largest =
        some (free', largest') ∧ Largest (done ++ todo) largest' := by
  induction todo with
  | nil =>
    intro done fuel freeBytes largest ht hfuel hdone
    obtain ⟨fuel, rfl⟩ : ∃ n, fuel = n + 1 := ⟨fuel - 1, by omega⟩
    rw [firstLinked, statsLoop, if_neg (fun h1 => h1 rfl), List.append_nil]
    exact ⟨_, _, rfl, hdone⟩
  | cons c todo ih =>
    intro done fuel freeBytes largest ht hfuel hdone
    rw [List.length_cons] at hfuel
    have hsplit : done ++ c :: todo = (done ++ [c]) ++ todo := by simp
    have hspan : span (done ++ [c]) = span done + c.size := by simp
    have hge := ht.size_ge c (by simp)
    rw [hsplit] at ht ⊢
    cases hc : c.linked with
    | false =>
      rw [firstLinked, hc, if_neg Bool.false_ne_true, ← hspan]
      refine ih (done ++ [c]) fuel freeBytes largest ht (by omega) ⟨?_, ?_⟩
      · intro d hd hdl
        rcases List.mem_append.1 hd with hd | hd
        · exact hdone.bound d hd hdl
        · rw [List.mem_singleton.1 hd, hc] at hdl
          cases hdl
      · refine hdone.attained.imp id ?_
        rintro ⟨d, hd, hrest⟩
        exact ⟨d, List.mem_append_left _ hd, hrest⟩
    | true =>
      obtain ⟨fuel, rfl⟩ : ∃ n, fuel = n + 1 := ⟨fuel - 1, by omega⟩
      rw [← hsplit] at ht
      have hnone := (ht.place_le (place_mid done todo c)).2.2
      have hbytes : blockSize h (span done) - headerSize =
        c.size - 48 := by rw [ht.blockSize_eq]; rfl
      rw [firstLinked, hc, if_pos rfl, statsLoop, if_pos (by omega)]
      simp only [hbytes, (ht.header_links hc).2]
      rw [← hspan]
      refine ih (done ++ [c]) fuel _ _ (hsplit ▸ ht) (by omega) ⟨?_, ?_⟩
      · intro d hd hdl
        rcases List.mem_append.1 hd with hd | hd
        · have := hdone.bound d hd hdl
          split <;> omega
        · rw [List.mem_singleton.1 hd]
          split <;> omega
      · split
        · exact Or.inr ⟨c, by simp, hc, by omega⟩
        · refine hdone.attained.imp id ?_
          rintro ⟨d, hd, hrest⟩
          exact ⟨d, List.mem_append_left _ hd, hrest⟩

/-- `heap_core_get_stats` on a heap in good order. -/
theorem heapCoreGetStats_spec (hi : HeapInv h bs) :
    ∃ stats, heapCoreGetStats h = some (some stats) ∧ Largest bs stats.largestFreeBytes := by
  have hlen := hi.tiled.length_le
  obtain ⟨free, largest, hloop, hlargest⟩ :=
    statsLoop_spec bs [] (h.mappedSize + 1) 0 0 hi.tiled (by omega) ⟨nofun, Or.inl rfl⟩
  have hhead : h.freeHead = firstLinked (span []) bs heapNone := hi.tiled.head
  rw [← hhead] at hloop
  simp only [heapCoreGetStats, heapCoreValidate_of_inv hi, hloop, Option.bind_eq_bind,
    Option.bind_some, Option.pure_def]
  rw [if_neg (fun h1 => h1 trivial)]
  exact ⟨_, rfl, hlargest⟩

/-- A request of at most the largest free payload fits. -/
theorem Largest.fits {largest : Nat} (hi : HeapInv h bs) (hlargest : Largest bs largest)
    (hsize : 0 < size) (hle : size ≤ largest) :
    size + 63 ≤ uint64Max ∧ ¬ NoFit bs (roundedSize size) := by
  rcases hlargest.attained with hzero | ⟨c, hc, hlinked, hcs⟩
  · omega
  have hal := hi.tiled.size_align c hc
  have hmax : uint64Max = 2 ^ 64 - 1 := rfl
  have hnone : heapNone = 2 ^ 64 - 1 := rfl
  obtain ⟨xs, ys, rfl⟩ := List.append_of_mem hc
  have hspan := (hi.tiled.place_le (place_mid xs ys c)).1
  have hmapped := hi.tiled.mapped_lt
  have hbal := hi.tiled.context.base_align
  refine ⟨by omega, fun hno => ?_⟩
  have hu : c.used = false := by
    have hok := (hi.ok c hc).linked
    rw [hlinked] at hok
    exact (Bool.not_eq_true' c.used).mp hok.symm
  have hlt := hno c hc hu
  rw [roundedSize, alignDown] at hlt
  omega

/-! ## The contract of failure -/

/-- Nothing but the counter of failures has changed, and the context of a callback that
was asked. -/
def OnlyFailure (h h' : HeapCore γ) : Prop :=
  h' = { h with ops := h'.ops, failedAllocations := h'.failedAllocations }

/-- In every state of every run: a request fails exactly if its size overflows, or no free block is
large enough and the heap cannot grow; a request that the largest free block can serve does not
reach the callback (whatever the callback does to its context, such as counting its calls, has not
happened); and a request that fails changes nothing. -/
theorem heap_allocation_failure {s : HeapRun γ} (hs : HeapReachable s) :
    (∃ bs, ArenaSound s.heap bs ∧ ∀ n, 0 < n → ∃ h' p, heapCoreAlloc s.heap n = some (h', p) ∧
      (p = 0 ↔ uint64Max < n + 63 ∨
        (NoFit bs (roundedSize n) ∧ ¬ CanGrow s.heap bs (roundedSize n)))) ∧
    (∃ stats, heapCoreGetStats s.heap = some (some stats) ∧ ∀ n, 0 < n →
      n ≤ stats.largestFreeBytes →
      ∃ h' p, heapCoreAlloc s.heap n = some (h', p) ∧ p ≠ 0 ∧ h'.ops = s.heap.ops) ∧
    (∀ n h', heapCoreAlloc s.heap n = some (h', 0) → OnlyFailure s.heap h') ∧
    (∀ count n h', heapCoreCalloc s.heap count n = some (h', 0) → OnlyFailure s.heap h') ∧
    (∀ p n h', 0 < n → heapCoreRealloc s.heap p n = some (h', 0) → OnlyFailure s.heap h') := by
  obtain ⟨bs, hg⟩ := goodRun_of_reachable hs
  have hi := hg.inv
  have halloc : ∀ n h', heapCoreAlloc s.heap n = some (h', 0) → OnlyFailure s.heap h' := by
    intro n h' hcall
    obtain ⟨g, p, bs', hspec, hout, -⟩ := heapCoreAlloc_spec hi n
    rw [hcall] at hspec
    cases hspec
    exact (hout.failed rfl).2
  refine ⟨⟨bs, hi.arenaSound, ?_⟩, ?_, halloc, ?_, ?_⟩
  · intro n hn
    obtain ⟨h', p, bs', hcall, -, hcause⟩ := heapCoreAlloc_spec hi n
    exact ⟨h', p, hcall, (hcause hn).1⟩
  · obtain ⟨stats, hstats, hlargest⟩ := heapCoreGetStats_spec hi
    refine ⟨stats, hstats, fun n hn hle => ?_⟩
    obtain ⟨h', p, bs', hcall, -, hcause⟩ := heapCoreAlloc_spec hi n
    obtain ⟨hover, hfit⟩ := hlargest.fits hi hn hle
    obtain ⟨hiff, hops⟩ := hcause hn
    refine ⟨h', p, hcall, fun hp => ?_, hops hover hfit⟩
    rcases hiff.1 hp with h1 | h1
    · omega
    · exact hfit h1.1
  · intro count n h' hcall
    obtain ⟨g, p, bs', hspec, hout⟩ := heapCoreCalloc_spec hi count n
    rw [hcall] at hspec
    cases hspec
    exact (hout.failed rfl).2
  · intro p n h' hn hcall
    by_cases hp : p = 0
    · rw [heapCoreRealloc, if_pos hp] at hcall
      exact halloc n h' hcall
    obtain ⟨g, q, bs', hspec, hout⟩ := heapCoreRealloc_spec hi hp (by omega : n ≠ 0)
    rw [hcall] at hspec
    cases hspec
    generalize hq : 0 = q at hout
    cases hout with
    | failed heq => exact heq
    | resized => exact absurd hq.symm hp
    | moved _ _ _ hrep => omega

/-- A heap as large as it may be, with free blocks of 64 and of 128 bytes around an allocation. -/
def holedRun : HeapRun Unit :=
  smallRunAfter [.alloc 16, .alloc 16, .alloc 80, .free 4144, .free 4272]

theorem holedRun_reachable : HeapReachable holedRun :=
  smallRunAfter_reachable (by simp [heapEnabled])

theorem heap_allocation_failure_holes :
    ∃ bs h', ArenaSound holedRun.heap bs ∧ NoFit bs 160 ∧ ¬ CanGrow holedRun.heap bs 160 ∧
      heapCoreAlloc holedRun.heap 100 = some (h', 0) ∧ OnlyFailure holedRun.heap h' := by
  obtain ⟨⟨bs, hsound, hcause⟩, -, honly, -⟩ := heap_allocation_failure holedRun_reachable
  obtain ⟨h', p, hcall, hiff⟩ := hcause 100 (by decide)
  have hp : (heapCoreAlloc holedRun.heap 100).map Prod.snd = some 0 := by decide +kernel
  rw [hcall] at hp
  cases hp
  obtain ⟨hno, hgrow⟩ := (hiff.1 rfl).resolve_left (by decide)
  exact ⟨bs, h', hsound, hno, hgrow, hcall, honly 100 h' hcall⟩

/-! ## Poison -/

/-- The state after a successful `heap_core_init` with debug poison. -/
def poisonedStart (s : HeapRun γ) : Prop :=
  (∃ h base initialSize maxSize growthSize ops,
    heapCoreInit h base initialSize maxSize growthSize true ops = some s.heap) ∧
      s.live = fun _ => none

theorem poisoned_of_reachable {s : HeapRun γ}
    (hs : Reachable poisonedStart heapEnabled heapExec s) :
    (∃ bs, GoodRun s bs) ∧ s.heap.debugPoison = true := by
  have hstart : ∀ s : HeapRun γ, poisonedStart s → (∃ bs, GoodRun s bs) ∧
      s.heap.debugPoison = true := by
    rintro s ⟨⟨h, base, initialSize, maxSize, growthSize, ops, hinit⟩, hlive⟩
    refine ⟨goodRun_start ⟨⟨h, base, initialSize, maxSize, growthSize, true, ops, hinit⟩, hlive⟩,
      ?_⟩
    rw [heapCoreInit] at hinit
    split at hinit
    · cases hinit
    · simp only [Option.some.injEq, if_true] at hinit
      rw [← hinit]
      rfl
  refine Reachable.invariant hstart ?_ hs
  rintro s call t ⟨⟨bs, hg⟩, hflag⟩ hen hex
  obtain ⟨t', bs', hex', heff⟩ := callEffect hg call hen
  rw [hex] at hex'
  cases hex'
  obtain ⟨touched, hev, -⟩ := heff.touched
  exact ⟨⟨bs', heff.good⟩, hev.debugPoison.trans hflag⟩

/-- In every state of every run of a heap with debug poison, every payload byte of every free block
is `0xdd`, whatever the pages that the growth callback appended had held. -/
theorem heap_free_poisoned {s : HeapRun γ} (hs : Reachable poisonedStart heapEnabled heapExec s)
    {o : Nat} (hblock : exactBlock s.heap o = some (some o)) (hfree : blockUsed s.heap o = false) :
    ∀ i, i < blockSize s.heap o - headerSize →
      s.heap.memory (s.heap.base + o + headerSize + i) = 0xdd := by
  obtain ⟨⟨bs, hg⟩, hflag⟩ := poisoned_of_reachable hs
  obtain ⟨c, hc⟩ := (exactBlock_iff hg.inv).1 hblock
  obtain ⟨-, hsize, hused, -⟩ := hg.inv.arenaSound.headers o c hc
  have hheader : headerSize = 48 := rfl
  intro i hlt
  apply hg.poisoned hflag o c hc (hused.symm.trans hfree)
  · omega
  · omega

/-- The payload of the allocation that was released last. -/
theorem heap_free_poisoned_holes : blockUsed holedRun.heap 128 = false ∧
    ∀ i, i < 80 → holedRun.heap.memory (4272 + i) = 0xdd := by
  have hreach : Reachable poisonedStart heapEnabled heapExec holedRun :=
    Reachable.foldl_getD (.start ⟨⟨blankHeap, 4096, 64, 256, 64, willingOps, rfl⟩, rfl⟩)
      (by simp [heapEnabled])
  have hvalues : holedRun.heap.base = 4096 ∧ blockSize holedRun.heap 128 = 128 := by decide +kernel
  have hfree : blockUsed holedRun.heap 128 = false := by decide +kernel
  have hbytes := heap_free_poisoned hreach (by decide +kernel) hfree
  rw [hvalues.1, hvalues.2, show 4096 + 128 + headerSize = 4272 from rfl] at hbytes
  exact ⟨hfree, hbytes⟩

/-! ## Placement -/

/-- In every state of every run an allocation is placed in the first free block that is
large enough. -/
theorem heap_first_fit {s : HeapRun γ} (hs : HeapReachable s) :
    ∃ bs, ArenaSound s.heap bs ∧ ∀ n, 0 < n → n + 63 ≤ uint64Max → NoFit bs (roundedSize n) ∨
      ∃ xs c ys h', bs = xs ++ c :: ys ∧ NoFit xs (roundedSize n) ∧ c.used = false ∧
        roundedSize n ≤ c.size ∧ heapCoreAlloc s.heap n =
          some (h', s.heap.base + span xs + headerSize) := by
  obtain ⟨bs, hg⟩ := goodRun_of_reachable hs
  have hi := hg.inv
  refine ⟨bs, hi.arenaSound, fun n hn hover => ?_⟩
  have hreq := requiredSize_eq hn
  rw [if_neg (Nat.not_lt.2 hover)] at hreq
  have hlinked : ∀ c ∈ bs, c.linked = true ↔ c.used = false :=
    fun c hc => by rw [(hi.ok c hc).linked, Bool.not_eq_true']
  obtain ⟨o, hfind, ⟨-, hnone⟩ | ⟨xs, c, ys, rfl, rfl, hl, hle, hbefore⟩⟩ :=
    findFit_spec hi.tiled (roundedSize n)
  · exact Or.inl fun c hc hu => hnone c hc ((hlinked c hc).2 hu)
  have hu := (hlinked c (by simp)).1 hl
  obtain ⟨h', halloc, -⟩ := allocateAt_spec hi hu (requiredSize_rounded hreq) hle
  refine Or.inr ⟨xs, c, ys, h', rfl, fun d hd hfree => ?_, hu, hle, ?_⟩
  · exact hbefore d hd ((hlinked d (by simp [hd])).2 hfree)
  · have hbase := hi.tiled.context.base_ne
    have hend := (hi.tiled.place_le (place_mid xs ys c)).2.2
    simp only [heapCoreAlloc, heapCoreValidate_of_inv hi, hreq, allocate, hfind, halloc,
      Option.bind_eq_bind, Option.bind_some, Option.pure_def]
    rw [if_neg (by omega), if_neg (by simp), if_pos (by omega), Option.bind_some, if_neg (by omega)]
    rfl

/-- What is on the free list is a free block of the arena. -/
theorem ArenaSound.free_block (hs : ArenaSound h bs) {o : Nat} (ho : o ∈ freeOffsets 0 bs) :
    ∃ c ∈ bs, c.used = false ∧ c.size = blockSize h o := by
  obtain ⟨⟨o, c⟩, hc, rfl⟩ := List.mem_map.1 ho
  rw [List.mem_filter, Bool.not_eq_true'] at hc
  exact ⟨c, mem_of_place hc.1, hc.2, (hs.headers o c hc.1).2.1.symm⟩

/-- The first free block is too small for the request; the second one takes it. -/
theorem heap_first_fit_holes : ∃ xs c ys h', ArenaSound holedRun.heap (xs ++ c :: ys) ∧
    span xs = 128 ∧ NoFit xs 96 ∧ c.used = false ∧ 96 ≤ c.size ∧
    heapCoreAlloc holedRun.heap 40 = some (h', 4272) := by
  have hvalues : holedRun.heap.base = 4096 ∧ holedRun.heap.freeHead = 0 ∧
      readField holedRun.heap 0 .freeNext = 128 ∧ blockSize holedRun.heap 128 = 128 := by
    decide +kernel
  obtain ⟨hbase, hhead, hnext, hsize⟩ := hvalues
  have hp : (heapCoreAlloc holedRun.heap 40).map Prod.snd = some 4272 := by decide +kernel
  obtain ⟨bs, hsound, hplaced⟩ := heap_first_fit holedRun_reachable
  rcases hplaced 40 (by decide) (by decide) with hno | ⟨xs, c, ys, h', rfl, hsmall, hu, hle, hcall⟩
  · -- the second block of the free list is large enough
    have hmem : 128 ∈ freeOffsets 0 bs := by
      have hlist := hsound.freeList
      rw [hhead] at hlist
      rcases hos : freeOffsets 0 bs with _ | ⟨o, _ | ⟨o', os⟩⟩ <;> rw [hos] at hlist
      · cases hlist
      · obtain ⟨rfl, -, hend⟩ := hlist
        cases hnext.symm.trans hend
      · obtain ⟨rfl, -, rfl, -⟩ := hlist
        simp [hnext]
    obtain ⟨c, hc, hu, hlarge⟩ := hsound.free_block hmem
    have hlt := hno c hc hu
    rw [hlarge, hsize] at hlt
    exact absurd hlt (by decide)
  · rw [hcall, hbase] at hp
    have hspan : 4096 + span xs + headerSize = 4272 := Option.some.inj hp
    rw [hbase, hspan] at hcall
    exact ⟨xs, c, ys, h', hsound, Nat.add_left_cancel (Nat.add_right_cancel hspan), hsmall, hu, hle,
      hcall⟩

/-- Whatever a run has allocated, resized and released, and in which order: once nothing is
allocated, the arena is one free block. -/
theorem heap_released_whole {s : HeapRun γ} (hs : HeapReachable s)
    (hnone : s.heap.liveAllocations = 0) :
    ∃ c, ArenaSound s.heap [c] ∧ c.used = false := by
  obtain ⟨bs, hg⟩ := goodRun_of_reachable hs
  have hi := hg.inv
  have hcount := hi.liveAllocations
  rw [hnone, usedCount_eq, eq_comm, List.length_eq_zero_iff, List.filter_eq_nil_iff] at hcount
  obtain ⟨xs, c, rfl⟩ := hi.exists_last
  have hc := hcount c (by simp)
  -- a block before the last one would be free too, and the two would have been merged
  obtain rfl : xs = [] := by
    rcases List.eq_nil_or_concat xs with rfl | ⟨ys, b, rfl⟩
    · rfl
    · have hmerged := hi.arenaSound.merged ys b c [] (by simp)
      exact absurd hmerged (not_or.2 ⟨hcount b (by simp), hc⟩)
  exact ⟨c, hi.arenaSound, Bool.eq_false_of_not_eq_true hc⟩

/-- The heap after two allocations, for which it had to grow, and their release. -/
theorem heap_released_whole_two : ∃ c, ArenaSound
    (smallRunAfter [.alloc 16, .alloc 16, .free 4144, .free 4208]).heap [c] ∧ c.used = false :=
  heap_released_whole (smallRunAfter_reachable (by simp [heapEnabled])) (by decide +kernel)

end Utamo.Heap
