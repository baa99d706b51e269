import Utamo.Heap.Interface
import Utamo.Lib.Transition
import Mathlib.Logic.Function.Basic

/-!
# Runs of the kernel heap

The heap with its clients. A run starts at a successful `heap_core_init`; clients call the four
operations with any arguments and write inside the requested bytes of what they hold, and the
context of the growth callback may change between calls in any way. `live` records what the
clients hold, from the results of the calls only.

`callEffect` is the step lemma: on a heap in good order every call returns, the heap is in good
order afterwards, the used blocks are again what the clients hold, and nothing but the allocation
passed to the call was touched. The theorems on runs follow from it.
-/

set_option autoImplicit false

namespace Utamo.Heap

open Lib Lib.ByteMemory

variable {γ : Type}
  {h : HeapCore γ} {size pointer : Nat} {bs : List Block}

/-- A heap with the allocations its clients hold: pointer to requested size. -/
structure HeapRun (γ : Type) where
  heap : HeapCore γ
  live : Nat → Option Nat

/-- What can happen to a heap. -/
inductive HeapCall (γ : Type)
  | alloc (size : Nat)
  | calloc (count size : Nat)
  | free (pointer : Nat)
  | realloc (pointer size : Nat)
  | write (pointer index : Nat) (value : UInt8)
  | context (context : γ)

/-- The allocations after a call that returned `pointer` for a request of `size` bytes. -/
def withAlloc (live : Nat → Option Nat) (pointer size : Nat) : Nat → Option Nat :=
  if pointer = 0 then live else Function.update live pointer (some size)

/-- The allocations after `heap_core_realloc(pointer, size)` returned `result`. -/
def withRealloc (live : Nat → Option Nat) (pointer size result : Nat) : Nat → Option Nat :=
  if pointer = 0 then withAlloc live result size
  else if size = 0 then Function.update live pointer none
  else if result = 0 then live
  else Function.update (Function.update live pointer none) result (some size)

/-- One call, or one client write. -/
def heapExec (s : HeapRun γ) : HeapCall γ → Option (HeapRun γ)
  | .alloc size => do
      let (h, pointer) ← heapCoreAlloc s.heap size
      return ⟨h, withAlloc s.live pointer size⟩
  | .calloc count size => do
      let (h, pointer) ← heapCoreCalloc s.heap count size
      return ⟨h, withAlloc s.live pointer (count * size)⟩
  | .free pointer => do
      let (h, freed) ← heapCoreFree s.heap pointer
      return ⟨h, if freed ∧ pointer ≠ 0 then Function.update s.live pointer none else s.live⟩
  | .realloc pointer size => do
      let (h, result) ← heapCoreRealloc s.heap pointer size
      return ⟨h, withRealloc s.live pointer size result⟩
  | .write pointer index value =>
    some ⟨{ s.heap with memory := Function.update s.heap.memory (pointer + index) value }, s.live⟩
  | .context context => some ⟨{ s.heap with ops := { s.heap.ops with context } }, s.live⟩

/-- Clients write inside the requested bytes of what they hold. -/
def heapEnabled (s : HeapRun γ) : HeapCall γ → Prop
  | .write pointer index _ => ∃ size, s.live pointer = some size ∧ index < size
  | _ => True

/-- The state after a successful `heap_core_init`. -/
def heapStart (s : HeapRun γ) : Prop :=
  (∃ h base initialSize maxSize growthSize debugPoison ops,
    heapCoreInit h base initialSize maxSize growthSize debugPoison ops = some s.heap) ∧
    s.live = fun _ => none

/-- The states of all runs. -/
def HeapReachable (s : HeapRun γ) : Prop := Reachable heapStart heapEnabled heapExec s

/-! ## The step lemma -/

/-- The used blocks are the allocations of the clients. -/
def Represents (h : HeapCore γ) (bs : List Block) (live : Nat → Option Nat) : Prop :=
  ∀ pointer size, live pointer = some size ↔
    ∃ o c, UsedAt bs o c ∧ pointer = h.base + o + 48 ∧ size = c.requested

/-- A heap in good order whose used blocks are the allocations of its clients. -/
structure GoodRun (s : HeapRun γ) (bs : List Block) : Prop where
  inv : HeapInv s.heap bs
  represents : Represents s.heap bs s.live
  poisoned : Poisoned s.heap bs

/-- The allocation a call is about. -/
def passed : HeapCall γ → Option Nat
  | .free pointer => some pointer
  | .realloc pointer _ => some pointer
  | .write pointer _ _ => some pointer
  | _ => none

/-- What a call does to the blocks: of the used blocks it changes at most the one passed to it. -/
structure CallEffect (s : HeapRun γ) (bs : List Block) (call : HeapCall γ) (t : HeapRun γ)
    (bs' : List Block) : Prop where
  good : GoodRun t bs'
  touched : ∃ touched : Nat → Prop, Evolves touched s.heap bs t.heap bs' ∧
    ∀ o c, touched o → UsedAt bs o c → passed call = some (s.heap.base + o + 48)

theorem withAlloc_null (live : Nat → Option Nat) (size : Nat) : withAlloc live 0 size = live := by
  simp [withAlloc]

section Effects

variable {s : HeapRun γ} {bs bs' : List Block} {h' : HeapCore γ} {live' : Nat → Option Nat}
  {touched : Nat → Prop}

/-- The allocations at the touched offsets decide whether the blocks still represent them. -/
theorem Represents.of_evolves (hrep : Represents s.heap bs s.live)
    (hev : Evolves touched s.heap bs h' bs')
    (hkeep : ∀ p, (∀ o, touched o → p ≠ s.heap.base + o + 48) → live' p = s.live p)
    (hset : ∀ o, touched o → ∀ n, live' (s.heap.base + o + 48) = some n ↔
      ∃ c, UsedAt bs' o c ∧ n = c.requested) :
    Represents h' bs' live' := by
  intro p n
  rw [hev.base]
  by_cases hp : ∃ o, touched o ∧ p = s.heap.base + o + 48
  · obtain ⟨o, ho, rfl⟩ := hp
    rw [hset o ho n]
    constructor
    · rintro ⟨c, hc, hn⟩
      exact ⟨o, c, hc, rfl, hn⟩
    · rintro ⟨o', c, hc, heq, hn⟩
      obtain rfl : o' = o := by omega
      exact ⟨c, hc, hn⟩
  · have hout : ∀ o, touched o → p ≠ s.heap.base + o + 48 := fun o ho heq => hp ⟨o, ho, heq⟩
    rw [hkeep p hout, hrep p n]
    constructor
    · rintro ⟨o, c, hc, heq, hn⟩
      exact ⟨o, c, (hev.used o c fun ho => hout o ho heq).2 hc, heq, hn⟩
    · rintro ⟨o, c, hc, heq, hn⟩
      exact ⟨o, c, (hev.used o c fun ho => hout o ho heq).1 hc, heq, hn⟩

/-- A call that changes no block and no allocation. -/
theorem callEffect_idle {call : HeapCall γ} (hg : GoodRun s bs) (hi : HeapInv h' bs)
    (hbase : h'.base = s.heap.base) (hpoison : h'.debugPoison = s.heap.debugPoison)
    (hmem : h'.memory = s.heap.memory) : CallEffect s bs call ⟨h', s.live⟩ bs := by
  have hev : Evolves (fun _ => False) s.heap bs h' bs := Evolves.of_memory_eq hbase hpoison hmem
  exact ⟨⟨hi, hg.represents.of_evolves hev (fun _ _ => rfl) nofun, hev.poisoned hg.poisoned⟩,
    _, hev, nofun⟩

/-- What the clients hold at the offset of a used block. -/
theorem requested_iff {o n : Nat} {c : Block} (ht : Tiled h bs)
    (hc : UsedAt bs o c) (hreq : c.requested = size) :
    some size = some n ↔ ∃ d, UsedAt bs o d ∧ n = d.requested := by
  subst hreq
  constructor
  · rintro ⟨⟩
    exact ⟨c, hc, rfl⟩
  · rintro ⟨d, hd, rfl⟩
    rw [usedAt_unique ht hd hc]

/-- A call that changes the allocation at one offset. -/
theorem callEffect_at {call : HeapCall γ} {o : Nat} {value : Option Nat} (hg : GoodRun s bs)
    (hi : HeapInv h' bs') (hev : Evolves (· = o) s.heap bs h' bs')
    (hvalue : ∀ n, value = some n ↔ ∃ c, UsedAt bs' o c ∧ n = c.requested)
    (hcall : ∀ d, UsedAt bs o d → passed call = some (s.heap.base + o + 48)) :
    CallEffect s bs call ⟨h', Function.update s.live (s.heap.base + o + 48) value⟩ bs' := by
  refine ⟨⟨hi, hg.represents.of_evolves hev ?_ ?_, hev.poisoned hg.poisoned⟩, _, hev, ?_⟩
  · exact fun p hp => Function.update_of_ne (hp o rfl) _ _
  · rintro o' rfl n
    simp only [Function.update_self]
    exact hvalue n
  · rintro o' d rfl hd
    exact hcall d hd

/-- Nothing is held at a pointer that leads to no block. -/
theorem GoodRun.live_eq_none (hg : GoodRun s bs)
    (hnone : ∀ o c, ¬ IsPayload s.heap bs pointer o c) :
    s.live pointer = none := by
  cases hl : s.live pointer with
  | none => rfl
  | some n =>
    obtain ⟨o, c, hc, hpo, -⟩ := (hg.represents pointer n).1 hl
    exact absurd ⟨hc.1, hc.2, hpo⟩ (hnone o c)

/-- An allocation. -/
theorem callEffect_alloc {call : HeapCall γ} (hg : GoodRun s bs)
    (hout : AllocOutcome s.heap bs size h' pointer bs') :
    CallEffect s bs call ⟨h', withAlloc s.live pointer size⟩ bs' := by
  by_cases hp : pointer = 0
  · obtain ⟨rfl, heq⟩ := hout.failed hp
    rw [hp, withAlloc_null]
    exact callEffect_idle hg hout.inv (by rw [heq]) (by rw [heq]) (by rw [heq])
  · obtain ⟨o, c, rfl, hc, hreq, hfresh, hev⟩ := hout.placed hp
    rw [withAlloc, if_neg hp]
    exact callEffect_at hg hout.inv hev (fun n => requested_iff hout.inv.tiled hc hreq)
      fun d hd => absurd hd (hfresh d)

/-- A release. -/
theorem callEffect_freed {call : HeapCall γ} {o : Nat} {b : Block} (hg : GoodRun s bs)
    (hpay : IsPayload s.heap bs pointer o b) (hi : HeapInv h' bs')
    (hev : Evolves (· = o) s.heap bs h' bs') (hgone : ∀ d, ¬ UsedAt bs' o d)
    (hcall : passed call = some pointer) :
    CallEffect s bs call ⟨h', Function.update s.live pointer none⟩ bs' := by
  obtain ⟨-, -, rfl⟩ := hpay
  exact callEffect_at hg hi hev (fun n => iff_of_false nofun fun ⟨d, hd, _⟩ => hgone d hd)
    fun _ _ => hcall

/-- A successful `heap_core_realloc`. -/
theorem callEffect_realloc {q : Nat} (hg : GoodRun s bs) (hp : pointer ≠ 0)
    (hsize : size ≠ 0) (hout : ReallocOutcome s.heap bs pointer size h' q bs') :
    CallEffect s bs (.realloc pointer size) ⟨h', withRealloc s.live pointer size q⟩ bs' := by
  cases hout with
  | failed heq =>
    have hlive : withRealloc s.live pointer size 0 = s.live := by simp [withRealloc, hp, hsize]
    rw [hlive]
    exact callEffect_idle hg (hg.inv.of_failed heq) (by rw [heq]) (by rw [heq]) (by rw [heq])
  | resized hpay hi hev hc hreq hbytes =>
    have hlive : withRealloc s.live pointer size pointer =
        Function.update s.live pointer (some size) := by
      simp [withRealloc, hp, hsize]
    rw [hlive]
    obtain ⟨-, -, rfl⟩ := hpay
    exact callEffect_at hg hi hev (fun n => requested_iff hi.tiled hc hreq) fun _ _ => rfl
  | moved hpay hi hev hq hfresh hc hreq hgone hbytes =>
    rename_i o o' b c
    have hpo : pointer = s.heap.base + o + 48 := hpay.2.2
    have hne : o ≠ o' := by
      rintro rfl
      exact hfresh b ⟨hpay.1, hpay.2.1⟩
    have hpq : pointer ≠ q := by omega
    have hlive : withRealloc s.live pointer size q =
        Function.update (Function.update s.live pointer none) q (some size) := by
      rw [withRealloc, if_neg hp, if_neg hsize, if_neg (by omega)]
    refine ⟨⟨hi, hg.represents.of_evolves hev ?_ ?_, hev.poisoned hg.poisoned⟩, _, hev, ?_⟩
    · intro p hout
      have h1 : p ≠ q := by
        rw [hq]
        exact hout o' (Or.inr rfl)
      have h2 : p ≠ pointer := by
        rw [hpo]
        exact hout o (Or.inl rfl)
      simp only [hlive, Function.update_of_ne h1, Function.update_of_ne h2]
    · rintro x (rfl | rfl) n
      · simp only [hlive, ← hpo, Function.update_of_ne hpq, Function.update_self]
        exact iff_of_false nofun fun ⟨d, hd, _⟩ => hgone d hd
      · simp only [hlive, ← hq, Function.update_self]
        exact requested_iff hi.tiled hc hreq
    · rintro x d (rfl | rfl) hd
      · rw [passed, hpo]
      · exact absurd hd (hfresh d)

/-- A client write. -/
theorem callEffect_write {index : Nat} {value : UInt8} (hg : GoodRun s bs)
    (hen : heapEnabled s (.write pointer index value)) :
    CallEffect s bs (.write pointer index value) ⟨{ s.heap with
      memory := Function.update s.heap.memory (pointer + index) value }, s.live⟩ bs := by
  obtain ⟨size, hlive, hlt⟩ := hen
  obtain ⟨o, c, hc, rfl, rfl⟩ := (hg.represents pointer size).1 hlive
  obtain ⟨-, hfits⟩ := hg.inv.fits hc
  obtain ⟨h1, hh1⟩ : ∃ g, g = { s.heap with
    memory := Function.update s.heap.memory (s.heap.base + o + 48 + index) value } := ⟨_, rfl⟩
  have hm : SameOutside s.heap h1 (o + 48) (o + c.size) := by
    intro a ha
    rw [hh1]
    exact Function.update_of_ne (by omega) _ _
  obtain ⟨hi1, hev⟩ := hg.inv.write_payload hc (hh1 ▸ ⟨rfl⟩) (by rw [hh1]) hm
  have hsame : CallEffect s bs (.write _ index value) _ _ :=
    callEffect_at hg hi1 hev (fun n => requested_iff hg.inv.tiled hc rfl) fun _ _ => rfl
  rw [← hlive, Function.update_eq_self] at hsame
  rw [← hh1]
  exact hsame

end Effects

/-- Every enabled call on a heap in good order returns, and touches at most the allocation passed
to it. -/
theorem callEffect {s : HeapRun γ} (hg : GoodRun s bs) (call : HeapCall γ)
    (hen : heapEnabled s call) :
    ∃ t bs', heapExec s call = some t ∧ CallEffect s bs call t bs' := by
  cases call with
  | alloc size =>
    obtain ⟨h', pointer, bs', hcall, hout, -⟩ := heapCoreAlloc_spec hg.inv size
    exact ⟨_, bs', by rw [heapExec, hcall]; rfl, callEffect_alloc hg hout⟩
  | calloc count size =>
    obtain ⟨h', pointer, bs', hcall, hout⟩ := heapCoreCalloc_spec hg.inv count size
    exact ⟨_, bs', by rw [heapExec, hcall]; rfl, callEffect_alloc hg hout⟩
  | free pointer =>
    obtain ⟨h', r, bs', hcall, hout⟩ := heapCoreFree_spec hg.inv pointer
    refine ⟨_, bs', by rw [heapExec, hcall]; rfl, ?_⟩
    cases hout with
    | null hp =>
      rw [if_neg (by simp [hp])]
      exact callEffect_idle hg hg.inv rfl rfl rfl
    | freed hpay hi hev hgone =>
      have hp : pointer ≠ 0 := by
        have h1 := hpay.2.2
        have h2 := hg.inv.tiled.context.base_ne
        omega
      rw [if_pos ⟨rfl, hp⟩]
      exact callEffect_freed hg hpay hi hev hgone rfl
    | rejected hp hnone =>
      rw [if_neg (by simp)]
      refine callEffect_idle hg ?_ rfl rfl rfl
      exact hg.inv.of_sameArena ⟨rfl, rfl, rfl, rfl, rfl, rfl, rfl⟩ ⟨rfl, rfl, rfl⟩
  | realloc pointer size =>
    by_cases hp : pointer = 0
    · obtain ⟨h', q, bs', hcall, hout, -⟩ := heapCoreAlloc_spec hg.inv size
      have hre : heapCoreRealloc s.heap pointer size = some (h', q) := by
        rw [heapCoreRealloc, if_pos hp, hcall]
      refine ⟨_, bs', by rw [heapExec, hre]; rfl, ?_⟩
      rw [withRealloc, if_pos hp]
      exact callEffect_alloc hg hout
    by_cases hsize : size = 0
    · obtain ⟨h', r, bs', hcall, hout⟩ := heapCoreFree_spec hg.inv pointer
      have hre : heapCoreRealloc s.heap pointer size = some (h', 0) := by
        rw [heapCoreRealloc, if_neg hp, if_pos hsize, hcall]
        rfl
      refine ⟨_, bs', by rw [heapExec, hre]; rfl, ?_⟩
      rw [withRealloc, if_neg hp, if_pos hsize]
      cases hout with
      | null h0 => exact absurd h0 hp
      | freed hpay hi hev hgone => exact callEffect_freed hg hpay hi hev hgone rfl
      | rejected _ hnone =>
        rw [← hg.live_eq_none hnone, Function.update_eq_self]
        refine callEffect_idle hg ?_ rfl rfl rfl
        exact hg.inv.of_sameArena ⟨rfl, rfl, rfl, rfl, rfl, rfl, rfl⟩ ⟨rfl, rfl, rfl⟩
    · obtain ⟨h', q, bs', hcall, hout⟩ := heapCoreRealloc_spec hg.inv hp hsize
      exact ⟨_, bs', by rw [heapExec, hcall]; rfl, callEffect_realloc hg hp hsize hout⟩
  | write pointer index value => exact ⟨_, bs, rfl, callEffect_write hg hen⟩
  | context context =>
    refine ⟨_, bs, rfl, callEffect_idle hg ?_ rfl rfl rfl⟩
    exact hg.inv.of_sameArena ⟨rfl, rfl, rfl, rfl, rfl, rfl, rfl⟩ ⟨rfl, rfl, rfl⟩

theorem goodRun_start {s : HeapRun γ} (hs : heapStart s) : ∃ bs, GoodRun s bs := by
  obtain ⟨⟨h, base, initialSize, maxSize, growthSize, debugPoison, ops, hinit⟩, hlive⟩ := hs
  obtain ⟨hi, hp⟩ := heapCoreInit_spec hinit
  refine ⟨_, hi, ?_, hp⟩
  intro p n
  rw [hlive]
  constructor
  · nofun
  · rintro ⟨o, c, ⟨hc, hu⟩, -⟩
    rw [List.mem_singleton.1 (mem_of_place hc)] at hu
    cases hu

/-- Every reachable heap is in good order, and every call enabled there returns. -/
theorem goodRun_of_reachable {s : HeapRun γ} (hs : HeapReachable s) : ∃ bs, GoodRun s bs := by
  have hstart : ∀ s : HeapRun γ, heapStart s → ∃ bs, GoodRun s bs := fun s hs => goodRun_start hs
  refine Reachable.invariant hstart ?_ hs
  rintro s call t ⟨bs, hg⟩ hen hex
  obtain ⟨t', bs', hex', heff⟩ := callEffect hg call hen
  rw [hex] at hex'
  cases hex'
  exact ⟨bs', heff.good⟩

/-! ## What every run keeps -/

/-- The arena offsets of the unused blocks, in order. -/
def freeOffsets (off : Nat) (bs : List Block) : List Nat :=
  ((place off bs).filter fun p => !p.2.used).map Prod.fst

/-- Following the free list from `current` gives the offsets of the list, with back links. -/
def FreeList (h : HeapCore γ) (prior current : Nat) : List Nat → Prop
  | [] => current = heapNone
  | o :: os =>
    current = o ∧ readField h o .freePrev = prior ∧ FreeList h o (readField h o .freeNext) os

/-- The arena of `h` is `bs`: the headers read from memory are those of blocks that tile the mapped
bytes, with boundary tags, merged free blocks, the free list and the counters. -/
structure ArenaSound (h : HeapCore γ) (bs : List Block) : Prop where
  tiles : span bs = h.mappedSize
  headers : ∀ o c, (o, c) ∈ place 0 bs → 64 ≤ c.size ∧ blockSize h o = c.size ∧
    blockUsed h o = c.used ∧ readField h o .requested = c.requested
  boundary : ∀ xs c ys, bs = xs ++ c :: ys → readField h (span xs) .prevSize = lastSize 0 xs
  merged : ∀ xs c d ys, bs = xs ++ c :: d :: ys → c.used = true ∨ d.used = true
  freeList : FreeList h heapNone h.freeHead (freeOffsets 0 bs)
  ascending : (freeOffsets 0 bs).Pairwise (· < ·)
  usedBytes : h.usedBytes = ((bs.filter (·.used)).map (·.requested)).sum
  liveAllocations : h.liveAllocations = (bs.filter (·.used)).length

theorem freeList_of_chain {off prev fp : Nat}
    (hlink : ∀ c ∈ bs, c.linked = !c.used)
    (hch : Chain (readField h) (blockCookie h) off prev fp bs heapNone) :
    FreeList h fp (firstLinked off bs heapNone) (freeOffsets off bs) := by
  induction bs generalizing off prev fp with
  | nil => rfl
  | cons c bs ih =>
    obtain ⟨hhd, hrest⟩ := hch
    have hc := hlink c (by simp)
    have hbs : ∀ d ∈ bs, d.linked = !d.used := fun d hd => hlink d (by simp [hd])
    cases hu : c.used with
    | true =>
      rw [hu] at hc
      have hoffs : freeOffsets off (c :: bs) = freeOffsets (off + c.size) bs := by
        simp [freeOffsets, place, hu]
      rw [hoffs, firstLinked, hc, if_neg (by simp)]
      rw [hc, if_neg (by simp)] at hrest
      exact ih hbs hrest
    | false =>
      rw [hu] at hc
      have hoffs : freeOffsets off (c :: bs) = off :: freeOffsets (off + c.size) bs := by
        simp [freeOffsets, place, hu]
      rw [hoffs, firstLinked, hc]
      rw [hc] at hrest
      refine ⟨rfl, ?_, ?_⟩
      · rw [hhd.freePrev, hc]
        rfl
      · rw [hhd.freeNext, hc]
        exact ih hbs hrest

/-- Blocks are placed one behind the other. -/
theorem place_ascending (off : Nat) (hpos : ∀ c ∈ bs, 0 < c.size) :
    ((place off bs).map Prod.fst).Pairwise (· < ·) := by
  induction bs generalizing off with
  | nil => exact List.Pairwise.nil
  | cons c bs ih =>
    rw [place, List.map_cons, List.pairwise_cons]
    refine ⟨fun x hx => ?_, ih _ fun d hd => hpos d (List.mem_cons_of_mem _ hd)⟩
    obtain ⟨⟨y, d⟩, hd, rfl⟩ := List.mem_map.1 hx
    have hlow := (place_bounds hd).1
    have hc := hpos c List.mem_cons_self
    simp only
    omega

theorem freeOffsets_ascending (off : Nat) (hpos : ∀ c ∈ bs, 0 < c.size) :
    (freeOffsets off bs).Pairwise (· < ·) :=
  (place_ascending off hpos).sublist (List.filter_sublist.map Prod.fst)

theorem requestedSum_eq (hok : ∀ c ∈ bs, BlockOk c) :
    requestedSum bs = ((bs.filter (·.used)).map (·.requested)).sum := by
  induction bs with
  | nil => rfl
  | cons c bs ih =>
    have hrest := ih fun d hd => hok d (by simp [hd])
    cases hu : c.used with
    | true => simp [requestedSum, hu, hrest]
    | false => simp [requestedSum, hu, (hok c (by simp)).free_request hu, hrest]

theorem usedCount_eq (bs : List Block) : usedCount bs = (bs.filter (·.used)).length := by
  induction bs with
  | nil => rfl
  | cons c bs ih =>
    cases hu : c.used with
    | true => simp [usedCount, hu, ih, Nat.add_comm]
    | false => simp [usedCount, hu, ih]

theorem HeapInv.arenaSound (hi : HeapInv h bs) :
    ArenaSound h bs := by
  have ht := hi.tiled
  refine ⟨ht.span_eq, ?_, ?_, ?_, ?_, freeOffsets_ascending 0 ht.size_pos, ?_, ?_⟩
  · intro o c hc
    obtain ⟨xs, ys, rfl, rfl⟩ := mem_place_iff.1 hc
    rw [Nat.zero_add]
    exact ⟨ht.size_ge c (by simp), ht.blockSize_eq, ht.blockUsed_eq, ht.header.requested⟩
  · rintro xs c ys rfl
    exact ht.header.prevSize
  · rintro xs c d ys rfl
    obtain ⟨-, -, hd, -⟩ := coalesced_append.1 hi.coalesced
    cases hu : c.used with
    | true => exact Or.inl rfl
    | false => exact Or.inr (hd (by rw [hu]; rfl))
  · rw [ht.head]
    exact freeList_of_chain (fun c hc => (hi.ok c hc).linked) ht.chain
  · rw [hi.usedBytes, requestedSum_eq hi.ok]
  · rw [hi.liveAllocations, usedCount_eq]

/-- In every state of every run the heap validates, its arena is in good order, and every enabled
call returns. -/
theorem heap_runs_validate {s : HeapRun γ} (hs : HeapReachable s) :
    heapCoreValidate s.heap = some true ∧ (∃ bs, ArenaSound s.heap bs) ∧
      ∀ call, heapEnabled s call → ∃ t, heapExec s call = some t := by
  obtain ⟨bs, hg⟩ := goodRun_of_reachable hs
  refine ⟨heapCoreValidate_of_inv hg.inv, ⟨bs, hg.inv.arenaSound⟩, fun call hen => ?_⟩
  obtain ⟨t, -, hex, -⟩ := callEffect hg call hen
  exact ⟨t, hex⟩

/-! ## A run -/

/-- A `struct heap_core` before `heap_core_init`. -/
def blankHeap : HeapCore Unit where
  base := 0
  mappedSize := 0
  maxSize := 0
  growthSize := 0
  freeHead := 0
  ops := ⟨(), none⟩
  usedBytes := 0
  liveAllocations := 0
  allocations := 0
  frees := 0
  peakUsage := 0
  failedAllocations := 0
  invalidFrees := 0
  debugPoison := false
  initialized := false
  memory := fun _ => 0

/-- A growth callback that always appends zeroed pages. -/
def willingOps : HeapOps Unit := ⟨(), some fun _ _ _ => ⟨true, (), fun _ => 0⟩⟩

/-- A heap of one small block that can grow to four. -/
def smallRun : HeapRun Unit where
  heap := (heapCoreInit blankHeap 4096 64 256 64 true willingOps).getD blankHeap
  live := fun _ => none

/-- The small heap after the calls. -/
def smallRunAfter (calls : List (HeapCall Unit)) : HeapRun Unit :=
  calls.foldl (fun s call => (heapExec s call).getD s) smallRun

theorem smallRunAfter_reachable {calls : List (HeapCall Unit)}
    (hen : ∀ call ∈ calls, ∀ s, heapEnabled s call) : HeapReachable (smallRunAfter calls) :=
  Reachable.foldl_getD (.start ⟨⟨blankHeap, 4096, 64, 256, 64, true, willingOps, rfl⟩, rfl⟩) hen

theorem smallRun_two_reachable : HeapReachable (smallRunAfter [.alloc 16, .calloc 4 8]) :=
  smallRunAfter_reachable (by simp [heapEnabled])

theorem heap_runs_validate_two :
    (smallRunAfter [.alloc 16, .calloc 4 8]).heap.liveAllocations = 2 ∧
      heapCoreValidate (smallRunAfter [.alloc 16, .calloc 4 8]).heap = some true :=
  ⟨by decide +kernel, (heap_runs_validate smallRun_two_reachable).1⟩

/-! ## Exclusive allocations -/

/-- The payload bytes of the block a pointer leads to. -/
def payloadSize (h : HeapCore γ) (pointer : Nat) : Nat :=
  blockSize h (pointer - h.base - headerSize) - headerSize

/-- An allocation of a client is a used block, and its payload is what follows the header. -/
theorem GoodRun.block {s : HeapRun γ} {p n : Nat} (hg : GoodRun s bs)
    (hp : s.live p = some n) :
    ∃ o c, UsedAt bs o c ∧ p = s.heap.base + o + 48 ∧ n = c.requested ∧
      payloadSize s.heap p + 48 = c.size := by
  obtain ⟨o, c, hc, hpo, hn⟩ := (hg.represents p n).1 hp
  refine ⟨o, c, hc, hpo, hn, ?_⟩
  obtain ⟨-, hsize, -⟩ := hg.inv.arenaSound.headers o c hc.1
  have hge := (hg.inv.tiled.place_le hc.1).2.1
  have hoff : p - s.heap.base - headerSize = o := by
    simp only [headerSize]
    omega
  rw [payloadSize, hoff, hsize, headerSize]
  omega

/-- In every state of every run the allocations are aligned, inside the arena, apart from each
other and from all headers; and a call leaves alone every allocation that was not passed to it. -/
theorem heap_allocations_exclusive {s : HeapRun γ} (hs : HeapReachable s) :
    (∀ p n, s.live p = some n → p % 16 = 0 ∧ s.heap.base ≤ p ∧ n ≤ payloadSize s.heap p ∧
      p + payloadSize s.heap p ≤ s.heap.base + s.heap.mappedSize) ∧
    (∀ p n q m, s.live p = some n → s.live q = some m → p ≠ q →
      p + payloadSize s.heap p ≤ q ∨ q + payloadSize s.heap q ≤ p) ∧
    (∀ p n o, s.live p = some n → exactBlock s.heap o = some (some o) →
      p + payloadSize s.heap p ≤ s.heap.base + o ∨ s.heap.base + o + headerSize ≤ p) ∧
    (∀ call t, heapEnabled s call → heapExec s call = some t → ∀ p n, s.live p = some n →
      passed call ≠ some p → t.live p = some n ∧
        ∀ i, i < payloadSize s.heap p → t.heap.memory (p + i) = s.heap.memory (p + i)) := by
  obtain ⟨bs, hg⟩ := goodRun_of_reachable hs
  have ht := hg.inv.tiled
  refine ⟨?_, ?_, ?_, ?_⟩
  · intro p n hp
    obtain ⟨o, c, hc, hpo, hn, hsize⟩ := hg.block hp
    have hle := ht.place_le hc.1
    have hal := ht.context.base_align
    have hoal := place_align ht.size_align hc.1
    have hfits := (hg.inv.fits hc).2
    omega
  · intro p n q m hp hq hne
    obtain ⟨o, c, hc, hpo, -, hsize⟩ := hg.block hp
    obtain ⟨o', d, hd, hqo, -, hsize'⟩ := hg.block hq
    rcases place_apart hc.1 hd.1 with ⟨rfl, -⟩ | hsep | hsep
    · exact absurd (hpo.trans hqo.symm) hne
    · exact Or.inl (by omega)
    · exact Or.inr (by omega)
  · intro p n o hp ho
    obtain ⟨o', c, hc, hpo, -, hsize⟩ := hg.block hp
    obtain ⟨r, hr, hiff⟩ := exactBlock_spec ht o
    rw [ho] at hr
    cases hr
    obtain ⟨d, hd⟩ := hiff.1 rfl
    have hge := (ht.place_le hd).2.1
    rw [headerSize]
    rcases place_apart hc.1 hd with ⟨rfl, -⟩ | hsep | hsep
    · exact Or.inr (by omega)
    · exact Or.inl (by omega)
    · exact Or.inr (by omega)
  · intro call t hen hex p n hp hpass
    obtain ⟨o, c, hc, hpo, hn, hsize⟩ := hg.block hp
    obtain ⟨t', bs', hex', heff⟩ := callEffect hg call hen
    rw [hex] at hex'
    cases hex'
    obtain ⟨touched, hev, htouched⟩ := heff.touched
    have ho : ¬ touched o := fun h1 => hpass (hpo ▸ htouched o c h1 hc)
    refine ⟨(heff.good.represents p n).2 ⟨o, c, (hev.used o c ho).2 hc, ?_, hn⟩, fun i hi => ?_⟩
    · rw [hev.base]
      exact hpo
    · exact hev.bytes o c ho hc (p + i) (by omega) (by omega)

theorem heap_allocations_exclusive_two :
    (smallRunAfter [.alloc 16, .calloc 4 8]).live 4144 = some 16 ∧
      (smallRunAfter [.alloc 16, .calloc 4 8]).live 4208 = some 32 ∧
      (4144 + payloadSize (smallRunAfter [.alloc 16, .calloc 4 8]).heap 4144 ≤ 4208 ∨
        4208 + payloadSize (smallRunAfter [.alloc 16, .calloc 4 8]).heap 4208 ≤ 4144) :=
  ⟨by decide +kernel, by decide +kernel,
    (heap_allocations_exclusive smallRun_two_reachable).2.1 4144 16 4208 32 (by decide +kernel)
      (by decide +kernel) (by decide)⟩

/-- In every state of every run `heap_core_free` accepts `NULL` and the allocations of the clients,
and a refusal changes nothing but the counter of invalid frees. -/
theorem heapCoreFree_accepts_live {s : HeapRun γ} (hs : HeapReachable s) (p : Nat) :
    ∃ h' r, heapCoreFree s.heap p = some (h', r) ∧
      (r = true ↔ p = 0 ∨ ∃ n, s.live p = some n) ∧
      (r = false → h' = { s.heap with invalidFrees := increment s.heap.invalidFrees }) := by
  obtain ⟨bs, hg⟩ := goodRun_of_reachable hs
  obtain ⟨h', r, bs', hcall, hout⟩ := heapCoreFree_spec hg.inv p
  refine ⟨h', r, hcall, ?_⟩
  cases hout with
  | null hp => exact ⟨by simp [hp], nofun⟩
  | freed hpay hi hev hgone =>
    rename_i o b
    have hlive : s.live p = some b.requested :=
      (hg.represents p b.requested).2 ⟨o, b, ⟨hpay.1, hpay.2.1⟩, hpay.2.2, rfl⟩
    exact ⟨by simp [hlive], nofun⟩
  | rejected hp hnone =>
    refine ⟨⟨nofun, ?_⟩, fun _ => rfl⟩
    rintro (h0 | ⟨n, hn⟩)
    · exact absurd h0 hp
    · rw [hg.live_eq_none hnone] at hn
      cases hn

theorem heapCoreFree_accepts_live_interior :
    ∃ h', heapCoreFree (smallRunAfter [.alloc 16, .calloc 4 8]).heap 4160 = some (h', false) ∧
      h'.invalidFrees = 1 := by
  obtain ⟨h', r, hcall, hiff, hsame⟩ := heapCoreFree_accepts_live smallRun_two_reachable 4160
  have hr : r = false := by
    cases r with
    | false => rfl
    | true =>
      have hnot : (smallRunAfter [.alloc 16, .calloc 4 8]).live 4160 = none := by decide +kernel
      rcases hiff.1 rfl with h0 | ⟨n, hn⟩
      · cases h0
      · rw [hnot] at hn
        cases hn
  refine ⟨h', hr ▸ hcall, ?_⟩
  rw [hsame hr]
  decide +kernel

end Utamo.Heap
