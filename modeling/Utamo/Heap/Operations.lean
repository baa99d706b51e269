import Utamo.Heap.Splice

/-!
# The internal operations of the heap

What `allocate`, `grow_heap`, `release`, `resize_block` and `consume_next` do to a heap that
satisfies the invariant. Each of them returns, keeps the invariant for a new list of blocks, and
keeps every used block except the ones at the offsets it is responsible for, with all payload
bytes (`Evolves`).

All of them replace a group of neighbouring blocks by another group over the same bytes, or over
more bytes at the end of the arena; `evolves_splice` is the common argument.
-/

set_option autoImplicit false

namespace Utamo.Heap

open Lib Lib.ByteMemory

variable {γ : Type} {h h' h'' : HeapCore γ} {bs bs' bs'' xs ys mid mid' : List Block} {b : Block}
  {needed : Nat} {f : Block}

/-! ## What an operation leaves alone -/

/-- The used block at an arena offset. -/
def UsedAt (bs : List Block) (o : Nat) (b : Block) : Prop :=
  (o, b) ∈ place 0 bs ∧ b.used = true

/-- With debug poison on, the payload of every unused block is filled with `0xdd`. -/
def Poisoned (h : HeapCore γ) (bs : List Block) : Prop :=
  h.debugPoison = true → ∀ o c, (o, c) ∈ place 0 bs → c.used = false →
    ∀ a, h.base + o + 48 ≤ a → a < h.base + o + c.size → h.memory a = 0xdd

/-- From `h` with the blocks `bs` to `h'` with the blocks `bs'`: used blocks outside the offsets
`touched` are the same before and after, and so are their payload bytes. -/
structure Evolves (touched : Nat → Prop) (h : HeapCore γ) (bs : List Block) (h' : HeapCore γ)
    (bs' : List Block) : Prop where
  base : h'.base = h.base
  debugPoison : h'.debugPoison = h.debugPoison
  used : ∀ o c, ¬ touched o → (UsedAt bs' o c ↔ UsedAt bs o c)
  bytes : ∀ o c, ¬ touched o → UsedAt bs o c →
    ∀ a, h.base + o + 48 ≤ a → a < h.base + o + c.size → h'.memory a = h.memory a
  poisoned : Poisoned h bs → Poisoned h' bs'

namespace Evolves

variable {touched touched' : Nat → Prop}

theorem mono (hev : Evolves touched h bs h' bs') (hsub : ∀ o, touched o → touched' o) :
    Evolves touched' h bs h' bs' :=
  ⟨hev.base, hev.debugPoison, fun o c ho => hev.used o c fun ht => ho (hsub o ht),
    fun o c ho => hev.bytes o c fun ht => ho (hsub o ht), hev.poisoned⟩

theorem trans (h1 : Evolves touched h bs h' bs') (h2 : Evolves touched h' bs' h'' bs'') :
    Evolves touched h bs h'' bs'' := by
  refine ⟨h2.base.trans h1.base, h2.debugPoison.trans h1.debugPoison, ?_, ?_,
    fun hp => h2.poisoned (h1.poisoned hp)⟩
  · intro o c ho
    exact (h2.used o c ho).trans (h1.used o c ho)
  · intro o c ho hc a hlo hhi
    rw [h2.bytes o c ho ((h1.used o c ho).2 hc) a (by rw [h1.base]; exact hlo)
      (by rw [h1.base]; exact hhi), h1.bytes o c ho hc a hlo hhi]

/-- Changes outside the arena record's bytes, such as counters and the callback context. -/
theorem of_memory_eq (hbase : h'.base = h.base) (hpoison : h'.debugPoison = h.debugPoison)
    (hmem : h'.memory = h.memory) : Evolves touched h bs h' bs := by
  refine ⟨hbase, hpoison, fun _ _ _ => Iff.rfl, fun _ _ _ _ a _ _ => by rw [hmem], ?_⟩
  intro hp hflag o c hc hu a hlo hhi
  rw [hmem]
  exact hp (hpoison ▸ hflag) o c hc hu a (hbase ▸ hlo) (hbase ▸ hhi)

theorem refl (h : HeapCore γ) (bs : List Block) : Evolves touched h bs h bs :=
  of_memory_eq rfl rfl rfl

end Evolves

theorem mem_place_splice {o : Nat} {c : Block} :
    (o, c) ∈ place 0 (xs ++ (mid ++ ys)) ↔ (o, c) ∈ place 0 xs ∨ (o, c) ∈ place (span xs) mid ∨
      (o, c) ∈ place (span xs + span mid) ys := by
  rw [place_append, place_append, List.mem_append, List.mem_append, Nat.zero_add]

/-- The used blocks of a group are at touched offsets. -/
def TouchedIn (touched : Nat → Prop) (off : Nat) (mid : List Block) : Prop :=
  ∀ o c, (o, c) ∈ place off mid → c.used = true → touched o

section Touched

variable {touched : Nat → Prop} {off : Nat}

theorem touchedIn_unused (h : ∀ c ∈ mid, c.used = false) : TouchedIn touched off mid := by
  intro o c hc hu
  rw [h c (mem_of_place hc)] at hu
  cases hu

theorem TouchedIn.cons (hb : touched off) (h : TouchedIn touched (off + b.size) mid) :
    TouchedIn touched off (b :: mid) := by
  intro o c hc hu
  rcases List.mem_cons.1 hc with hc | hc
  · cases hc
    exact hb
  · exact h o c hc hu

theorem TouchedIn.append (h : TouchedIn touched off mid)
    (h' : TouchedIn touched (off + span mid) mid') : TouchedIn touched off (mid ++ mid') := by
  intro o c hc hu
  rw [place_append] at hc
  exact (List.mem_append.1 hc).elim (h o c · hu) (h' o c · hu)

end Touched

/-- Replacing the group `mid` by `mid'`, with writes to headers and to the bytes of the group. -/
theorem evolves_splice {touched : Nat → Prop} (ht : Tiled h (xs ++ (mid ++ ys)))
    (hspan : span mid' = span mid ∨ ys = []) (hbase : h'.base = h.base)
    (hpoison : h'.debugPoison = h.debugPoison)
    (hmem : ∀ a, OutsideHeaders h (xs ++ (mid ++ ys)) a →
      a < h.base + span xs ∨ h.base + span xs + span mid ≤ a → a < h.base + h.mappedSize →
      h'.memory a = h.memory a)
    (hused : TouchedIn touched (span xs) mid) (hused' : TouchedIn touched (span xs) mid')
    (hfresh : h.debugPoison = true → ∀ o c, (o, c) ∈ place (span xs) mid' → c.used = false →
      ∀ a, h.base + o + 48 ≤ a → a < h.base + o + c.size → h'.memory a = 0xdd) :
    Evolves touched h (xs ++ (mid ++ ys)) h' (xs ++ (mid' ++ ys)) := by
  -- The blocks behind the group keep their places.
  have hback : ∀ o c, (o, c) ∈ place (span xs + span mid') ys ↔
      (o, c) ∈ place (span xs + span mid) ys := by
    intro o c
    rcases hspan with hspan | rfl
    · rw [hspan]
    · simp [place]
  have hkeep : ∀ o c, (o, c) ∈ place 0 xs ∨ (o, c) ∈ place (span xs + span mid) ys →
      ∀ a, h.base + o + 48 ≤ a → a < h.base + o + c.size → h'.memory a = h.memory a := by
    intro o c hc a hlo hhi
    have hc' : (o, c) ∈ place 0 (xs ++ (mid ++ ys)) :=
      mem_place_splice.2 (hc.imp id Or.inr)
    have hle := ht.place_le hc'
    refine hmem a (fun x d hd => ht.payload_outside hc' hd hlo hhi) ?_ (by omega)
    rcases hc with hc | hc
    · have := place_bounds hc
      exact Or.inl (by omega)
    · have := place_bounds hc
      exact Or.inr (by omega)
  refine ⟨hbase, hpoison, ?_, ?_, ?_⟩
  · intro o c ho
    simp only [UsedAt, mem_place_splice, hback]
    constructor
    · rintro ⟨hc | hc | hc, hu⟩
      · exact ⟨Or.inl hc, hu⟩
      · exact absurd (hused' o c hc hu) ho
      · exact ⟨Or.inr (Or.inr hc), hu⟩
    · rintro ⟨hc | hc | hc, hu⟩
      · exact ⟨Or.inl hc, hu⟩
      · exact absurd (hused o c hc hu) ho
      · exact ⟨Or.inr (Or.inr hc), hu⟩
  · intro o c ho hc a hlo hhi
    obtain ⟨hc, hu⟩ := hc
    rw [mem_place_splice] at hc
    rcases hc with hc | hc | hc
    · exact hkeep o c (Or.inl hc) a hlo hhi
    · exact absurd (hused o c hc hu) ho
    · exact hkeep o c (Or.inr hc) a hlo hhi
  · intro hp hflag o c hc hu a hlo hhi
    rw [hpoison] at hflag
    rw [hbase] at hlo hhi
    rw [mem_place_splice, hback] at hc
    rcases hc with hc | hc | hc
    · rw [hkeep o c (Or.inl hc) a hlo hhi]
      exact hp hflag o c (mem_place_splice.2 (Or.inl hc)) hu a hlo hhi
    · exact hfresh hflag o c hc hu a hlo hhi
    · rw [hkeep o c (Or.inr hc) a hlo hhi]
      exact hp hflag o c (mem_place_splice.2 (Or.inr (Or.inr hc))) hu a hlo hhi

/-- The fields of the record that the tiling depends on are the same. -/
structure SameArena (h h' : HeapCore γ) : Prop where
  base : h'.base = h.base
  mappedSize : h'.mappedSize = h.mappedSize
  maxSize : h'.maxSize = h.maxSize
  growthSize : h'.growthSize = h.growthSize
  freeHead : h'.freeHead = h.freeHead
  initialized : h'.initialized = h.initialized
  memory : h'.memory = h.memory

theorem Tiled.of_sameArena (ht : Tiled h bs) (hs : SameArena h h') : Tiled h' bs := by
  obtain ⟨hbase, hmapped, hmax, hgrowth, hhead, hinitialized, hmemory⟩ := hs
  cases h
  cases h'
  subst hbase hmapped hmax hgrowth hhead hinitialized hmemory
  exact ⟨{ ht.context with }, ht.chain, ht.span_eq, ht.head, ht.size_ge, ht.size_align⟩

/-- One block becomes a used block of the same size. -/
theorem evolves_block {b' : Block} (ht : Tiled h (xs ++ b :: ys)) (hsize : b'.size = b.size)
    (hu : b'.used = true) (hbase : h'.base = h.base) (hpoison : h'.debugPoison = h.debugPoison)
    (hmem : ∀ a, OutsideHeaders h (xs ++ b :: ys) a →
      a < h.base + span xs ∨ h.base + span xs + b.size ≤ a → h'.memory a = h.memory a) :
    Evolves (· = span xs) h (xs ++ b :: ys) h' (xs ++ b' :: ys) := by
  have key : Evolves (· = span xs) h (xs ++ ([b] ++ ys)) h' (xs ++ ([b'] ++ ys)) := by
    refine evolves_splice ht (Or.inl (by simp [hsize])) hbase hpoison ?_ (.cons rfl nofun)
      (.cons rfl nofun) ?_
    · intro a ha hout _
      exact hmem a ha (by simpa using hout)
    · intro _ o c hc hcu
      rw [List.mem_singleton.1 (mem_of_place hc), hu] at hcu
      cases hcu
  exact key

/-! ## Trimming -/

/-- A list of blocks in good order: every block is, and unused ones are merged. -/
structure Ordered (bs : List Block) : Prop where
  ok : ∀ c ∈ bs, BlockOk c
  coalesced : Coalesced false bs

theorem Coalesced.weaken {free : Bool} (hco : Coalesced free ys) : Coalesced false ys := by
  cases ys with
  | nil => trivial
  | cons c ys => exact ⟨nofun, hco.2⟩

theorem coalesced_dropLead {free : Bool} (hco : Coalesced free ys) :
    Coalesced true (dropLead ys) := by
  cases ys with
  | nil => trivial
  | cons c ys =>
    simp only [dropLead]
    cases hu : c.used with
    | true =>
      rw [if_pos rfl]
      exact ⟨fun _ => hu, hco.2⟩
    | false =>
      rw [if_neg (by simp)]
      have hrest := hco.2
      rw [hu] at hrest
      exact hrest

theorem requestedSum_dropLead (hok : ∀ c ∈ ys, BlockOk c) :
    requestedSum (dropLead ys) = requestedSum ys := by
  cases ys with
  | nil => rfl
  | cons c ys =>
    simp only [dropLead]
    split
    · rfl
    · rename_i hu
      rw [requestedSum, (hok c (by simp)).free_request (by simpa using hu), Nat.zero_add]

theorem usedCount_dropLead (ys : List Block) : usedCount (dropLead ys) = usedCount ys := by
  cases ys with
  | nil => rfl
  | cons c ys =>
    simp only [dropLead]
    split
    · rfl
    · rename_i hu
      rw [usedCount, if_neg hu, Nat.zero_add]

/-- A merged free block of any size is in good order. -/
theorem blockOk_free (size : Nat) : BlockOk ⟨size, false, true, 0⟩ :=
  ⟨rfl, nofun, fun _ => rfl⟩

section Trim

variable {needed : Nat}

/-- A used block in place of another one. -/
theorem Ordered.replace {b' : Block} (ho : Ordered (xs ++ b :: ys)) (hb : BlockOk b')
    (hu : b'.used = true) : Ordered (xs ++ b' :: ys) := by
  obtain ⟨hokx, -, hoky⟩ := forall_mem_mid.1 ho.ok
  obtain ⟨hx, hby⟩ := coalesced_append.1 ho.coalesced
  refine ⟨forall_mem_mid.2 ⟨hokx, hb, hoky⟩, coalesced_append.2 ⟨hx, fun _ => hu, ?_⟩⟩
  rw [hu]
  exact hby.2.weaken

theorem Ordered.trimmed (ho : Ordered (xs ++ b :: ys)) (hu : b.used = true)
    (hreq : b.requested + 48 ≤ needed) : Ordered (xs ++ trimmed b needed ys) := by
  obtain ⟨hokx, hb, hoky⟩ := forall_mem_mid.1 ho.ok
  obtain ⟨hx, hby⟩ := coalesced_append.1 ho.coalesced
  unfold Heap.trimmed
  split
  · exact ho
  · constructor
    · refine forall_mem_mid.2 ⟨hokx, ?_, List.forall_mem_cons.2 ⟨blockOk_free _, fun c hc => ?_⟩⟩
      · exact ⟨hb.linked, fun h1 => ⟨(hb.used_request h1).1, hreq⟩, hb.free_request⟩
      · exact hoky c (mem_of_dropLead hc)
    · refine coalesced_append.2 ⟨hx, fun _ => hu, ?_, ?_⟩
      · simp [hu]
      · exact coalesced_dropLead hby.2

theorem requestedSum_trimmed (hok : ∀ c ∈ ys, BlockOk c) :
    requestedSum (trimmed b needed ys) = requestedSum (b :: ys) := by
  unfold trimmed
  split
  · rfl
  · simp [requestedSum, requestedSum_dropLead hok]

theorem usedCount_trimmed : usedCount (trimmed b needed ys) = usedCount (b :: ys) := by
  unfold trimmed
  split
  · rfl
  · simp [usedCount, usedCount_dropLead]

/-- The size of the block that `trim_block` keeps. -/
def keptSize (b : Block) (needed : Nat) : Nat := if b.size - needed < 64 then b.size else needed

theorem trimmed_head (b : Block) (needed : Nat) (ys : List Block) :
    ∃ rest, trimmed b needed ys = { b with size := keptSize b needed } :: rest := by
  unfold trimmed keptSize
  split
  · exact ⟨ys, rfl⟩
  · exact ⟨_, rfl⟩

theorem usedAt_trimmed (hu : b.used = true) :
    UsedAt (xs ++ trimmed b needed ys) (span xs) { b with size := keptSize b needed } := by
  obtain ⟨rest, hrest⟩ := trimmed_head b needed ys
  rw [hrest]
  exact ⟨place_mid xs rest _, hu⟩

theorem le_keptSize (hle : needed ≤ b.size) : needed ≤ keptSize b needed := by
  unfold keptSize
  split
  · exact hle
  · exact le_refl _

/-- `trim_block` touches the trimmed block only, and of it only the bytes behind `needed`. -/
theorem trimBlock_evolves (ht : Tiled h (xs ++ b :: ys)) (hu : b.used = true)
    (hl : b.linked = false) (hlink : ∀ c ∈ ys, c.linked = !c.used) (hneed : 64 ≤ needed)
    (hal : needed % 16 = 0) (hle : needed ≤ b.size) :
    ∃ h', trimBlock h (span xs) needed = some h' ∧ Tiled h' (xs ++ trimmed b needed ys) ∧
      SameState h h' ∧
      Evolves (· = span xs) h (xs ++ b :: ys) h' (xs ++ trimmed b needed ys) ∧
      (∀ a, h.base + span xs + 48 ≤ a → a < h.base + span xs + needed →
        h'.memory a = h.memory a) := by
  obtain ⟨h', htrim, ht', hs, hmem, hpoison⟩ := trimBlock_spec ht hu hl hlink hneed hal hle
  refine ⟨h', htrim, ht', hs, ?_, ?_⟩
  · by_cases hsmall : b.size - needed < 64
    · simp only [trimmed, trimEnd, if_pos hsmall] at hmem ⊢
      exact evolves_block ht rfl hu hs.base hs.debugPoison fun a ha hout => hmem a ha (by omega)
    · simp only [trimmed, trimEnd, if_neg hsmall] at hmem hpoison ⊢
      have hspan : span (b :: lead ys) = b.size + leadFree ys := by rw [span_cons, span_lead]
      have hsplit : xs ++ b :: ys = xs ++ (b :: lead ys ++ dropLead ys) := by
        simp [lead_append_dropLead]
      rw [hsplit] at ht hmem ⊢
      have key : Evolves (· = span xs) h (xs ++ (b :: lead ys ++ dropLead ys)) h'
          (xs ++ ([{ b with size := needed }, ⟨b.size - needed + leadFree ys, false, true, 0⟩] ++
            dropLead ys)) := by
        refine evolves_splice ht (Or.inl ?_) hs.base hs.debugPoison ?_
          (.cons rfl (touchedIn_unused fun _ => lead_unused))
            (.cons rfl (touchedIn_unused (by simp))) ?_
        · simp only [hspan, span_cons, span_nil]
          omega
        · intro a ha hout _
          rw [hspan] at hout
          exact hmem a ha (by omega)
        · intro hflag o c hc hcu a hlo hhi
          simp only [place, List.mem_cons, Prod.mk.injEq, List.not_mem_nil, or_false] at hc
          rcases hc with ⟨-, rfl⟩ | ⟨rfl, rfl⟩
          · rw [hu] at hcu
            cases hcu
          · simp only at hhi
            exact hpoison hflag a (by omega) (by omega)
      exact key
  · intro a hlo hhi
    refine hmem a ?_ (Or.inl hhi)
    intro x c hc
    exact ht.payload_outside (place_mid xs ys b) hc hlo (by omega)

end Trim

/-! ## Rewriting one block -/

/-- `block->requested = value` -/
theorem Tiled.setRequested {value : Nat} (ht : Tiled h (xs ++ b :: ys)) (hl : b.linked = false)
    (hv : value < 2 ^ 64) :
    Tiled (writeField h (span xs) .requested value)
      (xs ++ { b with requested := value } :: ys) := by
  have hge := ht.size_ge b (by simp)
  have hb := ht.header
  refine tiled_rewrite ht hl (by exact hl) rfl (writeField_same _ _ _) rfl
    (sameOutside_writeField (le_refl _) (by omega)) ?_
  refine HeaderIs.congr ?_ (readField_writeField hv (Or.inl rfl))
  constructor
  · simpa [upd] using hb.sizeFlags
  · simpa [upd] using hb.prevSize
  · simp [upd]
  · simpa [upd, hl] using hb.freePrev
  · simpa [upd, hl] using hb.freeNext
  · simpa [upd] using hb.cookie

/-- `block->size_flags |= UTAMO_HEAP_USED` -/
theorem Tiled.setUsed (ht : Tiled h (xs ++ b :: ys)) (hl : b.linked = false)
    (hu : b.used = false) :
    Tiled (writeField h (span xs) .sizeFlags (readField h (span xs) .sizeFlags ||| heapUsed))
      (xs ++ { b with used := true } :: ys) := by
  have hge := ht.size_ge b (by simp)
  have hal := ht.size_align b (by simp)
  have hb := ht.header
  have hle := ht.place_le (place_mid xs ys b)
  have hmap := ht.mapped_lt
  have hnone : heapNone = 2 ^ 64 - 1 := rfl
  have hflags : readField h (span xs) .sizeFlags ||| heapUsed = b.size + 1 := by
    rw [hb.sizeFlags, hu, if_neg (by simp), Nat.add_zero]
    exact or_one_of_even (by omega)
  rw [hflags]
  refine tiled_rewrite ht hl (by exact hl) rfl (writeField_same _ _ _) rfl
    (sameOutside_writeField (le_refl _) (by omega)) ?_
  refine HeaderIs.congr ?_ (readField_writeField (by omega) (Or.inl rfl))
  constructor
  · simp [upd]
  · simpa [upd] using hb.prevSize
  · simpa [upd] using hb.requested
  · simpa [upd, hl] using hb.freePrev
  · simpa [upd, hl] using hb.freeNext
  · simpa [upd] using hb.cookie

/-! ## Allocation -/

/-- `needed` is the block size for a request of `requested` bytes. -/
structure Rounded (requested needed : Nat) : Prop where
  pos : 0 < requested
  fits : requested + 48 ≤ needed
  align : needed % 16 = 0
  lt : needed < 2 ^ 64

theorem Rounded.ge {requested : Nat} (hr : Rounded requested needed) : 64 ≤ needed := by
  have h1 := hr.pos
  have h2 := hr.fits
  have h3 := hr.align
  omega

theorem requiredSize_rounded {requested : Nat} (hr : requiredSize requested = some needed) :
    Rounded requested needed := by
  simp only [requiredSize] at hr
  split at hr
  · cases hr
  · rename_i hguard
    simp only [headerSize, heapFlagMask, uint64Max, alignDown, Option.some.injEq] at hr hguard
    exact ⟨by omega, by omega, by omega, by omega⟩

/-- The block size for a request. -/
def roundedSize (size : Nat) : Nat := alignDown (size + 63) 16

theorem requiredSize_eq {size : Nat} (hsize : 0 < size) :
    requiredSize size = if uint64Max < size + 63 then none else some (roundedSize size) := by
  have hextra : headerSize + heapFlagMask = 63 := rfl
  simp only [requiredSize, hextra]
  by_cases hover : uint64Max < size + 63
  · rw [if_pos hover, if_pos (by omega)]
  · rw [if_neg hover, if_neg (by omega)]
    rfl

theorem raisePeak_eq (h : HeapCore γ) :
    raisePeak h = { h with peakUsage := max h.peakUsage h.usedBytes } := by
  unfold raisePeak
  split
  · rw [Nat.max_eq_right (by omega)]
  · rw [Nat.max_eq_left (by omega)]

namespace SameState

theorem counters (hs : SameState h h') : h'.usedBytes = h.usedBytes ∧
    h'.liveAllocations = h.liveAllocations ∧ h'.peakUsage = h.peakUsage := by
  rw [hs.eq]
  exact ⟨rfl, rfl, rfl⟩

theorem usedBytes (hs : SameState h h') : h'.usedBytes = h.usedBytes := by rw [hs.eq]

theorem liveAllocations (hs : SameState h h') : h'.liveAllocations = h.liveAllocations := by
  rw [hs.eq]

theorem peakUsage (hs : SameState h h') : h'.peakUsage = h.peakUsage := by rw [hs.eq]

end SameState

theorem fillArena_same (o n : Nat) (v : UInt8) : SameState h (fillArena h o v n) := ⟨rfl⟩

/-- A block that fits is taken off the free list, marked as used and trimmed. -/
theorem occupy_spec {requested : Nat} (hi : HeapInv h (xs ++ f :: ys))
    (hu : f.used = false) (hr : Rounded requested needed) (hle : needed ≤ f.size) :
    ∃ h', trimBlock (writeField (writeField (removeFree h (span xs)) (span xs) .sizeFlags
          (readField (removeFree h (span xs)) (span xs) .sizeFlags ||| heapUsed))
        (span xs) .requested requested) (span xs) needed = some h' ∧
      Tiled h' (xs ++ trimmed ⟨f.size, true, false, requested⟩ needed ys) ∧ SameState h h' ∧
      Evolves (· = span xs) h (xs ++ f :: ys) h'
        (xs ++ trimmed ⟨f.size, true, false, requested⟩ needed ys) := by
  have ht := hi.tiled
  have hf := hi.ok f (by simp)
  have hl : f.linked = true := by rw [hf.linked, hu]; rfl
  have hlt : requested < 2 ^ 64 := by
    have h1 := hr.fits
    have h2 := hr.lt
    omega
  have hge := ht.size_ge f (by simp)
  obtain ⟨h1, hh1⟩ : ∃ g, g = removeFree h (span xs) := ⟨_, rfl⟩
  obtain ⟨h2, hh2⟩ : ∃ g, g = writeField h1 (span xs) .sizeFlags
    (readField h1 (span xs) .sizeFlags ||| heapUsed) := ⟨_, rfl⟩
  obtain ⟨h3, hh3⟩ : ∃ g, g = writeField h2 (span xs) .requested requested := ⟨_, rfl⟩
  have ht1 : Tiled h1 (xs ++ { f with linked := false } :: ys) := hh1 ▸ removeFree_tiled ht hl
  have ht2 : Tiled h2 (xs ++ ⟨f.size, true, false, f.requested⟩ :: ys) :=
    hh2 ▸ ht1.setUsed rfl hu
  have ht3 : Tiled h3 (xs ++ ⟨f.size, true, false, requested⟩ :: ys) :=
    hh3 ▸ ht2.setRequested rfl hlt
  have hs1 : SameState h h1 := hh1 ▸ removeFree_same _
  have hs2 : SameState h1 h2 := hh2 ▸ writeField_same _ _ _
  have hs3 : SameState h2 h3 := hh3 ▸ writeField_same _ _ _
  have hs13 := hs1.trans (hs2.trans hs3)
  obtain ⟨h4, htrim, ht4, hs4, hev4, -⟩ := trimBlock_evolves ht3 rfl rfl
    (fun c hc => (hi.ok c (by simp [hc])).linked) hr.ge hr.align hle
  refine ⟨h4, by rw [← hh1, ← hh2, ← hh3]; exact htrim, ht4, hs13.trans hs4, ?_⟩
  refine Evolves.trans ?_ hev4
  refine evolves_block ht rfl rfl hs13.base hs13.debugPoison fun a ha hout => ?_
  rw [hh3, writeField_memory (by rw [(hs1.trans hs2).base]; omega), hh2,
    writeField_memory (by rw [hs1.base]; omega), hh1, removeFree_memory ht hl ha]

theorem HeapInv.sum_lt (ht : Tiled h bs) (hok : ∀ c ∈ bs, BlockOk c) :
    requestedSum bs < 2 ^ 64 ∧ usedCount bs < 2 ^ 64 := by
  have h1 := requestedSum_le hok
  have h2 := usedCount_le bs
  have h3 := ht.length_le
  have h4 := ht.mapped_lt
  have h6 : heapNone = 2 ^ 64 - 1 := rfl
  rw [ht.span_eq] at h1
  omega

/-- Blocks that ask for as much as before keep the counters right. -/
theorem HeapInv.recount (hi : HeapInv h bs) (ht : Tiled h' bs') (ho : Ordered bs')
    (hcounters : h'.usedBytes = h.usedBytes ∧ h'.liveAllocations = h.liveAllocations ∧
      h'.peakUsage = h.peakUsage)
    (hsum : requestedSum bs' = requestedSum bs) (hcount : usedCount bs' = usedCount bs) :
    HeapInv h' bs' := by
  obtain ⟨hused, hlive, hpeak⟩ := hcounters
  refine ⟨ht, ho.ok, ho.coalesced, ?_, ?_, ?_⟩
  · rw [hused, hi.usedBytes, hsum]
  · rw [hlive, hi.liveAllocations, hcount]
  · rw [hpeak, hsum]
    exact hi.peak

theorem HeapInv.ordered (hi : HeapInv h bs) : Ordered bs := ⟨hi.ok, hi.coalesced⟩

/-- The invariant after `raisePeak`, when the counters are those of the blocks. -/
theorem HeapInv.of_raisePeak {touched : Nat → Prop} (ht : Tiled h bs) (ho : Ordered bs)
    (hs : SameArena h h') (hpoison : h'.debugPoison = h.debugPoison)
    (hused : h'.usedBytes = requestedSum bs) (hlive : h'.liveAllocations = usedCount bs) :
    HeapInv (raisePeak h') bs ∧ Evolves touched h bs (raisePeak h') bs := by
  rw [raisePeak_eq]
  refine ⟨⟨(ht.of_sameArena hs).of_sameArena ⟨rfl, rfl, rfl, rfl, rfl, rfl, rfl⟩, ho.ok,
    ho.coalesced, hused, hlive, ?_⟩, Evolves.of_memory_eq hs.base hpoison hs.memory⟩
  rw [← hused]
  exact le_max_right _ _

theorem HeapInv.of_sameArena (hi : HeapInv h bs) (hs : SameArena h h')
    (hcounters : h'.usedBytes = h.usedBytes ∧ h'.liveAllocations = h.liveAllocations ∧
      h'.peakUsage = h.peakUsage) : HeapInv h' bs :=
  hi.recount (hi.tiled.of_sameArena hs) hi.ordered hcounters rfl rfl

/-- Writing the payload of a used block keeps the invariant. -/
theorem HeapInv.payload (hi : HeapInv h (xs ++ b :: ys)) (hu : b.used = true) (hs : SameState h h')
    (hhead : h'.freeHead = h.freeHead)
    (hm : SameOutside h h' (span xs + 48) (span xs + b.size)) :
    HeapInv h' (xs ++ b :: ys) ∧ Evolves (· = span xs) h (xs ++ b :: ys) h' (xs ++ b :: ys) := by
  refine ⟨hi.recount ?_ hi.ordered hs.counters rfl rfl, ?_⟩
  · exact tiled_payload hi.tiled hs hhead (place_mid xs ys b) hm
  · exact evolves_block hi.tiled rfl hu hs.base hs.debugPoison fun a _ hout => hm a (by omega)

/-- The allocation from a free block that fits. -/
theorem allocateAt_spec {requested : Nat} (hi : HeapInv h (xs ++ f :: ys))
    (hu : f.used = false) (hr : Rounded requested needed) (hle : needed ≤ f.size) :
    ∃ h', allocateAt h (span xs) requested needed = some (h', h.base + span xs + 48) ∧
      h'.ops = h.ops ∧ HeapInv h' (xs ++ trimmed ⟨f.size, true, false, requested⟩ needed ys) ∧
      Evolves (· = span xs) h (xs ++ f :: ys) h'
        (xs ++ trimmed ⟨f.size, true, false, requested⟩ needed ys) := by
  obtain ⟨h1, htrim, ht1, hs1, hev1⟩ := occupy_spec hi hu hr hle
  have hfits := hr.fits
  -- The list with the block in use is in good order before it is trimmed, and so after that.
  have hok : BlockOk ⟨f.size, true, false, requested⟩ :=
    ⟨rfl, fun _ => ⟨hr.pos, by simp only; omega⟩, nofun⟩
  have hord := (hi.ordered.replace hok rfl).trimmed rfl hfits
  have hreq : requestedSum (xs ++ trimmed ⟨f.size, true, false, requested⟩ needed ys) =
      requestedSum (xs ++ f :: ys) + requested := by
    rw [requestedSum_append, requestedSum_trimmed fun c hc => hi.ok c (by simp [hc]),
      requestedSum_append, requestedSum, requestedSum, (hi.ok f (by simp)).free_request hu]
    simp only
    omega
  have hcnt : usedCount (xs ++ trimmed ⟨f.size, true, false, requested⟩ needed ys) =
      usedCount (xs ++ f :: ys) + 1 := by
    rw [usedCount_append, usedCount_trimmed, usedCount_append, usedCount, usedCount, hu]
    simp only [if_true, Bool.false_eq_true, if_false]
    omega
  obtain ⟨rest, hrest⟩ := trimmed_head ⟨f.size, true, false, requested⟩ needed ys
  rw [hrest] at ht1 hev1 hord hreq hcnt ⊢
  obtain ⟨hsum, hcount⟩ := HeapInv.sum_lt ht1 hord.ok
  obtain ⟨h2, hh2⟩ : ∃ g, g = raisePeak { h1 with
    usedBytes := addU64 h1.usedBytes requested
    liveAllocations := addU64 h1.liveAllocations 1
    allocations := increment h1.allocations } := ⟨_, rfl⟩
  obtain ⟨hi2, hev2⟩ : HeapInv h2 _ ∧ Evolves (· = span xs) h1 _ h2 _ := by
    rw [hh2]
    refine HeapInv.of_raisePeak ht1 hord ⟨rfl, rfl, rfl, rfl, rfl, rfl, rfl⟩ rfl ?_ ?_
    · show addU64 h1.usedBytes requested = _
      rw [hs1.usedBytes, hi.usedBytes, addU64_of_lt (by omega), hreq]
    · show addU64 h1.liveAllocations 1 = _
      rw [hs1.liveAllocations, hi.liveAllocations, addU64_of_lt (by omega), hcnt]
  have hbase2 : h2.base = h.base := by rw [hev2.base, hs1.base]
  have hge := hi2.tiled.size_ge _ (List.mem_append_right xs List.mem_cons_self)
  obtain ⟨h3, hh3⟩ : ∃ g, g = if h2.debugPoison = true then
      fillArena h2 (span xs + headerSize) 0xcd (blockSize h2 (span xs) - headerSize) else h2 :=
    ⟨_, rfl⟩
  have hfill : SameState h2 h3 ∧ h3.freeHead = h2.freeHead ∧
      SameOutside h2 h3 (span xs + 48)
        (span xs + keptSize ⟨f.size, true, false, requested⟩ needed) := by
    rw [hh3, hi2.tiled.blockSize_eq]
    split
    · exact ⟨fillArena_same _ _ _, rfl, fillArena_sameOutside (by simp [headerSize])
        (by simp only [headerSize] at hge ⊢; omega)⟩
    · exact ⟨SameState.refl _, rfl, fun _ _ => rfl⟩
  obtain ⟨hi3, hev3⟩ := hi2.payload rfl hfill.1 hfill.2.1 hfill.2.2
  have hops : h3.ops = h.ops := by rw [hfill.1.eq, hh2, raisePeak_eq, hs1.eq]
  refine ⟨h3, ?_, hops, hi3, hev1.trans (hev2.trans hev3)⟩
  simp only [allocateAt, htrim, Option.bind_eq_bind, Option.bind_some, Option.pure_def, ← hh2,
    ← hh3, Option.some.injEq, Prod.mk.injEq, true_and]
  rw [hfill.1.base, hbase2]
  rfl

/-! ## Growing -/

theorem removeFree_mappedSize (h : HeapCore γ) (o m : Nat) :
    removeFree { h with mappedSize := m } o = { removeFree h o with mappedSize := m } := by
  have hread : ∀ f, readField { h with mappedSize := m } o f = readField h o f := fun _ => rfl
  simp only [removeFree, hread, linkForward, linkBack, writeField, blockAt]
  split <;> split <;> rfl

theorem appendPages_same (o n : Nat) (bytes : Nat → UInt8) :
    SameState h (appendPages h o n bytes) := ⟨rfl⟩

/-- The pages that a successful callback appends lie outside the arena. -/
theorem appendPages_memory {n a : Nat} {bytes : Nat → UInt8} (ha : a < h.base + h.mappedSize) :
    (appendPages h h.mappedSize n bytes).memory a = h.memory a := by
  simp only [appendPages]
  rw [if_neg (by omega)]

/-- The tiling depends on the bytes of the arena only. -/
theorem Tiled.of_inside (ht : Tiled h bs) (hs : SameState h h') (hhead : h'.freeHead = h.freeHead)
    (hm : ∀ a, a < h.base + h.mappedSize → h'.memory a = h.memory a) : Tiled h' bs := by
  refine ⟨hs.context ht.context, ?_, by rw [hs.mappedSize, ht.span_eq], by rw [hhead, ht.head],
    ht.size_ge, ht.size_align⟩
  rw [hs.blockCookie]
  refine ht.chain.congr fun o c hc f => ?_
  have hle := ht.place_le hc
  exact readField_congr hs.base (fun a _ ha => hm a (by omega)) f

/-- More mapped bytes extend a gap at the end of the arena. -/
theorem Gapped.extend {gap tag extra : Nat} (hg : Gapped h xs gap tag [])
    (hmax : h.mappedSize + extra ≤ h.maxSize) (hal : extra % 16 = 0) :
    Gapped { h with mappedSize := h.mappedSize + extra } xs (gap + extra) tag [] := by
  have hc := hg.context
  have hge := hc.mapped_ge
  have hmal := hc.mapped_align
  have hspan := hg.span_eq
  refine ⟨⟨hc.initialized, hc.base_ne, hc.base_align, ?_, hmax, hc.max_le, hc.growth_ge, ?_,
    hc.max_align, hc.growth_align⟩, hg.front, trivial, ?_, hg.head, hg.front_ge, nofun,
    hg.front_align, nofun⟩
  · show 64 ≤ h.mappedSize + extra
    omega
  · show (h.mappedSize + extra) % 16 = 0
    omega
  · show span xs + (gap + extra) + span [] = h.mappedSize + extra
    rw [← hspan]
    omega

theorem growExtra_spec {required available : Nat} (hc : Context h)
    (hle : required ≤ available) (hav : available % 16 = 0) :
    required ≤ growExtra h required available ∧ growExtra h required available ≤ available ∧
      growExtra h required available % 16 = 0 := by
  have hg := hc.growth_ge
  have hal := hc.growth_align
  have hdiv := Nat.div_add_mod required h.growthSize
  have hmod := Nat.mod_lt required (by omega : 0 < h.growthSize)
  have havail := Nat.div_mul_le_self available h.growthSize
  simp only [growExtra]
  generalize hunits : required / h.growthSize + (if required % h.growthSize ≠ 0 then 1 else 0) =
    units
  have hcover : required ≤ units * h.growthSize := by
    rw [← hunits, Nat.add_mul, Nat.mul_comm (required / h.growthSize)]
    split <;> omega
  split
  · rename_i hfit
    refine ⟨hcover, (Nat.mul_le_mul_right _ hfit).trans havail, ?_⟩
    rw [Nat.mul_mod, hal, Nat.mul_zero, Nat.zero_mod]
  · exact ⟨hle, le_refl _, hav⟩

/-- At the end of the arena there is no boundary tag to correct. -/
theorem makeFree_tail {o size previous : Nat} (hend : o + size = h.mappedSize) :
    makeFree h o size previous =
      (insertFree (writeBlock h o size previous 0 false) o).map fun g => poisonFree g o := by
  have hs := writeBlock_same (h := h) o size previous 0 false
  have hid : followingPrevious (writeBlock h o size previous 0 false) o size =
      writeBlock h o size previous 0 false := by
    unfold followingPrevious
    rw [if_neg (by rw [hs.mappedSize]; omega)]
  simp only [makeFree, hid]
  cases insertFree (writeBlock h o size previous 0 false) o <;> rfl

/-- The blocks at the end of the arena after `extra` bytes were appended behind the block `t`. -/
def grown (t : Block) (extra : Nat) : List Block :=
  if t.used then [t, ⟨extra, false, true, 0⟩] else [⟨t.size + extra, false, true, 0⟩]

section Commit

variable {t : Block} {extra : Nat} (hi : HeapInv h (xs ++ [t]))
  (hmax : h.mappedSize + extra ≤ h.maxSize) (hal : extra % 16 = 0)

include hi hmax hal

/-- Behind a used block the appended bytes become a free block of their own. -/
theorem growCommit_append (hge : 64 ≤ extra) (hu : t.used = true) :
    ∃ h', growCommit h (span xs) t.size extra = some h' ∧
      Tiled h' ((xs ++ [t]) ++ ([⟨extra, false, true, 0⟩] ++ [])) ∧
      SameState { h with mappedSize := h.mappedSize + extra } h' ∧
      Evolves (fun _ => False) h ((xs ++ [t]) ++ ([] ++ [])) h'
        ((xs ++ [t]) ++ ([⟨extra, false, true, 0⟩] ++ [])) := by
  have ht : Tiled h ((xs ++ [t]) ++ ([] ++ [])) := by simpa using hi.tiled
  have hspan : span (xs ++ [t]) = h.mappedSize := hi.tiled.span_eq
  have hlast : lastSize 0 (xs ++ [t]) = t.size := by
    rw [lastSize_append]
    rfl
  have hused : blockUsed { h with mappedSize := h.mappedSize + extra } (span xs) = true :=
    hi.tiled.blockUsed_eq.trans hu
  have hg := (ht.gap nofun).extend hmax hal
  rw [span_nil, Nat.zero_add] at hg
  obtain ⟨h', hmake, ht', hs', hm', hp'⟩ := makeFree_spec hg hge hal (lastSize_lt ht)
  rw [makeFree_tail (by rw [hspan]), hspan, hlast] at hmake
  refine ⟨h', ?_, ht', hs', ?_⟩
  · simp only [growCommit, hused]
    rw [if_neg (by simp), ← hmake]
    cases insertFree _ h.mappedSize <;> rfl
  · refine evolves_splice ht (Or.inr rfl) hs'.base hs'.debugPoison ?_ nofun
      (touchedIn_unused (by simp)) ?_
    · intro a ha _ hlt
      refine hm' a ?_ nofun (Or.inl ?_)
      · intro o c hc
        exact ha o c (place_left hc _)
      · rw [hspan]
        exact hlt
    · intro hflag o c hc _ a hlo hhi
      simp only [place, List.mem_singleton, Prod.mk.injEq] at hc
      rw [hc.1] at hlo hhi
      rw [hc.2] at hhi
      exact hp' hflag a hlo hhi

/-- A free block at the end of the arena takes the appended bytes. -/
theorem growCommit_widen (hu : t.used = false) :
    ∃ h', growCommit h (span xs) t.size extra = some h' ∧
      Tiled h' (xs ++ ([⟨t.size + extra, false, true, 0⟩] ++ [])) ∧
      SameState { h with mappedSize := h.mappedSize + extra } h' ∧
      Evolves (fun _ => False) h (xs ++ ([t] ++ [])) h'
        (xs ++ ([⟨t.size + extra, false, true, 0⟩] ++ [])) := by
  have ht : Tiled h (xs ++ ([t] ++ [])) := hi.tiled
  have hspan := ht.span_eq
  simp only [span_append, span_cons, span_nil, Nat.add_zero] at hspan
  have htge := ht.size_ge t (by simp)
  have htal := ht.size_align t (by simp)
  have hl : t.linked = true := by rw [(hi.ok t (by simp)).linked, hu]; rfl
  have hused : blockUsed { h with mappedSize := h.mappedSize + extra } (span xs) = false :=
    hi.tiled.blockUsed_eq.trans hu
  obtain ⟨h1, hh1⟩ : ∃ g, g = removeFree h (span xs) := ⟨_, rfl⟩
  have ht1 : Tiled h1 (xs ++ ([{ t with linked := false }] ++ [])) :=
    hh1 ▸ removeFree_tiled hi.tiled hl
  have hs1 : SameState h h1 := hh1 ▸ removeFree_same _
  have hm1 : ∀ a, OutsideHeaders h (xs ++ ([t] ++ [])) a → h1.memory a = h.memory a :=
    fun a ha => hh1 ▸ removeFree_memory hi.tiled hl ha
  have hmax1 : h1.mappedSize + extra ≤ h1.maxSize := by
    rw [hs1.mappedSize]
    rw [hs1.eq]
    exact hmax
  have hg := (ht1.gap (by simp)).extend hmax1 hal
  obtain ⟨h2, hh2⟩ : ∃ g, g = { h1 with mappedSize := h1.mappedSize + extra } := ⟨_, rfl⟩
  have hs2 : SameState { h with mappedSize := h.mappedSize + extra } h2 := by
    constructor
    rw [hh2, hs1.eq]
  have hprev : readField h2 (span xs) .prevSize = lastSize 0 xs := by
    have ht1' : Tiled h1 (xs ++ { t with linked := false } :: []) := ht1
    rw [hh2]
    exact ht1'.header.prevSize
  have hm2 : h2.memory = h1.memory := by rw [hh2]
  have hend : span xs + (t.size + extra) = h2.mappedSize := by
    rw [hs2.mappedSize, ← hspan]
    simp only
    omega
  rw [← hh2] at hg
  simp only [span_cons, span_nil, Nat.add_zero] at hg
  obtain ⟨h', hmake, ht', hs', hm', hp'⟩ := makeFree_spec hg (by omega) (by omega) (lastSize_lt ht)
  rw [makeFree_tail hend] at hmake
  have hs := hs2.trans hs'
  have hbase2 : h2.base = h.base := hs2.base
  refine ⟨h', ?_, ht', hs, ?_⟩
  · have hremove : removeFree { h with mappedSize := h.mappedSize + extra } (span xs) = h2 := by
      rw [removeFree_mappedSize, ← hh1, hh2, hs1.mappedSize]
    simp only [growCommit, hused, hremove, hprev]
    rw [if_pos (by simp), ← hmake]
    cases insertFree _ (span xs) <;> rfl
  · refine evolves_splice ht (Or.inr rfl) hs.base hs.debugPoison ?_
      (touchedIn_unused (by simp [hu])) (touchedIn_unused (by simp)) ?_
    · intro a ha hout hlt
      have hself := ha (span xs) t (place_mid xs [] t)
      simp only [span_cons, span_nil] at hout
      rw [hm' a ?_ nofun (Or.inl (by omega)), hm2, hm1 a ha]
      intro o c hc
      rw [hbase2]
      exact ha o c (place_left hc _)
    · intro hflag o c hc _ a hlo hhi
      simp only [place, List.mem_singleton, Prod.mk.injEq] at hc
      rw [hc.1] at hlo hhi
      rw [hc.2] at hhi
      refine hp' ?_ a (by omega) (by simp only at hhi; omega)
      rw [hs2.debugPoison]
      exact hflag

theorem growCommit_spec (hge : t.used = true → 64 ≤ extra) :
    ∃ h', growCommit h (span xs) t.size extra = some h' ∧ HeapInv h' (xs ++ grown t extra) ∧
      Evolves (fun _ => False) h (xs ++ [t]) h' (xs ++ grown t extra) := by
  obtain ⟨hx, htc⟩ := coalesced_append.1 hi.coalesced
  obtain ⟨hokx, hokt, -⟩ := forall_mem_mid.1 hi.ok
  unfold grown
  cases hu : t.used with
  | true =>
    obtain ⟨h', hcommit, ht', hs', hev⟩ := growCommit_append hi hmax hal (hge hu) hu
    have hlist : (xs ++ [t]) ++ ([⟨extra, false, true, 0⟩] ++ []) =
        xs ++ [t, ⟨extra, false, true, 0⟩] := by simp
    rw [hlist] at ht' hev
    rw [if_pos rfl]
    refine ⟨h', hcommit, hi.recount ht' ⟨?_, ?_⟩ hs'.counters ?_ ?_, by simpa using hev⟩
    · exact forall_mem_mid.2 ⟨hokx, hokt, List.forall_mem_singleton.2 (blockOk_free _)⟩
    · refine coalesced_append.2 ⟨hx, htc.1, ?_, trivial⟩
      rw [hu]
      nofun
    · rw [requestedSum_append, requestedSum_append]
      rfl
    · rw [usedCount_append, usedCount_append]
      rfl
  | false =>
    obtain ⟨h', hcommit, ht', hs', hev⟩ := growCommit_widen hi hmax hal hu
    have hreq := hokt.free_request hu
    rw [if_neg (by simp)]
    refine ⟨h', hcommit, hi.recount ht' ⟨?_, ?_⟩ hs'.counters ?_ ?_, hev⟩
    · exact forall_mem_mid.2 ⟨hokx, blockOk_free _, nofun⟩
    · refine coalesced_append.2 ⟨hx, fun hf => ?_, trivial⟩
      exact hu ▸ htc.1 hf
    · rw [requestedSum_append, requestedSum_append]
      simp [requestedSum, hreq]
    · rw [usedCount_append, usedCount_append]
      simp [usedCount, hu]

end Commit

/-- Changes to the callback context and to bytes outside the arena keep the invariant. -/
theorem HeapInv.appended {ops : HeapOps γ} {n : Nat} {bytes : Nat → UInt8} (hi : HeapInv h bs)
    (hh' : h' = appendPages { h with ops } h.mappedSize n bytes) :
    HeapInv h' bs ∧ Evolves (fun _ => False) h bs h' bs := by
  have hm : ∀ a, a < h.base + h.mappedSize → h'.memory a = h.memory a := by
    intro a ha
    rw [hh']
    exact appendPages_memory (h := { h with ops }) ha
  have ht : Tiled { h with ops } bs :=
    hi.tiled.of_sameArena ⟨rfl, rfl, rfl, rfl, rfl, rfl, rfl⟩
  have ht' : Tiled h' bs := ht.of_inside (hh' ▸ appendPages_same _ _ _) (by rw [hh']; rfl) hm
  refine ⟨hi.recount ht' hi.ordered (by rw [hh']; exact ⟨rfl, rfl, rfl⟩) rfl rfl,
    ⟨by rw [hh']; rfl, by rw [hh']; rfl, fun _ _ _ => Iff.rfl, ?_, ?_⟩⟩
  · intro o c _ hc a _ hhi
    have hle := hi.tiled.place_le hc.1
    exact hm a (by omega)
  · intro hp hflag o c hc hu a hlo hhi
    have hbase : h'.base = h.base := by rw [hh']; rfl
    have hpoison : h'.debugPoison = h.debugPoison := by rw [hh']; rfl
    rw [hbase] at hlo hhi
    have hle := hi.tiled.place_le hc
    rw [hm a (by omega)]
    exact hp (hpoison ▸ hflag) o c hc hu a hlo hhi

/-- The outcome of `grow_heap`: without growth nothing but the callback context changes; with
growth the arena ends in a free block of the size asked for, which is new or took the place of a
free block. -/
structure GrowOutcome (h : HeapCore γ) (bs : List Block) (needed : Nat) (h' : HeapCore γ)
    (r : Bool) (bs' : List Block) : Prop where
  inv : HeapInv h' bs'
  evolves : Evolves (fun _ => False) h bs h' bs'
  refused : r = false → bs' = bs ∧ h' = { h with ops := h'.ops }
  granted : r = true → ∃ ws c, bs' = ws ++ [c] ∧ c.used = false ∧ needed ≤ c.size ∧
    (bs = ws ∨ ∃ t, bs = ws ++ [t] ∧ t.used = false)

/-- The size of the free block that ends the arena, or zero. -/
def tailFree (bs : List Block) : Nat :=
  match bs.getLast? with
  | none => 0
  | some t => if t.used then 0 else t.size

/-- Growth for a block of `needed` bytes is possible: there is a callback, the bytes that a free
tail does not supply are left below the maximum, and the callback appends them. -/
def CanGrow (h : HeapCore γ) (bs : List Block) (needed : Nat) : Prop :=
  ∃ grow, h.ops.grow = some grow ∧ needed - tailFree bs ≤ h.maxSize - h.mappedSize ∧
    (grow h.ops.context h.mappedSize (h.mappedSize +
      growExtra h (needed - tailFree bs) (h.maxSize - h.mappedSize))).granted = true

theorem canGrow_iff {grow : γ → Nat → Nat → GrowReply γ} (hops : h.ops.grow = some grow)
    (bs : List Block) (needed : Nat) : CanGrow h bs needed ↔
      needed - tailFree bs ≤ h.maxSize - h.mappedSize ∧
        (grow h.ops.context h.mappedSize (h.mappedSize +
        growExtra h (needed - tailFree bs) (h.maxSize - h.mappedSize))).granted = true := by
  constructor
  · rintro ⟨g, hg, hrest⟩
    rw [hops] at hg
    cases hg
    exact hrest
  · exact fun hrest => ⟨grow, hops, hrest⟩

theorem growOutcome_refused {ops : HeapOps γ} (hi : HeapInv h bs) (needed : Nat) :
    GrowOutcome h bs needed { h with ops } false bs :=
  ⟨hi.of_sameArena ⟨rfl, rfl, rfl, rfl, rfl, rfl, rfl⟩ ⟨rfl, rfl, rfl⟩,
    Evolves.of_memory_eq rfl rfl rfl, fun _ => ⟨rfl, rfl⟩, nofun⟩

/-- The arena is not empty, so it has a last block. -/
theorem HeapInv.exists_last (hi : HeapInv h bs) : ∃ xs t, bs = xs ++ [t] := by
  rcases List.eq_nil_or_concat bs with rfl | ⟨xs, t, rfl⟩
  · have hspan := hi.tiled.span_eq
    have hge := hi.tiled.context.mapped_ge
    rw [span_nil] at hspan
    omega
  · exact ⟨xs, t, List.concat_eq_append⟩

/-- `grow_heap` returns, and for a block that the free tail is too small for it says whether the
heap can grow. -/
theorem growHeap_spec (hi : HeapInv h bs) (needed : Nat) :
    ∃ h' r bs', growHeap h needed = some (h', r) ∧ GrowOutcome h bs needed h' r bs' ∧
      (64 ≤ needed → tailFree bs < needed → (r = true ↔ CanGrow h bs needed)) := by
  have hc := hi.tiled.context
  have hrefuse : (64 ≤ needed → tailFree bs < needed → ¬ CanGrow h bs needed) →
      ∃ h' r bs', some (h, false) = some (h', r) ∧ GrowOutcome h bs needed h' r bs' ∧
        (64 ≤ needed → tailFree bs < needed → (r = true ↔ CanGrow h bs needed)) := fun hno =>
    ⟨h, false, bs, rfl, growOutcome_refused hi needed, fun h1 h2 => iff_of_false nofun (hno h1 h2)⟩
  obtain ⟨xs, t, rfl⟩ := hi.exists_last
  have hlast := lastBlock_eq hi.tiled
  have hsize : blockSize h (span xs) = t.size := hi.tiled.blockSize_eq
  have hused : blockUsed h (span xs) = t.used := hi.tiled.blockUsed_eq
  unfold growHeap
  cases hgrow : h.ops.grow with
  | none =>
    refine hrefuse fun _ _ => ?_
    rintro ⟨grow, hsome, -⟩
    rw [hgrow] at hsome
    cases hsome
  | some grow =>
    have htail : tailFree (xs ++ [t]) = if t.used = true then 0 else t.size := by
      rw [tailFree, List.getLast?_concat]
    have hcan := canGrow_iff hgrow (xs ++ [t]) needed
    simp only [hlast, hsize, hused, Option.bind_eq_bind, Option.bind_some, Option.pure_def, ← htail]
    generalize tailFree (xs ++ [t]) = tail at hrefuse htail hcan ⊢
    by_cases hfull : h.mappedSize = h.maxSize
    · rw [if_pos hfull]
      refine hrefuse fun _ _ hgrows => ?_
      have := (hcan.1 hgrows).1
      omega
    rw [if_neg hfull]
    obtain ⟨want, hwant⟩ : ∃ w, w = if needed < heapMinBlock then heapMinBlock else needed :=
      ⟨_, rfl⟩
    have hwge : needed ≤ want ∧ 64 ≤ want ∧ (64 ≤ needed → want = needed) := by
      have hmin : heapMinBlock = 64 := rfl
      rw [hwant]
      split <;> omega
    rw [← hwant]
    by_cases henough : want ≤ tail
    · rw [if_pos henough]
      refine ⟨h, true, _, rfl, ⟨hi, Evolves.refl _ _, nofun, fun _ => ⟨xs, t, rfl, ?_⟩⟩,
        fun _ hlt => by omega⟩
      cases hu : t.used with
      | true =>
        rw [hu, if_pos rfl] at htail
        omega
      | false =>
        rw [hu, if_neg (by simp)] at htail
        exact ⟨rfl, by omega, Or.inr ⟨t, rfl, hu⟩⟩
    rw [if_neg henough]
    by_cases hroom : h.maxSize - h.mappedSize < want - tail
    · rw [if_pos hroom]
      refine hrefuse fun hge _ hgrows => ?_
      have := (hcan.1 hgrows).1
      have := hwge.2.2 hge
      omega
    rw [if_neg hroom]
    have hreply : 64 ≤ needed → (CanGrow h (xs ++ [t]) needed ↔ (grow h.ops.context h.mappedSize
        (h.mappedSize + growExtra h (want - tail) (h.maxSize - h.mappedSize))).granted = true) := by
      intro hge
      rw [hcan, hwge.2.2 hge]
      exact and_iff_right (by omega)
    have hmle := hc.mapped_le
    have hmal := hc.mapped_align
    have hxal := hc.max_align
    obtain ⟨hcover, hbound, hal⟩ := growExtra_spec (h := h) hc
      (by omega : want - tail ≤ h.maxSize - h.mappedSize)
      (by omega : (h.maxSize - h.mappedSize) % 16 = 0)
    generalize growExtra h (want - tail) (h.maxSize - h.mappedSize) = extra at *
    generalize grow h.ops.context h.mappedSize (h.mappedSize + extra) = reply at hreply ⊢
    cases hgranted : reply.granted with
    | false =>
      exact ⟨_, false, _, rfl, growOutcome_refused hi needed,
        fun hge _ => by rw [hreply hge, hgranted]⟩
    | true =>
      rw [if_neg (by simp)]
      obtain ⟨h1, hh1⟩ : ∃ g, g = appendPages
          { h with ops := { h.ops with context := reply.context } } h.mappedSize
          (h.mappedSize + extra) reply.bytes := ⟨_, rfl⟩
      obtain ⟨hi1, hev1⟩ := hi.appended hh1
      have hm1 : h1.mappedSize = h.mappedSize := by rw [hh1]; rfl
      have hx1 : h1.maxSize = h.maxSize := by rw [hh1]; rfl
      obtain ⟨h2, hcommit, hi2, hev2⟩ := growCommit_spec hi1 (by omega) hal (fun hu => by
        rw [hu, if_pos rfl] at htail
        omega)
      refine ⟨h2, true, xs ++ grown t extra, ?_, ⟨hi2, hev1.trans hev2, nofun, fun _ => ?_⟩,
        fun hge _ => by rw [hreply hge, hgranted]⟩
      · rw [← hh1, hcommit]
        rfl
      · unfold grown
        cases hu : t.used with
        | true =>
          rw [hu, if_pos rfl] at htail
          exact ⟨xs ++ [t], ⟨extra, false, true, 0⟩, by simp, rfl, by simp only; omega,
            Or.inl rfl⟩
        | false =>
          rw [hu, if_neg (by simp)] at htail
          exact ⟨xs, ⟨t.size + extra, false, true, 0⟩, by simp, rfl, by simp only; omega,
            Or.inr ⟨t, rfl, hu⟩⟩

/-! ## `allocate` -/

/-- The outcome of `allocate`: a new used block of the size asked for at an offset where no used
block was, or `NULL` and no change but to the callback context and the failure counter. -/
structure AllocOutcome (h : HeapCore γ) (bs : List Block) (requested : Nat) (h' : HeapCore γ)
    (pointer : Nat) (bs' : List Block) : Prop where
  inv : HeapInv h' bs'
  failed : pointer = 0 → bs' = bs ∧
    h' = { h with ops := h'.ops, failedAllocations := h'.failedAllocations }
  placed : pointer ≠ 0 → ∃ o c, pointer = h.base + o + 48 ∧ UsedAt bs' o c ∧
    c.requested = requested ∧ (∀ d, ¬ UsedAt bs o d) ∧ Evolves (· = o) h bs h' bs'

theorem not_usedAt_of_unused (ht : Tiled h (xs ++ b :: ys)) (hu : b.used = false) (d : Block) :
    ¬ UsedAt (xs ++ b :: ys) (span xs) d := by
  rintro ⟨hd, hdu⟩
  have h1 := (ht.place_le hd).2.1
  have h2 := ht.size_ge b (by simp)
  rcases place_apart hd (place_mid xs ys b) with ⟨-, rfl⟩ | hsep | hsep
  · rw [hu] at hdu
    cases hdu
  · omega
  · omega

theorem allocateAt_outcome {requested : Nat} (hi : HeapInv h (xs ++ f :: ys))
    (hu : f.used = false) (hr : Rounded requested needed) (hle : needed ≤ f.size) :
    ∃ h' pointer bs', allocateAt h (span xs) requested needed = some (h', pointer) ∧ pointer ≠ 0 ∧
      h'.ops = h.ops ∧ AllocOutcome h (xs ++ f :: ys) requested h' pointer bs' := by
  obtain ⟨h', halloc, hops, hi', hev⟩ := allocateAt_spec hi hu hr hle
  have hbase := hi.tiled.context.base_ne
  refine ⟨h', _, _, halloc, by omega, hops, hi', fun h0 => by omega, fun _ => ?_⟩
  exact ⟨span xs, _, rfl, usedAt_trimmed rfl, rfl, not_usedAt_of_unused hi.tiled hu, hev⟩

/-- No free block is large enough. -/
def NoFit (bs : List Block) (needed : Nat) : Prop := ∀ c ∈ bs, c.used = false → c.size < needed

theorem tailFree_lt (hno : NoFit bs needed) (hpos : 0 < needed) : tailFree bs < needed := by
  rw [tailFree]
  split
  · exact hpos
  · rename_i t ht
    split
    · exact hpos
    · rename_i hu
      exact hno t (List.mem_of_getLast? ht) (Bool.not_eq_true _ ▸ hu)

/-- A first-fit search on a heap in good order ends at a free block that is large enough, or there
is none. -/
theorem findFit_outcome (hi : HeapInv h bs) (needed : Nat) :
    (findFit h needed = some heapNone ∧ NoFit bs needed) ∨
      ∃ xs f ys, bs = xs ++ f :: ys ∧ findFit h needed = some (span xs) ∧ span xs ≠ heapNone ∧
        f.used = false ∧ needed ≤ f.size := by
  obtain ⟨o, hfind, hfit⟩ := findFit_spec hi.tiled needed
  rcases hfit with ⟨rfl, hnone⟩ | ⟨xs, f, ys, rfl, rfl, hl, hle, -⟩
  · refine Or.inl ⟨hfind, fun c hc hu => hnone c hc ?_⟩
    rw [(hi.ok c hc).linked, hu]
    rfl
  · refine Or.inr ⟨xs, f, ys, rfl, hfind, ?_, ?_, hle⟩
    · have := (hi.tiled.place_le (place_mid xs ys f)).2.2
      omega
    · have hlink := (hi.ok f (by simp)).linked
      rw [hl] at hlink
      simpa using hlink.symm

/-- `allocate` returns. If it may grow the heap, it fails exactly if no block fits and the heap
cannot grow; and it leaves the callback alone if a block fits. -/
theorem allocate_spec {requested : Nat} (hi : HeapInv h bs) (hr : Rounded requested needed)
    (allowGrowth : Bool) :
    ∃ h' pointer bs', allocate h requested needed allowGrowth = some (h', pointer) ∧
      AllocOutcome h bs requested h' pointer bs' ∧
      (allowGrowth = true → (pointer = 0 ↔ NoFit bs needed ∧ ¬ CanGrow h bs needed)) ∧
      (¬ NoFit bs needed → h'.ops = h.ops) := by
  have hge := hr.ge
  have hfail : ∀ {g : HeapCore γ}, HeapInv g bs → g = { h with ops := g.ops } →
      AllocOutcome h bs requested g 0 bs :=
    fun hg heq => ⟨hg, fun _ => ⟨rfl, by rw [heq]⟩, fun h0 => absurd rfl h0⟩
  unfold allocate
  rcases findFit_outcome hi needed with ⟨hfind, hnone⟩ | ⟨xs, f, ys, rfl, hfind, hne, hu, hle⟩
  · simp only [hfind, Option.bind_eq_bind, Option.bind_some, Option.pure_def]
    rw [if_neg (by simp)]
    cases allowGrowth with
    | false => exact ⟨_, 0, bs, rfl, hfail hi rfl, nofun, fun hfit => absurd hnone hfit⟩
    | true =>
      rw [if_pos rfl]
      obtain ⟨h1, r, bs1, hgrow, hout, hcan⟩ := growHeap_spec hi needed
      have hcan := hcan hge (tailFree_lt hnone (by omega))
      simp only [hgrow, Option.bind_some]
      cases r with
      | false =>
        obtain ⟨rfl, heq⟩ := hout.refused rfl
        exact ⟨_, 0, _, rfl, hfail hout.inv heq,
          fun _ => iff_of_true rfl ⟨hnone, fun hgrows => nomatch hcan.2 hgrows⟩,
          fun hfit => absurd hnone hfit⟩
      | true =>
        rw [if_pos rfl]
        obtain ⟨ws, c, rfl, hcu, hcs, -⟩ := hout.granted rfl
        rcases findFit_outcome hout.inv needed with ⟨-, hno⟩ |
          ⟨xs, f, ys, hsplit, hfind1, hne, hu, hle⟩
        · -- The free block at the end of the grown arena fits.
          have := hno c (by simp) hcu
          omega
        · rw [hsplit] at hout
          obtain ⟨h2, pointer, bs2, halloc, hp0, -, hout2⟩ := allocateAt_outcome hout.inv hu hr hle
          simp only [hfind1, Option.bind_some]
          rw [if_pos hne]
          refine ⟨h2, pointer, bs2, halloc, ⟨hout2.inv, fun h0 => absurd h0 hp0, fun _ => ?_⟩,
            fun _ => iff_of_false hp0 fun hboth => hboth.2 (hcan.1 rfl),
            fun hfit => absurd hnone hfit⟩
          obtain ⟨o, d, hp, hd, hreq, hfresh, hev⟩ := hout2.placed hp0
          refine ⟨o, d, by rw [hp, hout.evolves.base], hd, hreq, fun e he => ?_,
            (hout.evolves.mono nofun).trans hev⟩
          exact hfresh e ((hout.evolves.used o e id).2 he)
  · simp only [hfind, Option.bind_eq_bind, Option.bind_some]
    rw [if_pos hne]
    obtain ⟨h', pointer, bs', halloc, hp0, hops, hout⟩ := allocateAt_outcome hi hu hr hle
    refine ⟨h', pointer, bs', halloc, hout, fun _ => iff_of_false hp0 fun hboth => ?_,
      fun _ => hops⟩
    have := hboth.1 f (by simp) hu
    omega

end Utamo.Heap
