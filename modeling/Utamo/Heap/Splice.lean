import Utamo.Heap.Invariant

/-!
# Replacing a group of blocks

Splitting, merging and trimming replace some neighbouring blocks, none of them in the free list at
that moment, by other blocks over the same bytes. In between the arena is tiled except for a gap
(`Gapped`): unlinked blocks can be forgotten (`Tiled.gap`), a header written at the start of the
gap carves a block out of it (`Gapped.carve`) or fills it (`Gapped.fill`), and
`following_previous` corrects the boundary tag behind it (`Gapped.setTag`). `settle` puts a free
block into the list and poisons it.

`makeFree_spec` and `trimBlock_spec` assemble these steps.
-/

set_option autoImplicit false

namespace Utamo.Heap

open Lib Lib.ByteMemory

variable {γ : Type} {h h' : HeapCore γ} {bs xs ys mid mid' : List Block} {b : Block}
  {lo hi o prev fp : Nat} {h1 : HeapCore γ} {b' : Block}

/-- Memory is unchanged outside the arena bytes `[lo, hi)`. -/
def SameOutside (h h' : HeapCore γ) (lo hi : Nat) : Prop :=
  ∀ a, a < h.base + lo ∨ h.base + hi ≤ a → h'.memory a = h.memory a

theorem SameOutside.readField (hm : SameOutside h h' lo hi)
    (hbase : h'.base = h.base) (ho : o + 48 ≤ lo ∨ hi ≤ o) (f : BlockField) :
    readField h' o f = readField h o f :=
  readField_congr hbase (fun a ha hb => hm a (by omega)) f

theorem sameOutside_writeField {x v : Nat} {y : BlockField} (hlo : lo ≤ x)
    (hhi : x + 48 ≤ hi) : SameOutside h (writeField h x y v) lo hi :=
  fun _ ha => writeField_memory (by omega)

theorem sameOutside_writeBlock {x size req : Nat} {used : Bool} (hlo : lo ≤ x)
    (hhi : x + 48 ≤ hi) : SameOutside h (writeBlock h x size prev req used) lo hi :=
  fun _ ha => writeBlock_memory (by omega)

/-- A chain inside a region is not changed by writes outside the region. -/
theorem Chain.of_sameOutside {off fn : Nat} (hm : SameOutside h h' lo hi)
    (hbase : h'.base = h.base) (hge : ∀ c ∈ bs, 48 ≤ c.size)
    (hsep : off + span bs ≤ lo ∨ hi ≤ off)
    (hch : Chain (readField h) (blockCookie h) off prev fp bs fn) :
    Chain (readField h') (blockCookie h) off prev fp bs fn := by
  refine hch.congr fun o c hc f => ?_
  have hbds := place_bounds hc
  have hcs := hge c (mem_of_place hc)
  exact hm.readField hbase (by omega) f

theorem followingPrevious_same (o s : Nat) : SameState h (followingPrevious h o s) := by
  unfold followingPrevious
  split
  · exact writeField_same _ _ _
  · exact SameState.refl _

theorem followingPrevious_freeHead (o s : Nat) :
    (followingPrevious h o s).freeHead = h.freeHead := by
  unfold followingPrevious
  split <;> rfl

theorem followingPrevious_sameOutside (o s : Nat) :
    SameOutside h (followingPrevious h o s) (o + s) (o + s + 48) := by
  intro a ha
  unfold followingPrevious
  split
  · exact writeField_memory (by omega)
  · rfl

/-- `following_previous` sets the boundary tag of the block behind. -/
theorem followingPrevious_chain {s : Nat} (hge : ∀ c ∈ ys, 64 ≤ c.size)
    (hend : o + s + span ys = h.mappedSize) (hs : s < 2 ^ 64)
    (hch : Chain (readField h) (blockCookie h) (o + s) prev fp ys heapNone) :
    Chain (readField (followingPrevious h o s)) (blockCookie h) (o + s) s fp ys heapNone := by
  cases ys with
  | nil => trivial
  | cons c ys =>
    have hc := hge c (by simp)
    rw [span_cons] at hend
    unfold followingPrevious
    rw [if_pos (by omega)]
    have hset := hch.setPrevSize (fun d hd => by have := hge d hd; omega) s
    refine hset.congr fun x d hd f => ?_
    have hbds := place_bounds hd
    refine readField_writeField hs ?_ f
    rw [place, List.mem_cons] at hd
    rcases hd with hd | hd
    · cases hd
      exact Or.inl rfl
    · have := (place_bounds hd).1
      exact Or.inr (Or.inr (by omega))

/-! ## A tiling with a gap -/

/-- The arena is tiled by `xs`, then `gap` bytes of any content, then `ys`; the boundary tag behind
the gap is `tag`. The free list runs across the gap. -/
structure Gapped (h : HeapCore γ) (xs : List Block) (gap tag : Nat) (ys : List Block) : Prop where
  context : Context h
  front : Chain (readField h) (blockCookie h) 0 0 heapNone xs
    (firstLinked (span xs + gap) ys heapNone)
  back : Chain (readField h) (blockCookie h) (span xs + gap) tag (lastLinked 0 xs heapNone) ys
    heapNone
  span_eq : span xs + gap + span ys = h.mappedSize
  head : h.freeHead = firstLinked 0 xs (firstLinked (span xs + gap) ys heapNone)
  front_ge : ∀ c ∈ xs, 64 ≤ c.size
  back_ge : ∀ c ∈ ys, 64 ≤ c.size
  front_align : ∀ c ∈ xs, c.size % 16 = 0
  back_align : ∀ c ∈ ys, c.size % 16 = 0

/-- Unlinked blocks may be forgotten. -/
theorem Tiled.gap (ht : Tiled h (xs ++ (mid ++ ys))) (hun : ∀ c ∈ mid, c.linked = false) :
    Gapped h xs (span mid) (lastSize (lastSize 0 xs) mid) ys := by
  have hchain := ht.chain
  have hspan := ht.span_eq
  have hhead := ht.head
  rw [chain_append, chain_append, firstLinked_append, firstLinked_of_unlinked hun] at hchain
  simp only [Nat.zero_add, lastLinked_of_unlinked hun] at hchain
  rw [firstLinked_append, firstLinked_append, firstLinked_of_unlinked hun, Nat.zero_add] at hhead
  simp only [span_append] at hspan
  exact ⟨ht.context, hchain.1, hchain.2.2, by omega, hhead,
    fun c hc => ht.size_ge c (by simp [hc]), fun c hc => ht.size_ge c (by simp [hc]),
    fun c hc => ht.size_align c (by simp [hc]), fun c hc => ht.size_align c (by simp [hc])⟩

namespace Gapped

variable {gap tag : Nat}

theorem lt_pow (hg : Gapped h xs gap tag ys) : span xs + gap + span ys + 16 < 2 ^ 64 := by
  have h1 := hg.context.mapped_le
  have h2 := hg.context.max_le
  have h3 := hg.context.base_ne
  have h4 := hg.context.base_align
  have h5 := hg.span_eq
  unfold uint64Max at h2
  omega

/-- Writes inside the gap. -/
theorem of_sameOutside (hg : Gapped h xs gap tag ys) (hs : SameState h h1)
    (hhead : h1.freeHead = h.freeHead) (hm : SameOutside h h1 (span xs) (span xs + gap)) :
    Gapped h1 xs gap tag ys := by
  refine ⟨hs.context hg.context, ?_, ?_, by rw [hs.mappedSize, hg.span_eq], by rw [hhead, hg.head],
    hg.front_ge, hg.back_ge, hg.front_align, hg.back_align⟩
  · rw [hs.blockCookie]
    exact Chain.of_sameOutside hm hs.base (fun c hc => by have := hg.front_ge c hc; omega)
      (Or.inl (by omega)) hg.front
  · rw [hs.blockCookie]
    exact Chain.of_sameOutside hm hs.base (fun c hc => by have := hg.back_ge c hc; omega)
      (Or.inr (by omega)) hg.back

/-- `following_previous` sets the tag behind the gap. -/
theorem setTag {s : Nat} (hg : Gapped h xs gap tag ys) (ho : o + s = span xs + gap) :
    Gapped (followingPrevious h o s) xs gap s ys := by
  have hs := followingPrevious_same (h := h) o s
  have hm := followingPrevious_sameOutside (h := h) o s
  have hlt := hg.lt_pow
  refine ⟨hs.context hg.context, ?_, ?_, by rw [hs.mappedSize, hg.span_eq],
    by rw [followingPrevious_freeHead, hg.head], hg.front_ge, hg.back_ge, hg.front_align,
    hg.back_align⟩
  · rw [hs.blockCookie]
    exact Chain.of_sameOutside hm hs.base (fun c hc => by have := hg.front_ge c hc; omega)
      (Or.inl (by omega)) hg.front
  · have hback := hg.back
    rw [← ho] at hback ⊢
    rw [hs.blockCookie]
    exact followingPrevious_chain hg.back_ge (by rw [ho, hg.span_eq]) (by omega) hback

/-- An unlinked block that begins the gap. -/
theorem carve (hg : Gapped h xs gap tag ys) (hl : b'.linked = false)
    (hge : 64 ≤ b'.size) (hal : b'.size % 16 = 0) (hle : b'.size ≤ gap)
    (hb : HeaderIs (readField h (span xs)) (blockCookie h (span xs)) (lastSize 0 xs) heapNone
      heapNone b') :
    Gapped h (xs ++ [b']) (gap - b'.size) tag ys := by
  have hspan : span (xs ++ [b']) + (gap - b'.size) = span xs + gap := by
    simp only [span_append, span_cons, span_nil]
    omega
  have hlast : lastLinked 0 (xs ++ [b']) heapNone = lastLinked 0 xs heapNone := by
    rw [lastLinked_append, lastLinked_of_unlinked (by simp [hl])]
  have hfirst : ∀ d, firstLinked 0 (xs ++ [b']) d = firstLinked 0 xs d := by
    intro d
    rw [firstLinked_append, firstLinked_of_unlinked (by simp [hl] : ∀ c ∈ [b'], c.linked = false)]
  refine ⟨hg.context, ?_, ?_, by rw [hspan, hg.span_eq], by rw [hspan, hfirst, hg.head], ?_,
    hg.back_ge, ?_, hg.back_align⟩
  · rw [hspan, chain_append]
    simp only [Nat.zero_add]
    refine ⟨?_, ?_, trivial⟩
    · rw [firstLinked_of_unlinked (by simp [hl] : ∀ c ∈ [b'], c.linked = false)]
      exact hg.front
    · refine ⟨hb.sizeFlags, hb.prevSize, hb.requested, ?_, ?_, hb.cookie⟩
      · simpa [hl] using hb.freePrev
      · simpa [hl] using hb.freeNext
  · rw [hspan, hlast]
    exact hg.back
  · exact List.forall_mem_append.2 ⟨hg.front_ge, List.forall_mem_singleton.2 hge⟩
  · exact List.forall_mem_append.2 ⟨hg.front_align, List.forall_mem_singleton.2 hal⟩

/-- An unlinked block that fills the gap. -/
theorem fill (hg : Gapped h xs gap tag ys) (hl : b'.linked = false)
    (hge : 64 ≤ b'.size) (hal : b'.size % 16 = 0) (hgap : b'.size = gap) (htag : b'.size = tag)
    (hb : HeaderIs (readField h (span xs)) (blockCookie h (span xs)) (lastSize 0 xs) heapNone
      heapNone b') :
    Tiled h (xs ++ b' :: ys) := by
  have hc := hg.carve hl hge hal (by omega) hb
  have hspan : span (xs ++ [b']) + (gap - b'.size) = span (xs ++ [b']) := by omega
  have hsplit : xs ++ b' :: ys = (xs ++ [b']) ++ ys := by simp
  have htag' : lastSize 0 (xs ++ [b']) = tag := by
    rw [lastSize_append, ← htag]
    rfl
  rw [hsplit]
  refine ⟨hc.context, ?_, ?_, ?_, ?_, ?_⟩
  · rw [chain_append, Nat.zero_add, htag']
    have hfront := hc.front
    have hback := hc.back
    rw [hspan] at hfront hback
    exact ⟨hfront, hback⟩
  · rw [span_append, ← hc.span_eq]
    omega
  · rw [firstLinked_append, Nat.zero_add, hc.head, hspan]
  · exact List.forall_mem_append.2 ⟨hc.front_ge, hc.back_ge⟩
  · exact List.forall_mem_append.2 ⟨hc.front_align, hc.back_align⟩

end Gapped

/-- Writes to an unlinked block that keep its size keep the tiling. -/
theorem tiled_rewrite (ht : Tiled h (xs ++ b :: ys))
    (hl : b.linked = false) (hl' : b'.linked = false) (hsize : b'.size = b.size)
    (hs1 : SameState h h1) (hhead : h1.freeHead = h.freeHead)
    (hm1 : SameOutside h h1 (span xs) (span xs + b.size))
    (hb : HeaderIs (readField h1 (span xs)) (blockCookie h (span xs)) (lastSize 0 xs) heapNone
      heapNone b') :
    Tiled h1 (xs ++ b' :: ys) := by
  have ht' : Tiled h (xs ++ ([b] ++ ys)) := ht
  have hg := ht'.gap (by simp [hl])
  have hg1 := hg.of_sameOutside hs1 hhead (by simpa using hm1)
  refine hg1.fill hl' ?_ ?_ (by simpa using hsize) (by simpa [lastSize] using hsize) ?_
  · rw [hsize]
    exact ht.size_ge b (by simp)
  · rw [hsize]
    exact ht.size_align b (by simp)
  · rw [hs1.blockCookie]
    exact hb

/-! ## Putting a free block into the list -/

theorem poisonFree_same (o : Nat) : SameState h (poisonFree h o) := by
  unfold poisonFree fillArena
  split <;> exact ⟨rfl⟩

theorem poisonFree_freeHead (o : Nat) : (poisonFree h o).freeHead = h.freeHead := by
  unfold poisonFree fillArena
  split <;> rfl

/-- Writing payload bytes of one block keeps the tiling. -/
theorem tiled_payload (ht : Tiled h bs) (hs : SameState h h1)
    (hhead : h1.freeHead = h.freeHead) (hb : (o, b) ∈ place 0 bs)
    (hm : SameOutside h h1 (o + 48) (o + b.size)) : Tiled h1 bs := by
  refine ⟨hs.context ht.context, ?_, by rw [hs.mappedSize, ht.span_eq], by rw [hhead, ht.head],
    ht.size_ge, ht.size_align⟩
  rw [hs.blockCookie]
  refine ht.chain.congr fun x c hc f => ?_
  have hcs := ht.size_ge c (mem_of_place hc)
  refine hm.readField hs.base ?_ f
  rcases place_apart hc hb with ⟨rfl, -⟩ | hsep | hsep
  · exact Or.inl (by omega)
  · exact Or.inl (by omega)
  · exact Or.inr hsep

theorem fillArena_sameOutside {n : Nat} {v : UInt8} (hlo : lo ≤ o) (hhi : o + n ≤ hi) :
    SameOutside h (fillArena h o v n) lo hi :=
  fun _ ha => memset_of_outside (by omega)

theorem poisonFree_sameOutside (ht : Tiled h (xs ++ b :: ys)) :
    SameOutside h (poisonFree h (span xs)) (span xs + 48) (span xs + b.size) := by
  have hge := ht.size_ge b (by simp)
  unfold poisonFree
  rw [ht.blockSize_eq]
  split
  · exact fillArena_sameOutside (by simp [headerSize]) (by simp only [headerSize]; omega)
  · exact fun _ _ => rfl

/-- With debug poison on, every payload byte is `0xdd` after `poison_free`. -/
theorem poisonFree_byte (ht : Tiled h (xs ++ b :: ys)) (hp : h.debugPoison = true) {a : Nat}
    (hlo : h.base + span xs + 48 ≤ a) (hhi : a < h.base + span xs + b.size) :
    (poisonFree h (span xs)).memory a = 0xdd := by
  unfold poisonFree
  rw [if_pos hp, ht.blockSize_eq]
  exact memset_of_inside (by simp only [headerSize]; omega) (by simp only [headerSize]; omega)

/-- The end of every operation that makes a free block: link it and poison it. -/
theorem settle (ht : Tiled h (xs ++ b :: ys)) (hl : b.linked = false) :
    ∃ h', (insertFree h (span xs)).map (fun g => poisonFree g (span xs)) = some h' ∧
      Tiled h' (xs ++ { b with linked := true } :: ys) ∧ SameState h h' ∧
      (∀ a, OutsideHeaders h (xs ++ b :: ys) a →
        a < h.base + span xs ∨ h.base + span xs + b.size ≤ a → h'.memory a = h.memory a) ∧
      (h.debugPoison = true → ∀ a, h.base + span xs + 48 ≤ a → a < h.base + span xs + b.size →
        h'.memory a = 0xdd) := by
  obtain ⟨h1, hins, ht1, hs1, hm1⟩ := insertFree_tiled ht hl
  have hmem := poisonFree_sameOutside ht1
  refine ⟨poisonFree h1 (span xs), by rw [hins]; rfl, ?_, hs1.trans (poisonFree_same _), ?_, ?_⟩
  · exact tiled_payload ht1 (poisonFree_same _) (poisonFree_freeHead _)
      (place_mid xs ys { b with linked := true }) hmem
  · intro a ha hout
    rw [hmem a (by rw [hs1.base]; simp only; omega), hm1 a ha]
  · intro hp a hlo hhi
    refine poisonFree_byte ht1 (by rw [hs1.debugPoison]; exact hp) ?_ ?_
    · rw [hs1.base]
      exact hlo
    · rw [hs1.base]
      exact hhi

/-- The end of `trim_block` and `release` fills a gap with a free block. -/
theorem makeFree_spec {gap tag : Nat} (hg : Gapped h xs gap tag ys) (hge : 64 ≤ gap)
    (hal : gap % 16 = 0) (hlast : lastSize 0 xs < 2 ^ 64) :
    ∃ h', makeFree h (span xs) gap (lastSize 0 xs) = some h' ∧
      Tiled h' (xs ++ ⟨gap, false, true, 0⟩ :: ys) ∧ SameState h h' ∧
      (∀ a, (∀ o c, (o, c) ∈ place 0 xs → a < h.base + o ∨ h.base + o + 48 ≤ a) →
        (∀ o c, (o, c) ∈ place (span xs + gap) ys → a < h.base + o ∨ h.base + o + 48 ≤ a) →
        a < h.base + span xs ∨ h.base + span xs + gap ≤ a → h'.memory a = h.memory a) ∧
      (h.debugPoison = true → ∀ a, h.base + span xs + 48 ≤ a → a < h.base + span xs + gap →
        h'.memory a = 0xdd) := by
  have hlt := hg.lt_pow
  obtain ⟨h1, hh1⟩ : ∃ g, g = writeBlock h (span xs) gap (lastSize 0 xs) 0 false := ⟨_, rfl⟩
  obtain ⟨h2, hh2⟩ : ∃ g, g = followingPrevious h1 (span xs) gap := ⟨_, rfl⟩
  have hs1 : SameState h h1 := hh1 ▸ writeBlock_same _ _ _ _ _
  have hs2 : SameState h1 h2 := hh2 ▸ followingPrevious_same _ _
  have hm1 : SameOutside h h1 (span xs) (span xs + gap) :=
    hh1 ▸ sameOutside_writeBlock (le_refl _) (by omega)
  have hm2 : SameOutside h1 h2 (span xs + gap) (span xs + gap + 48) :=
    hh2 ▸ followingPrevious_sameOutside _ _
  have hg1 : Gapped h1 xs gap tag ys :=
    hg.of_sameOutside hs1 (by rw [hh1, writeBlock_freeHead]) hm1
  have hg2 : Gapped h2 xs gap gap ys := hh2 ▸ hg1.setTag rfl
  have hw : HeaderIs (readField h1 (span xs)) (blockCookie h (span xs)) (lastSize 0 xs)
      heapNone heapNone ⟨gap, false, false, 0⟩ :=
    hh1 ▸ writeBlock_header hg.context hal (by omega) hlast (by omega) (by omega)
  have hheader : HeaderIs (readField h2 (span xs)) (blockCookie h2 (span xs)) (lastSize 0 xs)
      heapNone heapNone ⟨gap, false, false, 0⟩ := by
    have hsame : ∀ f, readField h2 (span xs) f = readField h1 (span xs) f :=
      hm2.readField hs2.base (Or.inl (by omega))
    rw [(hs1.trans hs2).blockCookie]
    exact hw.congr hsame
  have ht2 : Tiled h2 (xs ++ ⟨gap, false, false, 0⟩ :: ys) :=
    hg2.fill rfl hge hal rfl rfl hheader
  obtain ⟨h3, hset, ht3, hs3, hm3, hp3⟩ := settle ht2 rfl
  have hs12 := hs1.trans hs2
  refine ⟨h3, ?_, ht3, hs12.trans hs3, ?_, ?_⟩
  · rw [← hset]
    unfold makeFree
    rw [← hh1]
    simp only
    rw [← hh2]
    cases insertFree h2 (span xs) <;> rfl
  · intro a hfront hback hout
    have hout2 : OutsideHeaders h2 (xs ++ ⟨gap, false, false, 0⟩ :: ys) a := by
      intro x c hc
      rw [hs12.base]
      rw [place_append, place, List.mem_append, List.mem_cons, Nat.zero_add] at hc
      rcases hc with hc | hc | hc
      · exact hfront x c hc
      · cases hc
        omega
      · exact hback x c hc
    rw [hm3 a hout2 (by rw [hs12.base]; exact hout)]
    have htagOut : h2.memory a = h1.memory a := by
      cases ys with
      | nil =>
        have hend := hg1.span_eq
        have hid : h2 = h1 := by
          rw [hh2]
          unfold followingPrevious
          rw [if_neg (by simp only [span_nil] at hend; omega)]
        rw [hid]
      | cons c ys =>
        have := hback (span xs + gap) c (by simp [place])
        exact hm2 a (by rw [hs1.base]; omega)
    rw [htagOut, hm1 a (by omega)]
  · intro hp a hlo hhi
    refine hp3 (by rw [hs12.debugPoison]; exact hp) a ?_ ?_
    · rw [hs12.base]
      exact hlo
    · rw [hs12.base]
      exact hhi

/-! ## Absorbing a free block behind -/

/-- The size of the first block if it is unused. -/
def leadFree : List Block → Nat
  | [] => 0
  | c :: _ => if c.used then 0 else c.size

/-- The list without its first block if that is unused. -/
def dropLead : List Block → List Block
  | [] => []
  | c :: cs => if c.used then c :: cs else cs

/-- The first block if it is unused, taken out of the free list. -/
def detachedLead : List Block → List Block
  | [] => []
  | c :: _ => if c.used then [] else [{ c with linked := false }]

theorem span_detachedLead (ys : List Block) : span (detachedLead ys) = leadFree ys := by
  cases ys with
  | nil => rfl
  | cons c ys =>
    simp only [detachedLead, leadFree]
    split <;> simp

theorem detachedLead_unlinked (ys : List Block) : ∀ c ∈ detachedLead ys, c.linked = false := by
  cases ys with
  | nil => simp [detachedLead]
  | cons c ys =>
    simp only [detachedLead]
    split <;> simp

/-- The first block if it is unused. -/
def lead : List Block → List Block
  | [] => []
  | c :: _ => if c.used then [] else [c]

theorem lead_append_dropLead (ys : List Block) : lead ys ++ dropLead ys = ys := by
  cases ys with
  | nil => rfl
  | cons c ys =>
    simp only [lead, dropLead]
    split <;> simp

theorem span_lead (ys : List Block) : span (lead ys) = leadFree ys := by
  cases ys with
  | nil => rfl
  | cons c ys =>
    simp only [lead, leadFree]
    split <;> simp

theorem lead_unused {c : Block} (hc : c ∈ lead ys) : c.used = false := by
  cases ys with
  | nil => simp [lead] at hc
  | cons d ys =>
    simp only [lead] at hc
    split at hc
    · simp at hc
    · rename_i hu
      rw [List.mem_singleton.1 hc]
      simpa using hu

theorem mem_of_dropLead {c : Block} (hc : c ∈ dropLead ys) : c ∈ ys := by
  rw [← lead_append_dropLead ys]
  exact List.mem_append_right _ hc

theorem place_dropLead {off : Nat} {c : Block} (hc : (o, c) ∈ place (off + leadFree ys)
    (dropLead ys)) : (o, c) ∈ place off ys := by
  rw [← span_lead] at hc
  rw [← lead_append_dropLead ys, place_append]
  exact List.mem_append_right _ hc

theorem leadFree_align (hal : ∀ c ∈ ys, c.size % 16 = 0) : leadFree ys % 16 = 0 := by
  cases ys with
  | nil => rfl
  | cons c ys =>
    simp only [leadFree]
    split
    · rfl
    · exact hal c (by simp)

theorem absorbNext_spec (ht : Tiled h (xs ++ ys)) (hlink : ∀ c ∈ ys, c.linked = !c.used)
    (size : Nat) :
    ∃ h', absorbNext h (span xs) size = (h', size + leadFree ys) ∧
      Tiled h' (xs ++ (detachedLead ys ++ dropLead ys)) ∧ SameState h h' ∧
      ∀ a, OutsideHeaders h (xs ++ ys) a → h'.memory a = h.memory a := by
  have hend := ht.span_eq
  cases ys with
  | nil =>
    refine ⟨h, ?_, by simpa [detachedLead, dropLead] using ht, SameState.refl h, fun _ _ => rfl⟩
    unfold absorbNext
    rw [if_neg]
    · rfl
    · simp only [List.append_nil] at hend
      omega
  | cons c ys =>
    have hge := ht.size_ge c (by simp)
    have hlt : span xs < h.mappedSize := by
      simp only [span_append, span_cons] at hend
      omega
    cases hu : c.used with
    | true =>
      refine ⟨h, ?_, by simpa [detachedLead, dropLead, hu] using ht, SameState.refl h,
        fun _ _ => rfl⟩
      unfold absorbNext
      rw [ht.blockUsed_eq, hu, if_neg (by simp)]
      simp [leadFree, hu]
    | false =>
      have hl : c.linked = true := by rw [hlink c (by simp), hu]; rfl
      refine ⟨removeFree h (span xs), ?_, ?_, removeFree_same _, ?_⟩
      · unfold absorbNext
        rw [ht.blockUsed_eq, hu, if_pos ⟨hlt, by simp⟩, ht.blockSize_eq]
        simp [leadFree, hu]
      · simpa [detachedLead, dropLead, hu] using removeFree_tiled ht hl
      · intro a ha
        exact removeFree_memory ht hl ha

/-! ## Trimming -/

/-- `block->size_flags = size | UTAMO_HEAP_USED` on a used block. -/
theorem header_setSize {ck fn size : Nat} (hb : HeaderIs (readField h o) ck prev fp fn b)
    (hu : b.used = true) (hl : b.linked = false) (hal : size % 16 = 0) (hlt : size + 1 < 2 ^ 64) :
    HeaderIs (readField (writeField h o .sizeFlags (size ||| heapUsed)) o) ck prev heapNone heapNone
      { b with size := size } := by
  have hor : size ||| heapUsed = size + 1 := or_one_of_even (by omega)
  rw [hor]
  refine HeaderIs.congr ?_ (readField_writeField hlt (Or.inl rfl))
  constructor
  · simp [upd, hu]
  · simpa [upd] using hb.prevSize
  · simpa [upd] using hb.requested
  · simpa [upd, hl] using hb.freePrev
  · simpa [upd, hl] using hb.freeNext
  · simpa [upd] using hb.cookie

/-- The list of blocks after `trim_block` has kept `needed` bytes of `b` in front of `ys`. -/
def trimmed (b : Block) (needed : Nat) (ys : List Block) : List Block :=
  if b.size - needed < 64 then b :: ys
  else { b with size := needed } ::
    ⟨b.size - needed + leadFree ys, false, true, 0⟩ :: dropLead ys

/-- The end of the bytes `trim_block` may write behind the kept part. -/
def trimEnd (b : Block) (needed : Nat) (ys : List Block) : Nat :=
  if b.size - needed < 64 then needed else b.size + leadFree ys

theorem lastSize_lt (ht : Tiled h (xs ++ ys)) : lastSize 0 xs < 2 ^ 64 := by
  have key : ∀ (cs : List Block) (p : Nat), lastSize p cs ≤ p + span cs := by
    intro cs
    induction cs with
    | nil => intro p; simp [lastSize]
    | cons c cs ih =>
      intro p
      have := ih c.size
      simp only [lastSize, span_cons]
      omega
  have h1 := key xs 0
  have h2 := ht.span_le
  have h3 : heapNone < 2 ^ 64 := by decide
  simp only [span_append] at h2
  omega

/-- `trim_block` keeps `needed` bytes of a used block and frees the rest of it. Besides header
words it writes only behind the kept bytes, and nothing behind the bytes it frees. -/
theorem trimBlock_spec {needed : Nat} (ht : Tiled h (xs ++ b :: ys)) (hu : b.used = true)
    (hl : b.linked = false) (hlink : ∀ c ∈ ys, c.linked = !c.used) (hneed : 64 ≤ needed)
    (hal : needed % 16 = 0) (hle : needed ≤ b.size) :
    ∃ h', trimBlock h (span xs) needed = some h' ∧ Tiled h' (xs ++ trimmed b needed ys) ∧
      SameState h h' ∧
      (∀ a, OutsideHeaders h (xs ++ b :: ys) a →
        a < h.base + span xs + needed ∨ h.base + span xs + trimEnd b needed ys ≤ a →
        h'.memory a = h.memory a) ∧
      (h.debugPoison = true → ∀ a, h.base + span xs + needed + 48 ≤ a →
        a < h.base + span xs + trimEnd b needed ys → h'.memory a = 0xdd) := by
  have hbge := ht.size_ge b (by simp)
  have hbal := ht.size_align b (by simp)
  unfold trimBlock
  rw [ht.blockSize_eq]
  have hmin : heapMinBlock = 64 := rfl
  by_cases hsmall : b.size - needed < 64
  · rw [if_pos (by omega)]
    refine ⟨h, rfl, by simpa [trimmed, hsmall] using ht, SameState.refl h, fun _ _ _ => rfl, ?_⟩
    intro _ a hlo hhi
    simp only [trimEnd, if_pos hsmall] at hhi
    omega
  · rw [if_neg (by omega)]
    have ht0 : Tiled h ((xs ++ [b]) ++ ys) := by simpa using ht
    have hspanb : span (xs ++ [b]) = span xs + b.size := by simp
    obtain ⟨h1, habs, ht1, hs1, hm1⟩ := absorbNext_spec ht0 hlink (b.size - needed)
    rw [hspanb] at habs
    rw [habs]
    simp only
    have ht1' : Tiled h1 (xs ++ (b :: detachedLead ys ++ dropLead ys)) := by simpa using ht1
    have hg1 := ht1'.gap (by simpa [hl] using detachedLead_unlinked ys)
    rw [span_cons, span_detachedLead] at hg1
    have hlt := hg1.lt_pow
    -- The kept part gets its new size.
    obtain ⟨h2, hh2⟩ : ∃ g, g = writeField h1 (span xs) .sizeFlags (needed ||| heapUsed) :=
      ⟨_, rfl⟩
    have hs2 : SameState h1 h2 := hh2 ▸ writeField_same _ _ _
    have hm2 : SameOutside h1 h2 (span xs) (span xs + 48) :=
      hh2 ▸ sameOutside_writeField (le_refl _) (le_refl _)
    have hg2 := hg1.of_sameOutside hs2 (by rw [hh2]; rfl)
      (fun a ha => hm2 a (by omega))
    have hb1 : HeaderIs (readField h1 (span xs)) (blockCookie h1 (span xs)) (lastSize 0 xs)
        (lastLinked 0 xs heapNone)
        (firstLinked (span xs + b.size) (detachedLead ys ++ dropLead ys) heapNone) b :=
      Tiled.header (by simpa using ht1)
    have hb2 : HeaderIs (readField h2 (span xs)) (blockCookie h2 (span xs)) (lastSize 0 xs)
        heapNone heapNone { b with size := needed } := by
      rw [hs2.blockCookie, hh2]
      exact header_setSize hb1 hu hl hal (by omega)
    have hg3 : Gapped h2 (xs ++ [{ b with size := needed }]) (b.size + leadFree ys - needed) _
        (dropLead ys) :=
      hg2.carve hl hneed hal (by simp only; omega) hb2
    have hlast : lastSize 0 (xs ++ [{ b with size := needed }]) = needed := by
      rw [lastSize_append]
      rfl
    have hspan3 : span (xs ++ [{ b with size := needed }]) = span xs + needed := by simp
    have hlead : leadFree ys % 16 = 0 :=
      leadFree_align fun c hc => ht.size_align c (by simp [hc])
    have hgap : b.size + leadFree ys - needed = b.size - needed + leadFree ys := by omega
    simp only [hgap] at hg3
    obtain ⟨h4, hmake, ht4, hs4, hm4, hp4⟩ := makeFree_spec hg3 (by omega) (by omega)
      (by rw [hlast]; omega)
    rw [hlast, hspan3] at hmake
    have hs12 := hs1.trans hs2
    refine ⟨h4, by rw [← hh2]; exact hmake, ?_, hs12.trans hs4, ?_, ?_⟩
    · simpa [trimmed, hsmall] using ht4
    · intro a ha hout
      simp only [trimEnd, if_neg hsmall] at hout
      rw [hm4 a]
      · have hself := ha (span xs) b (place_mid xs ys b)
        rw [hm2 a (by rw [hs1.base]; omega)]
        exact hm1 a (by simpa using ha)
      · intro o c hc
        rw [hs12.base]
        rw [place_append, List.mem_append, Nat.zero_add] at hc
        rcases hc with hc | hc
        · exact ha o c (place_left hc _)
        · simp only [place, List.mem_singleton, Prod.mk.injEq] at hc
          rw [hc.1]
          exact ha (span xs) b (place_mid xs ys b)
      · intro o c hc
        rw [hs12.base]
        have hoff : span (xs ++ [{ b with size := needed }]) + (b.size - needed + leadFree ys) =
            span xs + b.size + leadFree ys := by
          rw [hspan3]
          omega
        rw [hoff] at hc
        exact ha o c (place_right (place_dropLead hc))
      · rw [hs12.base, hspan3]
        omega
    · intro hp a hlo hhi
      simp only [trimEnd, if_neg hsmall] at hhi
      refine hp4 (by rw [hs12.debugPoison]; exact hp) a ?_ ?_
      · rw [hs12.base, hspan3]
        omega
      · rw [hs12.base, hspan3]
        omega

end Utamo.Heap
