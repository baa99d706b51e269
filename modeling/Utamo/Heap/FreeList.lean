import Utamo.Heap.Layout

/-!
# Tiled heaps and the free-list operations

`Tiled h bs`: the arena of `h` is exactly the blocks `bs`, and `freeHead` is the first linked one.
The header reads and writes of the source are related here to the abstract header words of
`Layout`, and the walks of the source are followed: `insert_free` finds the two list neighbours of
its block (`insertFreeLoop_eq`), `find_fit` the first linked block that is large enough
(`findFit_spec`). `removeFree_tiled` and `insertFree_tiled` change one block's `linked` flag and no
byte of any payload.
-/

set_option autoImplicit false

namespace Utamo.Heap

open Lib Lib.ByteMemory

variable {γ : Type} {h h' : HeapCore γ}
  {g : HeapCore γ} {o x v a size : Nat} {b' c : Block}

/-- What `context_valid` asks of a heap, as arithmetic. -/
structure Context (h : HeapCore γ) : Prop where
  initialized : h.initialized = true
  base_ne : h.base ≠ 0
  base_align : h.base % 16 = 0
  mapped_ge : 64 ≤ h.mappedSize
  mapped_le : h.mappedSize ≤ h.maxSize
  max_le : h.maxSize + h.base ≤ uint64Max
  growth_ge : 64 ≤ h.growthSize
  mapped_align : h.mappedSize % 16 = 0
  max_align : h.maxSize % 16 = 0
  growth_align : h.growthSize % 16 = 0

theorem contextValid_iff : contextValid h = true ↔ Context h := by
  simp only [contextValid, heapFlagMask, heapMinBlock, or_and_fifteen_eq_zero_iff,
    decide_eq_true_eq]
  simp only [and_fifteen]
  constructor
  · rintro ⟨h1, h2, h3, h4, h5, h6, h7, ⟨h8, h9⟩, h10⟩
    exact ⟨h1, h2, h3, h4, h5, by omega, h7, h8, h9, h10⟩
  · rintro ⟨h1, h2, h3, h4, h5, h6, h7, h8, h9, h10⟩
    exact ⟨h1, h2, h3, h4, h5, by omega, h7, ⟨h8, h9⟩, h10⟩

/-- Two heaps that differ in memory and in the head of the free list only. -/
structure SameState (h h' : HeapCore γ) : Prop where
  eq : h' = { h with memory := h'.memory, freeHead := h'.freeHead }

namespace SameState

theorem refl (h : HeapCore γ) : SameState h h := ⟨rfl⟩

theorem trans {h'' : HeapCore γ} (h1 : SameState h h') (h2 : SameState h' h'') :
    SameState h h'' := by
  constructor
  rw [h2.eq, h1.eq]

theorem base (hs : SameState h h') : h'.base = h.base := by rw [hs.eq]

theorem mappedSize (hs : SameState h h') : h'.mappedSize = h.mappedSize := by rw [hs.eq]

theorem debugPoison (hs : SameState h h') : h'.debugPoison = h.debugPoison := by rw [hs.eq]

theorem blockCookie (hs : SameState h h') : blockCookie h' = blockCookie h := by
  funext o
  rw [Heap.blockCookie, Heap.blockCookie, hs.base]

theorem context (hs : SameState h h') (hc : Context h) : Context h' := by
  rw [hs.eq]
  exact ⟨hc.initialized, hc.base_ne, hc.base_align, hc.mapped_ge, hc.mapped_le, hc.max_le,
    hc.growth_ge, hc.mapped_align, hc.max_align, hc.growth_align⟩

end SameState

/-! ## Header words in memory -/

theorem BlockField.offset_le (f : BlockField) : f.offset + 8 ≤ 48 := by
  cases f <;> decide

theorem BlockField.offset_apart {f g : BlockField} (hne : f ≠ g) :
    f.offset + 8 ≤ g.offset ∨ g.offset + 8 ≤ f.offset := by
  cases f <;> cases g <;> first | exact absurd rfl hne | decide

/-- A header read depends on the 48 header bytes only. -/
theorem readField_congr (hbase : h'.base = h.base)
    (hm : ∀ a, h.base + o ≤ a → a < h.base + o + 48 → h'.memory a = h.memory a)
    (f : BlockField) : readField h' o f = readField h o f := by
  have hf := f.offset_le
  unfold readField blockAt
  rw [hbase]
  exact load64_congr fun x hx hlt => hm x (by omega) (by omega)

theorem readField_writeField {y : BlockField} (hv : v < 2 ^ 64)
    (hsep : o = x ∨ o + 48 ≤ x ∨ x + 48 ≤ o) (f : BlockField) :
    readField (writeField h x y v) o f = upd (readField h) x y v o f := by
  have hf := f.offset_le
  have hy := y.offset_le
  unfold readField writeField upd blockAt
  simp only
  by_cases heq : o = x ∧ f = y
  · obtain ⟨rfl, rfl⟩ := heq
    rw [if_pos ⟨rfl, rfl⟩]
    exact load64_store64_self hv
  · rw [if_neg heq]
    refine load64_store64_of_disjoint ?_
    rcases hsep with rfl | hsep | hsep
    · have hfy : f ≠ y := fun hfy => heq ⟨rfl, hfy⟩
      have := BlockField.offset_apart hfy
      omega
    · omega
    · omega

theorem writeField_memory {y : BlockField}
    (ha : a < h.base + x ∨ h.base + x + 48 ≤ a) : (writeField h x y v).memory a = h.memory a := by
  have hy := y.offset_le
  unfold writeField blockAt
  exact store64_of_outside (by omega)

theorem writeField_same (x : Nat) (y : BlockField) (v : Nat) : SameState h (writeField h x y v) :=
  ⟨rfl⟩

@[simp] theorem writeField_base (x : Nat) (y : BlockField) (v : Nat) :
    (writeField h x y v).base = h.base := rfl

@[simp] theorem blockCookie_writeField (x : Nat) (y : BlockField) (v : Nat) :
    blockCookie (writeField h x y v) = blockCookie h := rfl

theorem writeBlock_same (o size prev req : Nat) (used : Bool) :
    SameState h (writeBlock h o size prev req used) := by
  simp only [writeBlock, blockCookie_writeField]
  refine SameState.trans ?_ (writeField_same _ _ _)
  refine SameState.trans ?_ (writeField_same _ _ _)
  refine SameState.trans ?_ (writeField_same _ _ _)
  refine SameState.trans ?_ (writeField_same _ _ _)
  exact SameState.trans (writeField_same _ _ _) (writeField_same _ _ _)

theorem writeBlock_freeHead (o size prev req : Nat) (used : Bool) :
    (writeBlock h o size prev req used).freeHead = h.freeHead := by
  simp only [writeBlock, writeField]

theorem writeBlock_memory {prev req : Nat} {used : Bool}
    (ha : a < h.base + o ∨ h.base + o + 48 ≤ a) :
    (writeBlock h o size prev req used).memory a = h.memory a := by
  simp only [writeBlock, blockCookie_writeField]
  rw [writeField_memory, writeField_memory, writeField_memory, writeField_memory,
    writeField_memory, writeField_memory ha]
  all_goals simpa only [writeField_base] using ha

theorem or_used_eq (hal : size % 16 = 0) (used : Bool) :
    (size ||| if used then heapUsed else 0) = size + if used then 1 else 0 := by
  cases used with
  | true => exact or_one_of_even (by omega)
  | false => simp

theorem blockCookie_lt (hc : Context h) (ho : o < 2 ^ 64) : blockCookie h o < 2 ^ 64 := by
  have hbase : h.base < 2 ^ 64 := by
    have := hc.max_le
    unfold uint64Max at this
    omega
  exact Nat.xor_lt_two_pow (Nat.xor_lt_two_pow (by decide) hbase) ho

/-- The header that `write_block` leaves. -/
theorem writeBlock_header {prev req fp fn : Nat} {used : Bool} (hc : Context h)
    (hal : size % 16 = 0) (hsize : size + 1 < 2 ^ 64) (hprev : prev < 2 ^ 64) (hreq : req < 2 ^ 64)
    (ho : o < 2 ^ 64) :
    HeaderIs (readField (writeBlock h o size prev req used) o) (blockCookie h o) prev fp fn
      { size, used, linked := false, requested := req } := by
  have hsz : (size ||| if used then heapUsed else 0) < 2 ^ 64 := by
    rw [or_used_eq hal]
    split <;> omega
  have hnone : heapNone < 2 ^ 64 := by decide
  have hck := blockCookie_lt hc ho
  have hkey : ∀ f, readField (writeBlock h o size prev req used) o f =
      upd (upd (upd (upd (upd (upd (readField h) o .sizeFlags
        (size ||| if used then heapUsed else 0)) o .prevSize prev) o .requested req) o .freePrev
        heapNone) o .freeNext heapNone) o .cookie (blockCookie h o) o f := by
    intro f
    simp only [writeBlock, blockCookie_writeField]
    rw [readField_writeField hck (Or.inl rfl), upd, readField_writeField hnone (Or.inl rfl), upd,
      readField_writeField hnone (Or.inl rfl), upd, readField_writeField hreq (Or.inl rfl), upd,
      readField_writeField hprev (Or.inl rfl), upd, readField_writeField hsz (Or.inl rfl)]
    simp only [upd]
  constructor
  · exact (hkey .sizeFlags).trans (by simp [upd, or_used_eq hal])
  · exact (hkey .prevSize).trans (by simp [upd])
  · exact (hkey .requested).trans (by simp [upd])
  · exact (hkey .freePrev).trans (by simp [upd])
  · exact (hkey .freeNext).trans (by simp [upd])
  · exact (hkey .cookie).trans (by simp [upd])

/-! ## Tiled heaps -/

/-- The arena consists of the blocks `bs`, with the free list in order. -/
structure Tiled (h : HeapCore γ) (bs : List Block) : Prop where
  context : Context h
  chain : Chain (readField h) (blockCookie h) 0 0 heapNone bs heapNone
  span_eq : span bs = h.mappedSize
  head : h.freeHead = firstLinked 0 bs heapNone
  size_ge : ∀ b ∈ bs, 64 ≤ b.size
  size_align : ∀ b ∈ bs, b.size % 16 = 0

namespace Tiled

variable {bs xs ys : List Block} {b : Block}

theorem mapped_lt (ht : Tiled h bs) : h.mappedSize + h.base < heapNone + 1 := by
  have h1 := ht.context.mapped_le
  have h2 := ht.context.max_le
  unfold heapNone
  omega

theorem span_le (ht : Tiled h bs) : span bs ≤ heapNone := by
  have h1 := ht.mapped_lt
  rw [ht.span_eq]
  omega

theorem size_pos (ht : Tiled h bs) : ∀ b ∈ bs, 0 < b.size := fun b hb => by
  have := ht.size_ge b hb
  omega

theorem header (ht : Tiled h (xs ++ b :: ys)) :
    HeaderIs (readField h (span xs)) (blockCookie h (span xs)) (lastSize 0 xs)
      (lastLinked 0 xs heapNone) (firstLinked (span xs + b.size) ys heapNone) b := by
  have := ht.chain.header
  simpa using this

theorem blockSize_eq (ht : Tiled h (xs ++ b :: ys)) : blockSize h (span xs) = b.size := by
  have hal := ht.size_align b (by simp)
  unfold blockSize alignDown heapFlagMask
  rw [ht.header.sizeFlags]
  split <;> omega

theorem blockUsed_eq (ht : Tiled h (xs ++ b :: ys)) : blockUsed h (span xs) = b.used := by
  have hal := ht.size_align b (by simp)
  unfold blockUsed heapUsed
  rw [ht.header.sizeFlags, Nat.and_one_is_mod]
  cases b.used with
  | true =>
    have : (b.size + 1) % 2 = 1 := by omega
    simp [this]
  | false =>
    have : b.size % 2 = 0 := by omega
    simp [this]

/-- The offset of a block lies in the arena, with the whole block behind it. -/
theorem place_le (ht : Tiled h bs) (ho : (o, b) ∈ place 0 bs) :
    o + b.size ≤ h.mappedSize ∧ 64 ≤ b.size ∧ o < heapNone := by
  have hbds := place_bounds ho
  have hge := ht.size_ge b (mem_of_place ho)
  have hlt := ht.mapped_lt
  rw [ht.span_eq] at hbds
  omega

/-- Headers of placed blocks do not overlap. -/
theorem apart (ht : Tiled h bs) {o' : Nat} {b : Block} (ho : (o, b) ∈ place 0 bs)
    (ho' : (o', b') ∈ place 0 bs) : o = o' ∨ o + 48 ≤ o' ∨ o' + 48 ≤ o := by
  have h1 := (ht.place_le ho).2.1
  have h2 := (ht.place_le ho').2.1
  rcases place_apart ho ho' with ⟨rfl, -⟩ | h | h
  · exact Or.inl rfl
  · exact Or.inr (Or.inl (by omega))
  · exact Or.inr (Or.inr (by omega))

theorem length_le (ht : Tiled h bs) : bs.length ≤ h.mappedSize := by
  have key : ∀ cs : List Block, (∀ c ∈ cs, 64 ≤ c.size) → cs.length ≤ span cs := by
    intro cs hcs
    induction cs with
    | nil => simp
    | cons c cs ih =>
      have h1 := hcs c (by simp)
      have h2 := ih fun d hd => hcs d (by simp [hd])
      simp only [List.length_cons, span_cons]
      omega
  rw [← ht.span_eq]
  exact key bs ht.size_ge

end Tiled

/-- A payload byte lies outside every header. -/
theorem Tiled.payload_outside {bs : List Block} {b : Block} (ht : Tiled h bs)
    (ho : (o, b) ∈ place 0 bs) (hx : (x, c) ∈ place 0 bs) (hlo : h.base + o + 48 ≤ a)
    (hhi : a < h.base + o + b.size) : a < h.base + x ∨ h.base + x + 48 ≤ a := by
  have hge := ht.size_ge c (mem_of_place hx)
  rcases place_apart ho hx with ⟨rfl, -⟩ | hsep | hsep
  · exact Or.inr hlo
  · exact Or.inl (by omega)
  · exact Or.inr (by omega)

/-! ## Removing a block from the free list -/

section Lists

variable {bs xs ys : List Block} {b : Block}

/-- A backward link is written only where there is a block. -/
theorem readField_linkBack (hv : v < 2 ^ 64) (ho : o ≠ heapNone)
    (hsep : x = heapNone ∨ o = x ∨ o + 48 ≤ x ∨ x + 48 ≤ o) (f : BlockField) :
    readField (linkBack g x v) o f = upd (readField g) x .freePrev v o f := by
  unfold linkBack
  by_cases hx : x = heapNone
  · rw [if_neg (by simpa using hx), upd, if_neg]
    rintro ⟨rfl, -⟩
    exact ho hx
  · rw [if_pos hx]
    exact readField_writeField hv (hsep.resolve_left hx) f

theorem readField_linkForward (hv : v < 2 ^ 64) (ho : o ≠ heapNone)
    (hsep : x = heapNone ∨ o = x ∨ o + 48 ≤ x ∨ x + 48 ≤ o) (f : BlockField) :
    readField (linkForward g x v) o f = upd (readField g) x .freeNext v o f := by
  unfold linkForward
  by_cases hx : x = heapNone
  · rw [if_pos hx, upd, if_neg]
    · rfl
    · rintro ⟨rfl, -⟩
      exact ho hx
  · rw [if_neg hx]
    exact readField_writeField hv (hsep.resolve_left hx) f

theorem linkBack_same (g : HeapCore γ) (x v : Nat) : SameState g (linkBack g x v) := by
  unfold linkBack
  split <;> exact ⟨rfl⟩

theorem linkForward_same (g : HeapCore γ) (x v : Nat) : SameState g (linkForward g x v) := by
  unfold linkForward
  split <;> exact ⟨rfl⟩

@[simp] theorem linkBack_base (g : HeapCore γ) (x v : Nat) : (linkBack g x v).base = g.base :=
  (linkBack_same g x v).base

@[simp] theorem linkForward_base (g : HeapCore γ) (x v : Nat) : (linkForward g x v).base = g.base :=
  (linkForward_same g x v).base

theorem linkBack_memory
    (ha : x = heapNone ∨ a < g.base + x ∨ g.base + x + 48 ≤ a) :
    (linkBack g x v).memory a = g.memory a := by
  unfold linkBack
  split
  · rename_i hx
    exact writeField_memory (ha.resolve_left hx)
  · rfl

theorem linkForward_memory
    (ha : x = heapNone ∨ a < g.base + x ∨ g.base + x + 48 ≤ a) :
    (linkForward g x v).memory a = g.memory a := by
  unfold linkForward
  split
  · rfl
  · rename_i hx
    exact writeField_memory (ha.resolve_left hx)

theorem linkBack_freeHead (g : HeapCore γ) (x v : Nat) :
    (linkBack g x v).freeHead = g.freeHead := by
  unfold linkBack
  split <;> rfl

theorem linkForward_freeHead (g : HeapCore γ) (x v : Nat) :
    (linkForward g x v).freeHead = if x = heapNone then v else g.freeHead := by
  unfold linkForward
  split <;> rfl

theorem place_left (ho : (o, c) ∈ place 0 xs) (zs : List Block) :
    (o, c) ∈ place 0 (xs ++ zs) := by
  rw [place_append]
  exact List.mem_append_left _ ho

theorem place_mid (xs ys : List Block) (b : Block) : (span xs, b) ∈ place 0 (xs ++ b :: ys) :=
  mem_place_iff.2 ⟨xs, ys, rfl, by simp⟩

theorem place_right (ho : (o, c) ∈ place (span xs + b.size) ys) :
    (o, c) ∈ place 0 (xs ++ b :: ys) := by
  rw [place_append, place]
  simp [ho]

/-- The previous link of a position is no block or a block of the arena. -/
theorem lastLinked_placed (xs ys : List Block) (b : Block) :
    lastLinked 0 xs heapNone = heapNone ∨
      ∃ c, (lastLinked 0 xs heapNone, c) ∈ place 0 (xs ++ b :: ys) := by
  rcases lastLinked_spec 0 xs heapNone with ⟨hn, -⟩ | ⟨c, hc, -⟩
  · exact Or.inl hn
  · exact Or.inr ⟨c, place_left hc _⟩

theorem firstLinked_placed (xs ys : List Block) (b : Block) :
    firstLinked (span xs + b.size) ys heapNone = heapNone ∨
      ∃ c, (firstLinked (span xs + b.size) ys heapNone, c) ∈ place 0 (xs ++ b :: ys) := by
  rcases firstLinked_spec (span xs + b.size) ys heapNone with ⟨hn, -⟩ | ⟨c, hc, -⟩
  · exact Or.inl hn
  · exact Or.inr ⟨c, place_right hc⟩

theorem Tiled.sep_of_placed (ht : Tiled h bs) (ho : (o, c) ∈ place 0 bs)
    (hx : x = heapNone ∨ ∃ d, (x, d) ∈ place 0 bs) :
    x = heapNone ∨ o = x ∨ o + 48 ≤ x ∨ x + 48 ≤ o := by
  rcases hx with hx | ⟨d, hd⟩
  · exact Or.inl hx
  · exact Or.inr (ht.apart ho hd)

theorem Tiled.neighbours_lt (ht : Tiled h (xs ++ b :: ys)) :
    lastLinked 0 xs heapNone < 2 ^ 64 ∧ firstLinked (span xs + b.size) ys heapNone < 2 ^ 64 := by
  have hnone : heapNone < 2 ^ 64 := by decide
  constructor
  · rcases lastLinked_placed xs ys b with hn | ⟨c, hc⟩
    · omega
    · have := (ht.place_le hc).2.2
      omega
  · rcases firstLinked_placed xs ys b with hn | ⟨c, hc⟩
    · omega
    · have := (ht.place_le hc).2.2
      omega

theorem Tiled.header_links (ht : Tiled h (xs ++ b :: ys)) (hl : b.linked = true) :
    readField h (span xs) .freePrev = lastLinked 0 xs heapNone ∧
      readField h (span xs) .freeNext = firstLinked (span xs + b.size) ys heapNone := by
  rw [ht.header.freePrev, ht.header.freeNext, hl, if_pos rfl, if_pos rfl]
  exact ⟨rfl, rfl⟩

theorem readField_removeFree (ht : Tiled h (xs ++ b :: ys)) (hl : b.linked = true)
    (ho : (o, c) ∈ place 0 (xs ++ b :: ys)) (f : BlockField) :
    readField (removeFree h (span xs)) o f =
      unlinkWords (readField h) (span xs) (lastLinked 0 xs heapNone)
        (firstLinked (span xs + b.size) ys heapNone) o f := by
  obtain ⟨hprior, hnext⟩ := ht.header_links hl
  obtain ⟨hfp, hfn⟩ := ht.neighbours_lt
  have hnone : heapNone < 2 ^ 64 := by decide
  have hne : o ≠ heapNone := by
    have := (ht.place_le ho).2.2
    omega
  have hself := ht.apart ho (place_mid xs ys b)
  have hsepp := ht.sep_of_placed ho (lastLinked_placed xs ys b)
  have hsepn := ht.sep_of_placed ho (firstLinked_placed xs ys b)
  unfold removeFree
  simp only [hprior, hnext]
  rw [readField_writeField hnone hself, upd, readField_writeField hnone hself, upd,
    readField_linkBack hfp hne hsepn, upd, readField_linkForward hfn hne hsepp]
  simp only [unlinkWords, upd]

theorem removeFree_same (o : Nat) : SameState h (removeFree h o) :=
  (linkForward_same _ _ _).trans <| (linkBack_same _ _ _).trans <|
    (writeField_same _ _ _).trans (writeField_same _ _ _)

/-- The bytes outside all headers of `bs`. -/
def OutsideHeaders (h : HeapCore γ) (bs : List Block) (a : Nat) : Prop :=
  ∀ x c, (x, c) ∈ place 0 bs → a < h.base + x ∨ h.base + x + 48 ≤ a

theorem OutsideHeaders.of_placed (ha : OutsideHeaders h bs a)
    (hx : x = heapNone ∨ ∃ c, (x, c) ∈ place 0 bs) :
    x = heapNone ∨ a < h.base + x ∨ h.base + x + 48 ≤ a := by
  rcases hx with hx | ⟨c, hc⟩
  · exact Or.inl hx
  · exact Or.inr (ha x c hc)

theorem removeFree_memory (ht : Tiled h (xs ++ b :: ys)) (hl : b.linked = true)
    (ha : OutsideHeaders h (xs ++ b :: ys) a) :
    (removeFree h (span xs)).memory a = h.memory a := by
  obtain ⟨hprior, hnext⟩ := ht.header_links hl
  have hself := ha _ _ (place_mid xs ys b)
  have hp := ha.of_placed (lastLinked_placed xs ys b)
  have hn := ha.of_placed (firstLinked_placed xs ys b)
  unfold removeFree
  simp only [hprior, hnext]
  rw [writeField_memory, writeField_memory, linkBack_memory, linkForward_memory hp]
  · simpa using hn
  all_goals simpa using hself

theorem Tiled.lastLinked_ne {pre post : List Block}
    (ht : Tiled h ((pre ++ c :: post) ++ b :: ys)) (hc : c.linked = true) :
    lastLinked 0 (pre ++ c :: post) heapNone ≠ heapNone := by
  rcases lastLinked_spec 0 (pre ++ c :: post) heapNone with ⟨-, hno⟩ | ⟨d, hd, -⟩
  · rw [hno c (by simp)] at hc
    cases hc
  · have := (ht.place_le (place_left hd (b :: ys))).2.2
    omega

/-- The blocks keep their places when one of them changes flags. -/
theorem mem_place_flag (b : Block)
    (hc : (o, c) ∈ place 0 (xs ++ b' :: ys)) (hsize : b'.size = b.size) :
    ∃ d, (o, d) ∈ place 0 (xs ++ b :: ys) ∧ d.size = c.size := by
  rw [place_append, List.mem_append, place, List.mem_cons] at hc
  rcases hc with hc | hc | hc
  · exact ⟨c, place_left hc _, rfl⟩
  · cases hc
    exact ⟨b, by simpa using place_mid xs ys b, hsize.symm⟩
  · exact ⟨c, place_right (by simpa [hsize] using hc), rfl⟩

theorem forall_mem_mid {P : Block → Prop} :
    (∀ c ∈ xs ++ b :: ys, P c) ↔ (∀ c ∈ xs, P c) ∧ P b ∧ ∀ c ∈ ys, P c := by
  rw [List.forall_mem_append, List.forall_mem_cons]

theorem forall_size_flag {P : Nat → Prop}
    (hall : ∀ c ∈ xs ++ b :: ys, P c.size) (hsize : b'.size = b.size) :
    ∀ c ∈ xs ++ b' :: ys, P c.size := by
  obtain ⟨hx, hb, hy⟩ := forall_mem_mid.1 hall
  exact forall_mem_mid.2 ⟨hx, hsize ▸ hb, hy⟩

/-- The arena after one block entered or left the free list: the header words are those of a chain,
and the head moves when no block before this one is linked. -/
theorem Tiled.relink {hd : Nat → BlockField → Nat} {linked : Bool} (ht : Tiled h (xs ++ b :: ys))
    (hs : SameState h h')
    (hchain : Chain hd (blockCookie h) 0 0 heapNone (xs ++ { b with linked } :: ys) heapNone)
    (hread : ∀ o c, (o, c) ∈ place 0 (xs ++ b :: ys) → ∀ f, readField h' o f = hd o f)
    (hhead : h'.freeHead = if lastLinked 0 xs heapNone = heapNone then
      firstLinked (span xs) ({ b with linked } :: ys) heapNone else h.freeHead) :
    Tiled h' (xs ++ { b with linked } :: ys) := by
  refine ⟨hs.context ht.context, ?_, ?_, ?_, ?_, ?_⟩
  · rw [hs.blockCookie]
    refine hchain.congr fun o c hc f => ?_
    obtain ⟨d, hd, -⟩ := mem_place_flag b hc rfl
    exact hread o d hd f
  · rw [hs.mappedSize, ← ht.span_eq]
    simp
  · rw [hhead, ht.head]
    rcases exists_firstLinked xs with hun | ⟨pre, c, post, rfl, hc, hpre⟩
    · rw [lastLinked_of_unlinked hun, if_pos rfl, firstLinked_append, firstLinked_of_unlinked hun,
        Nat.zero_add]
    · rw [if_neg (ht.lastLinked_ne hc), List.append_assoc, List.append_assoc, List.cons_append,
        List.cons_append, firstLinked_split hc hpre, firstLinked_split hc hpre]
  · exact forall_size_flag (P := fun n => 64 ≤ n) ht.size_ge rfl
  · exact forall_size_flag (P := fun n => n % 16 = 0) ht.size_align rfl

theorem removeFree_tiled (ht : Tiled h (xs ++ b :: ys)) (hl : b.linked = true) :
    Tiled (removeFree h (span xs)) (xs ++ { b with linked := false } :: ys) := by
  refine ht.relink (removeFree_same _) (ht.chain.unlink ht.size_pos ht.span_le)
    (fun o c hc f => readField_removeFree ht hl hc f) ?_
  obtain ⟨hprior, hnext⟩ := ht.header_links hl
  unfold removeFree
  simp only [hprior, hnext]
  show (linkBack _ _ _).freeHead = _
  rw [linkBack_freeHead, linkForward_freeHead]
  rfl

/-! ## Inserting a block into the free list -/

/-- The walk of `insert_free` past the blocks `todo` stops at the neighbours of the position after
them. It is at the last linked block of `done` and steps only at linked blocks of `todo`. -/
theorem insertFreeLoop_eq (ht : Tiled h (xs ++ b :: ys)) (hl : b.linked = false) :
    ∀ (todo done : List Block) (fuel : Nat), xs = done ++ todo → todo.length < fuel →
      insertFreeLoop h (span xs) fuel (lastLinked 0 done heapNone)
        (firstLinked (span done) (todo ++ b :: ys) heapNone) =
      some (lastLinked 0 xs heapNone, firstLinked (span xs + b.size) ys heapNone) := by
  intro todo
  induction todo with
  | nil =>
    intro done fuel hxs hfuel
    obtain ⟨fuel, rfl⟩ : ∃ n, fuel = n + 1 := ⟨fuel - 1, by omega⟩
    rw [List.append_nil] at hxs
    subst hxs
    rw [List.nil_append, firstLinked, hl, if_neg (by simp), insertFreeLoop, if_neg]
    rintro ⟨hne, hlt⟩
    rcases le_firstLinked (span xs + b.size) ys with hn | hge
    · exact hne hn
    · omega
  | cons c todo ih =>
    intro done fuel hxs hfuel
    have hxs' : xs = (done ++ [c]) ++ todo := by rw [hxs]; simp
    rw [List.length_cons] at hfuel
    have hspan : span (done ++ [c]) = span done + c.size := by simp
    cases hc : c.linked with
    | false =>
      have hlast : lastLinked 0 (done ++ [c]) heapNone = lastLinked 0 done heapNone := by
        rw [lastLinked_append, lastLinked, hc, if_neg (by simp), lastLinked]
      have key := ih (done ++ [c]) fuel hxs' (by omega)
      rw [hlast, hspan] at key
      rw [List.cons_append, firstLinked, hc, if_neg (by simp)]
      exact key
    | true =>
      obtain ⟨fuel, rfl⟩ : ∃ n, fuel = n + 1 := ⟨fuel - 1, by omega⟩
      have hsplit : xs ++ b :: ys = done ++ c :: (todo ++ b :: ys) := by rw [hxs]; simp
      have htc : Tiled h (done ++ c :: (todo ++ b :: ys)) := hsplit ▸ ht
      have hlast : lastLinked 0 (done ++ [c]) heapNone = span done := by
        rw [lastLinked_append, lastLinked, hc, if_pos rfl, lastLinked, Nat.zero_add]
      have hcs := htc.size_ge c (by simp)
      have hnone := (htc.place_le (place_mid done (todo ++ b :: ys) c)).2.2
      have hlt : span done < span xs := by
        rw [hxs]
        simp only [span_append, span_cons]
        omega
      have key := ih (done ++ [c]) fuel hxs' (by omega)
      rw [hlast, hspan] at key
      rw [List.cons_append, firstLinked, hc, if_pos rfl, insertFreeLoop,
        if_pos ⟨by omega, hlt⟩, (htc.header_links hc).2]
      exact key

theorem insertFree_neighbours (ht : Tiled h (xs ++ b :: ys)) (hl : b.linked = false) :
    insertFreeLoop h (span xs) (h.mappedSize + 1) heapNone h.freeHead =
      some (lastLinked 0 xs heapNone, firstLinked (span xs + b.size) ys heapNone) := by
  have hlen := ht.length_le
  simp only [List.length_append, List.length_cons] at hlen
  have key := insertFreeLoop_eq ht hl xs [] (h.mappedSize + 1) rfl (by omega)
  rw [ht.head]
  exact key

/-- The heap `insert_free` leaves when `fp` and `fn` are the neighbours. -/
def insertedFree (h : HeapCore γ) (offset fp fn : Nat) : HeapCore γ :=
  linkBack (linkForward (writeField (writeField h offset .freePrev fp) offset .freeNext fn) fp
    offset) fn offset

theorem insertFree_eq (ht : Tiled h (xs ++ b :: ys)) (hl : b.linked = false) :
    insertFree h (span xs) = some (insertedFree h (span xs) (lastLinked 0 xs heapNone)
      (firstLinked (span xs + b.size) ys heapNone)) := by
  unfold insertFree
  rw [insertFree_neighbours ht hl]
  rfl

theorem insertedFree_same (o fp fn : Nat) : SameState h (insertedFree h o fp fn) :=
  (writeField_same _ _ _).trans <| (writeField_same _ _ _).trans <|
    (linkForward_same _ _ _).trans (linkBack_same _ _ _)

theorem insertedFree_memory (ha : OutsideHeaders h (xs ++ b :: ys) a) :
    (insertedFree h (span xs) (lastLinked 0 xs heapNone)
      (firstLinked (span xs + b.size) ys heapNone)).memory a = h.memory a := by
  have hself := ha _ _ (place_mid xs ys b)
  have hp := ha.of_placed (lastLinked_placed xs ys b)
  have hn := ha.of_placed (firstLinked_placed xs ys b)
  unfold insertedFree
  rw [linkBack_memory, linkForward_memory, writeField_memory, writeField_memory hself]
  · exact hself
  · exact hp
  · simpa using hn

theorem readField_insertedFree (ht : Tiled h (xs ++ b :: ys))
    (ho : (o, c) ∈ place 0 (xs ++ b :: ys)) (f : BlockField) :
    readField (insertedFree h (span xs) (lastLinked 0 xs heapNone)
        (firstLinked (span xs + b.size) ys heapNone)) o f =
      linkWords (readField h) (span xs) (lastLinked 0 xs heapNone)
        (firstLinked (span xs + b.size) ys heapNone) o f := by
  obtain ⟨hfp, hfn⟩ := ht.neighbours_lt
  have hself := ht.apart ho (place_mid xs ys b)
  have hsepp := ht.sep_of_placed ho (lastLinked_placed xs ys b)
  have hsepn := ht.sep_of_placed ho (firstLinked_placed xs ys b)
  have hnone : heapNone < 2 ^ 64 := by decide
  have hoff := (ht.place_le (place_mid xs ys b)).2.2
  have hne : o ≠ heapNone := by
    have := (ht.place_le ho).2.2
    omega
  unfold insertedFree
  rw [readField_linkBack (by omega) hne hsepn, upd, readField_linkForward (by omega) hne hsepp, upd,
    readField_writeField hfn hself, upd, readField_writeField hfp hself]
  simp only [linkWords, upd]

theorem insertFree_tiled (ht : Tiled h (xs ++ b :: ys)) (hl : b.linked = false) :
    ∃ h', insertFree h (span xs) = some h' ∧
      Tiled h' (xs ++ { b with linked := true } :: ys) ∧ SameState h h' ∧
      ∀ a, OutsideHeaders h (xs ++ b :: ys) a → h'.memory a = h.memory a := by
  have hs := insertedFree_same (h := h) (span xs) (lastLinked 0 xs heapNone)
    (firstLinked (span xs + b.size) ys heapNone)
  refine ⟨_, insertFree_eq ht hl, ?_, hs, fun a ha => insertedFree_memory ha⟩
  refine ht.relink hs (ht.chain.link ht.size_pos ht.span_le)
    (fun o c hc f => readField_insertedFree ht hc f) ?_
  unfold insertedFree
  rw [linkBack_freeHead, linkForward_freeHead]
  rfl

/-! ## First fit -/

/-- What `find_fit` returns: no linked block is large enough, or the first one that is. -/
def FirstFit (bs : List Block) (needed o : Nat) : Prop :=
  (o = heapNone ∧ ∀ c ∈ bs, c.linked = true → c.size < needed) ∨
    ∃ xs b ys, bs = xs ++ b :: ys ∧ o = span xs ∧ b.linked = true ∧ needed ≤ b.size ∧
      ∀ c ∈ xs, c.linked = true → c.size < needed

theorem findFitLoop_spec (needed : Nat) :
    ∀ (todo done : List Block) (fuel : Nat), Tiled h (done ++ todo) → todo.length < fuel →
      (∀ c ∈ done, c.linked = true → c.size < needed) →
      ∃ o, findFitLoop h needed fuel (firstLinked (span done) todo heapNone) = some o ∧
        FirstFit (done ++ todo) needed o := by
  intro todo
  induction todo with
  | nil =>
    intro done fuel ht hfuel hdone
    obtain ⟨fuel, rfl⟩ : ∃ n, fuel = n + 1 := ⟨fuel - 1, by omega⟩
    rw [firstLinked, findFitLoop, if_neg (by simp)]
    exact ⟨heapNone, rfl, Or.inl ⟨rfl, by simpa using hdone⟩⟩
  | cons c todo ih =>
    intro done fuel ht hfuel hdone
    rw [List.length_cons] at hfuel
    have hsplit : done ++ c :: todo = (done ++ [c]) ++ todo := by simp
    have hspan : span (done ++ [c]) = span done + c.size := by simp
    cases hc : c.linked with
    | false =>
      obtain ⟨o, ho, hfit⟩ := ih (done ++ [c]) fuel (hsplit ▸ ht) (by omega) (by
        intro d hd hdl
        rcases List.mem_append.1 hd with hd | hd
        · exact hdone d hd hdl
        · rw [List.mem_singleton.1 hd, hc] at hdl
          cases hdl)
      refine ⟨o, ?_, hsplit ▸ hfit⟩
      rw [firstLinked, hc, if_neg (by simp), ← hspan]
      exact ho
    | true =>
      obtain ⟨fuel, rfl⟩ : ∃ n, fuel = n + 1 := ⟨fuel - 1, by omega⟩
      have hnone := (ht.place_le (place_mid done todo c)).2.2
      rw [firstLinked, hc, if_pos rfl, findFitLoop, if_pos (by omega), ht.blockSize_eq]
      by_cases hfit : needed ≤ c.size
      · rw [if_pos hfit]
        exact ⟨_, rfl, Or.inr ⟨done, c, todo, rfl, rfl, hc, hfit, hdone⟩⟩
      · rw [if_neg hfit, (ht.header_links hc).2]
        obtain ⟨o, ho, hres⟩ := ih (done ++ [c]) fuel (hsplit ▸ ht) (by omega) (by
          intro d hd hdl
          rcases List.mem_append.1 hd with hd | hd
          · exact hdone d hd hdl
          · rw [List.mem_singleton.1 hd]
            omega)
        rw [hspan] at ho
        exact ⟨o, ho, hsplit ▸ hres⟩

theorem findFit_spec (ht : Tiled h bs) (needed : Nat) :
    ∃ o, findFit h needed = some o ∧ FirstFit bs needed o := by
  have hlen := ht.length_le
  unfold findFit
  rw [ht.head]
  exact findFitLoop_spec needed bs [] (h.mappedSize + 1) ht (by omega) (by simp)

end Lists

end Utamo.Heap
