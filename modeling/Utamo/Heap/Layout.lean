import Utamo.Heap.Core

/-!
# Block lists and the headers that represent them

A heap in good order is a list of blocks that tile the arena. `Block` is a block without its
address: size, use, membership in the free list and requested bytes. `Chain hd ck off prev fp bs fn`
says that the headers `hd`, from the arena offset `off` on, are those of the blocks `bs`, when
`prev` is the size of the block before them, `fp` the last linked block before them and `fn` the
first linked block after them. Each header is thereby determined by the list, boundary tag and
free links included.

Between two steps of an operation a block can be neither used nor in the free list; `linked` is
therefore separate from `used`.

The second half of the file changes one header word at a time: the `freeNext` word of the last
linked block, the `freePrev` word of the first one, the boundary tag of the first block. These are
the writes a splice makes outside its own blocks.
-/

set_option autoImplicit false

namespace Utamo.Heap

open Lib Lib.ByteMemory

variable {off o d prev fp fn : Nat}

/-- A block of the arena. -/
structure Block where
  size : Nat
  used : Bool
  linked : Bool
  requested : Nat
  deriving DecidableEq, Repr

/-- The bytes a list of blocks covers. -/
def span : List Block → Nat
  | [] => 0
  | b :: bs => b.size + span bs

@[simp] theorem span_nil : span [] = 0 := rfl

@[simp] theorem span_cons (b : Block) (bs : List Block) : span (b :: bs) = b.size + span bs := rfl

@[simp] theorem span_append (xs ys : List Block) : span (xs ++ ys) = span xs + span ys := by
  induction xs with
  | nil => simp
  | cons b xs ih => simp [ih, Nat.add_assoc]

/-- The blocks with their arena offsets. -/
def place (off : Nat) : List Block → List (Nat × Block)
  | [] => []
  | b :: bs => (off, b) :: place (off + b.size) bs

/-- The offset of the first linked block, or `d` without one. -/
def firstLinked (off : Nat) : List Block → Nat → Nat
  | [], d => d
  | b :: bs, d => if b.linked then off else firstLinked (off + b.size) bs d

/-- The offset of the last linked block, or `d` without one. -/
def lastLinked (off : Nat) : List Block → Nat → Nat
  | [], d => d
  | b :: bs, d => lastLinked (off + b.size) bs (if b.linked then off else d)

/-- The size of the last block, or `prev` without one. -/
def lastSize (prev : Nat) : List Block → Nat
  | [] => prev
  | b :: bs => lastSize b.size bs

theorem place_append (off : Nat) (xs ys : List Block) :
    place off (xs ++ ys) = place off xs ++ place (off + span xs) ys := by
  induction xs generalizing off with
  | nil => simp [place]
  | cons b xs ih => simp [place, ih, Nat.add_assoc]

theorem firstLinked_append (off : Nat) (xs ys : List Block) (d : Nat) :
    firstLinked off (xs ++ ys) d = firstLinked off xs (firstLinked (off + span xs) ys d) := by
  induction xs generalizing off with
  | nil => simp [firstLinked]
  | cons b xs ih => simp [firstLinked, ih, Nat.add_assoc]

theorem lastLinked_append (off : Nat) (xs ys : List Block) (d : Nat) :
    lastLinked off (xs ++ ys) d = lastLinked (off + span xs) ys (lastLinked off xs d) := by
  induction xs generalizing off d with
  | nil => simp [lastLinked]
  | cons b xs ih => simp [lastLinked, ih, Nat.add_assoc]

theorem lastSize_append (prev : Nat) (xs ys : List Block) :
    lastSize prev (xs ++ ys) = lastSize (lastSize prev xs) ys := by
  induction xs generalizing prev with
  | nil => rfl
  | cons b xs ih => simp [lastSize, ih]

/-- A placed block splits the list. -/
theorem mem_place_iff {b : Block} {bs : List Block} :
    (o, b) ∈ place off bs ↔ ∃ xs ys, bs = xs ++ b :: ys ∧ o = off + span xs := by
  induction bs generalizing off with
  | nil => simp [place]
  | cons c bs ih =>
    simp only [place, List.mem_cons, Prod.mk.injEq, ih]
    constructor
    · rintro (⟨rfl, rfl⟩ | ⟨xs, ys, rfl, rfl⟩)
      · exact ⟨[], bs, rfl, by simp⟩
      · exact ⟨c :: xs, ys, rfl, by simp [Nat.add_assoc]⟩
    · rintro ⟨xs, ys, hsplit, rfl⟩
      cases xs with
      | nil =>
        simp only [List.nil_append, List.cons.injEq] at hsplit
        exact Or.inl ⟨by simp, hsplit.1.symm⟩
      | cons x xs =>
        simp only [List.cons_append, List.cons.injEq] at hsplit
        obtain ⟨rfl, rfl⟩ := hsplit
        exact Or.inr ⟨xs, ys, rfl, by simp [Nat.add_assoc]⟩

theorem place_bounds {b : Block} {bs : List Block} (h : (o, b) ∈ place off bs) :
    off ≤ o ∧ o + b.size ≤ off + span bs := by
  obtain ⟨xs, ys, rfl, rfl⟩ := mem_place_iff.1 h
  simp only [span_append, span_cons]
  omega

theorem mem_of_place {b : Block} {bs : List Block} (h : (o, b) ∈ place off bs) :
    b ∈ bs := by
  obtain ⟨xs, ys, rfl, rfl⟩ := mem_place_iff.1 h
  simp

/-- Two placed blocks are one block, or one ends before the other begins. -/
theorem place_apart {o' : Nat} {b b' : Block} {bs : List Block} (h : (o, b) ∈ place off bs)
    (h' : (o', b') ∈ place off bs) :
    (o = o' ∧ b = b') ∨ o + b.size ≤ o' ∨ o' + b'.size ≤ o := by
  induction bs generalizing off with
  | nil => simp [place] at h
  | cons c bs ih =>
    simp only [place, List.mem_cons, Prod.mk.injEq] at h h'
    rcases h with ⟨rfl, rfl⟩ | h
    · rcases h' with ⟨rfl, rfl⟩ | h'
      · exact Or.inl ⟨rfl, rfl⟩
      · exact Or.inr (Or.inl (place_bounds h').1)
    · rcases h' with ⟨rfl, rfl⟩ | h'
      · exact Or.inr (Or.inr (place_bounds h).1)
      · exact ih h h'

theorem firstLinked_spec (off : Nat) (bs : List Block) (d : Nat) :
    (firstLinked off bs d = d ∧ ∀ b ∈ bs, b.linked = false) ∨
      ∃ b, (firstLinked off bs d, b) ∈ place off bs ∧ b.linked = true := by
  induction bs generalizing off with
  | nil => exact Or.inl ⟨rfl, by simp⟩
  | cons c bs ih =>
    cases hc : c.linked with
    | true => exact Or.inr ⟨c, by simp [firstLinked, place, hc], hc⟩
    | false =>
      simp only [firstLinked, hc, place, Bool.false_eq_true, if_false]
      rcases ih (off + c.size) with ⟨h1, h2⟩ | ⟨b, hb, hl⟩
      · exact Or.inl ⟨h1, by simpa [hc] using h2⟩
      · exact Or.inr ⟨b, List.mem_cons_of_mem _ hb, hl⟩

theorem lastLinked_spec (off : Nat) (bs : List Block) (d : Nat) :
    (lastLinked off bs d = d ∧ ∀ b ∈ bs, b.linked = false) ∨
      ∃ b, (lastLinked off bs d, b) ∈ place off bs ∧ b.linked = true := by
  induction bs generalizing off d with
  | nil => exact Or.inl ⟨rfl, by simp⟩
  | cons c bs ih =>
    simp only [lastLinked, place]
    rcases ih (off + c.size) (if c.linked then off else d) with ⟨h1, h2⟩ | ⟨b, hb, hl⟩
    · cases hc : c.linked with
      | true =>
        rw [hc, if_pos rfl] at h1
        exact Or.inr ⟨c, by rw [if_pos rfl, h1]; simp, hc⟩
      | false =>
        rw [hc] at h1
        exact Or.inl ⟨by simpa using h1, by simpa [hc] using h2⟩
    · exact Or.inr ⟨b, List.mem_cons_of_mem _ hb, hl⟩

theorem firstLinked_of_unlinked {bs : List Block} (h : ∀ b ∈ bs, b.linked = false) :
    firstLinked off bs d = d := by
  induction bs generalizing off with
  | nil => rfl
  | cons c bs ih =>
    rw [firstLinked, h c (by simp), if_neg (by simp)]
    exact ih fun b hb => h b (by simp [hb])

theorem lastLinked_of_unlinked {bs : List Block} (h : ∀ b ∈ bs, b.linked = false) :
    lastLinked off bs d = d := by
  induction bs generalizing off with
  | nil => rfl
  | cons c bs ih =>
    rw [lastLinked, h c (by simp), if_neg (by simp)]
    exact ih fun b hb => h b (by simp [hb])

/-- A list is without linked blocks, or splits at its last linked block. -/
theorem exists_lastLinked (bs : List Block) :
    (∀ b ∈ bs, b.linked = false) ∨
      ∃ pre c post, bs = pre ++ c :: post ∧ c.linked = true ∧ ∀ b ∈ post, b.linked = false := by
  induction bs with
  | nil => exact Or.inl (by simp)
  | cons b bs ih =>
    rcases ih with hun | ⟨pre, c, post, rfl, hc, hpost⟩
    · cases hb : b.linked with
      | true => exact Or.inr ⟨[], b, bs, rfl, hb, hun⟩
      | false => exact Or.inl (by simpa [hb] using hun)
    · exact Or.inr ⟨b :: pre, c, post, rfl, hc, hpost⟩

/-- A list is without linked blocks, or splits at its first linked block. -/
theorem exists_firstLinked (bs : List Block) :
    (∀ b ∈ bs, b.linked = false) ∨
      ∃ pre c post, bs = pre ++ c :: post ∧ c.linked = true ∧ ∀ b ∈ pre, b.linked = false := by
  induction bs with
  | nil => exact Or.inl (by simp)
  | cons b bs ih =>
    cases hb : b.linked with
    | true => exact Or.inr ⟨[], b, bs, rfl, hb, by simp⟩
    | false =>
      rcases ih with hun | ⟨pre, c, post, rfl, hc, hpre⟩
      · exact Or.inl (by simpa [hb] using hun)
      · exact Or.inr ⟨b :: pre, c, post, rfl, hc, by simpa [hb] using hpre⟩

theorem lastLinked_split {pre post : List Block} {c : Block} (hc : c.linked = true)
    (hpost : ∀ b ∈ post, b.linked = false) :
    lastLinked off (pre ++ c :: post) d = off + span pre := by
  rw [lastLinked_append, lastLinked, hc, if_pos rfl, lastLinked_of_unlinked hpost]

theorem firstLinked_split {pre post : List Block} {c : Block} (hc : c.linked = true)
    (hpre : ∀ b ∈ pre, b.linked = false) :
    firstLinked off (pre ++ c :: post) d = off + span pre := by
  rw [firstLinked_append, firstLinked_of_unlinked hpre, firstLinked, hc, if_pos rfl]

/-! ## Headers -/

/-- The header words of block `b` between the linked blocks `fp` and `fn`. -/
structure HeaderIs (hd : BlockField → Nat) (cookie prev fp fn : Nat) (b : Block) : Prop where
  sizeFlags : hd .sizeFlags = b.size + if b.used then 1 else 0
  prevSize : hd .prevSize = prev
  requested : hd .requested = b.requested
  freePrev : hd .freePrev = if b.linked then fp else heapNone
  freeNext : hd .freeNext = if b.linked then fn else heapNone
  cookie : hd .cookie = cookie

theorem HeaderIs.congr {hd hd' : BlockField → Nat} {cookie : Nat} {b : Block}
    (hb : HeaderIs hd cookie prev fp fn b) (heq : ∀ f, hd' f = hd f) :
    HeaderIs hd' cookie prev fp fn b := by
  have hfun : hd' = hd := funext heq
  rw [hfun]
  exact hb

/-- A header that differs in its free links only. -/
theorem HeaderIs.relink {hd hd' : BlockField → Nat} {cookie fp' fn' : Nat} {b : Block}
    {linked : Bool} (hb : HeaderIs hd cookie prev fp fn b)
    (hsame : ∀ f, f ≠ .freePrev → f ≠ .freeNext → hd' f = hd f)
    (hprior : hd' .freePrev = if linked then fp' else heapNone)
    (hnext : hd' .freeNext = if linked then fn' else heapNone) :
    HeaderIs hd' cookie prev fp' fn' { b with linked } := by
  refine ⟨?_, ?_, ?_, hprior, hnext, ?_⟩
  all_goals rw [hsame _ (by decide) (by decide)]
  · exact hb.sizeFlags
  · exact hb.prevSize
  · exact hb.requested
  · exact hb.cookie

/-- The headers `hd` from offset `off` on are those of the blocks `bs`. -/
def Chain (hd : Nat → BlockField → Nat) (ck : Nat → Nat) (off prev fp : Nat) :
    List Block → Nat → Prop
  | [], _ => True
  | b :: bs, fn =>
    HeaderIs (hd off) (ck off) prev fp (firstLinked (off + b.size) bs fn) b ∧
      Chain hd ck (off + b.size) b.size (if b.linked then off else fp) bs fn

/-- Overwrite one header word. -/
def upd (hd : Nat → BlockField → Nat) (x : Nat) (y : BlockField) (v : Nat) :
    Nat → BlockField → Nat :=
  fun o f => if o = x ∧ f = y then v else hd o f

section Chains

variable {hd hd' : Nat → BlockField → Nat} {ck : Nat → Nat}

theorem chain_append {xs ys : List Block} :
    Chain hd ck off prev fp (xs ++ ys) fn ↔
      Chain hd ck off prev fp xs (firstLinked (off + span xs) ys fn) ∧
        Chain hd ck (off + span xs) (lastSize prev xs) (lastLinked off xs fp) ys fn := by
  induction xs generalizing off prev fp with
  | nil => simp [Chain, lastSize, lastLinked]
  | cons b xs ih =>
    simp only [List.cons_append, Chain, ih, firstLinked_append, span_cons, lastSize, lastLinked,
      Nat.add_assoc, and_assoc]

/-- A chain depends only on the headers of its blocks. -/
theorem Chain.congr {bs : List Block} (h : Chain hd ck off prev fp bs fn)
    (heq : ∀ o b, (o, b) ∈ place off bs → ∀ f, hd' o f = hd o f) :
    Chain hd' ck off prev fp bs fn := by
  induction bs generalizing off prev fp with
  | nil => trivial
  | cons b bs ih =>
    obtain ⟨hb, hbs⟩ := h
    exact ⟨hb.congr (heq off b (by simp [place])),
      ih hbs fun o c hc => heq o c (by simp [place, hc])⟩

/-- The header of a placed block. -/
theorem Chain.header {xs ys : List Block} {b : Block}
    (h : Chain hd ck off prev fp (xs ++ b :: ys) fn) :
    HeaderIs (hd (off + span xs)) (ck (off + span xs)) (lastSize prev xs) (lastLinked off xs fp)
      (firstLinked (off + span xs + b.size) ys fn) b :=
  (chain_append.1 h).2.1

/-- Without linked blocks the free neighbours do not matter. -/
theorem Chain.of_unlinked {bs : List Block}
    (hun : ∀ b ∈ bs, b.linked = false) (h : Chain hd ck off prev fp bs fn) (fp' fn' : Nat) :
    Chain hd ck off prev fp' bs fn' := by
  induction bs generalizing off prev fp fp' with
  | nil => trivial
  | cons b bs ih =>
    obtain ⟨hb, hbs⟩ := h
    have hbu : b.linked = false := hun b (by simp)
    refine ⟨⟨hb.sizeFlags, hb.prevSize, hb.requested, ?_, ?_, hb.cookie⟩,
      ih (fun c hc => hun c (by simp [hc])) hbs _⟩
    · simpa [hbu] using hb.freePrev
    · simpa [hbu] using hb.freeNext

/-- A word of a header outside the chain. -/
theorem Chain.upd_outside {x v : Nat} {y : BlockField} {bs : List Block}
    (h : Chain hd ck off prev fp bs fn) (hpos : ∀ b ∈ bs, 0 < b.size)
    (hx : x < off ∨ off + span bs ≤ x) : Chain (upd hd x y v) ck off prev fp bs fn := by
  refine h.congr fun o b hb f => ?_
  have hbds := place_bounds hb
  have hsize := hpos b (mem_of_place hb)
  unfold upd
  rw [if_neg (by omega)]

/-- Redirect the last linked block to `fn'`. -/
theorem Chain.setNext {bs : List Block} (hpos : ∀ b ∈ bs, 0 < b.size)
    (hbound : off + span bs ≤ heapNone) (h : Chain hd ck off prev fp bs fn) (fn' : Nat) :
    Chain (upd hd (lastLinked off bs heapNone) .freeNext fn') ck off prev fp bs fn' := by
  rcases exists_lastLinked bs with hun | ⟨pre, c, post, rfl, hc, hpost⟩
  · rw [lastLinked_of_unlinked hun]
    exact (h.of_unlinked hun fp fn').upd_outside hpos (Or.inr hbound)
  · rw [lastLinked_split hc hpost]
    rw [chain_append] at h ⊢
    obtain ⟨hpre, hcur, hrest⟩ := h
    have hcs : 0 < c.size := hpos c (by simp)
    refine ⟨?_, ?_, ?_⟩
    · rw [firstLinked, hc, if_pos rfl] at hpre ⊢
      exact hpre.upd_outside (fun b hb => hpos b (by simp [hb])) (by omega)
    · refine hcur.relink (fun f _ hf => if_neg fun h => hf h.2) ?_ ?_
      · simpa [upd] using hcur.freePrev
      · simp [upd, hc, firstLinked_of_unlinked hpost]
    · exact (hrest.of_unlinked hpost _ fn').upd_outside (fun b hb => hpos b (by simp [hb]))
        (by omega)

/-- Redirect the first linked block back to `fp'`. -/
theorem Chain.setPrior {bs : List Block} (hpos : ∀ b ∈ bs, 0 < b.size)
    (hbound : off + span bs ≤ heapNone) (h : Chain hd ck off prev fp bs fn) (fp' : Nat) :
    Chain (upd hd (firstLinked off bs heapNone) .freePrev fp') ck off prev fp' bs fn := by
  rcases exists_firstLinked bs with hun | ⟨pre, c, post, rfl, hc, hpre⟩
  · rw [firstLinked_of_unlinked hun]
    exact (h.of_unlinked hun fp' fn).upd_outside hpos (Or.inr hbound)
  · rw [firstLinked_split hc hpre]
    rw [chain_append] at h ⊢
    obtain ⟨hfront, hcur, hrest⟩ := h
    have hcs : 0 < c.size := hpos c (by simp)
    refine ⟨?_, ?_, ?_⟩
    · exact (hfront.of_unlinked hpre fp' _).upd_outside (fun b hb => hpos b (by simp [hb]))
        (by omega)
    · refine hcur.relink (fun f hf _ => if_neg fun h => hf h.2) ?_ ?_
      · simp [upd, hc, lastLinked_of_unlinked hpre]
      · simpa [upd] using hcur.freeNext
    · rw [hc, if_pos rfl] at hrest ⊢
      exact hrest.upd_outside (fun b hb => hpos b (by simp [hb])) (by omega)

/-- Change the boundary tag of the first block. -/
theorem Chain.setPrevSize {bs : List Block} (hpos : ∀ b ∈ bs, 0 < b.size)
    (h : Chain hd ck off prev fp bs fn) (prev' : Nat) :
    Chain (upd hd off .prevSize prev') ck off prev' fp bs fn := by
  cases bs with
  | nil => trivial
  | cons b bs =>
    obtain ⟨hb, hbs⟩ := h
    have hsize : 0 < b.size := hpos b (by simp)
    refine ⟨?_, hbs.upd_outside (fun c hc => hpos c (by simp [hc])) (by omega)⟩
    constructor
    · simpa [upd] using hb.sizeFlags
    · simp [upd]
    · simpa [upd] using hb.requested
    · simpa [upd] using hb.freePrev
    · simpa [upd] using hb.freeNext
    · simpa [upd] using hb.cookie

/-! ## Taking a block out of the free list and putting it back -/

/-- The header words after `offset` was unlinked from between `fp` and `fn`. -/
def unlinkWords (hd : Nat → BlockField → Nat) (offset fp fn : Nat) : Nat → BlockField → Nat :=
  upd (upd (upd (upd hd fp .freeNext fn) fn .freePrev fp) offset .freePrev heapNone)
    offset .freeNext heapNone

/-- The header words after `offset` was linked between `fp` and `fn`. -/
def linkWords (hd : Nat → BlockField → Nat) (offset fp fn : Nat) : Nat → BlockField → Nat :=
  upd (upd (upd (upd hd offset .freePrev fp) offset .freeNext fn) fp .freeNext offset)
    fn .freePrev offset

/-- The neighbours of a position in the free list lie on either side of it. -/
theorem lastLinked_lt {xs : List Block} (hpos : ∀ b ∈ xs, 0 < b.size) :
    lastLinked 0 xs heapNone = heapNone ∨ lastLinked 0 xs heapNone < span xs := by
  rcases lastLinked_spec 0 xs heapNone with ⟨h, -⟩ | ⟨c, hc, -⟩
  · exact Or.inl h
  · have hbds := place_bounds hc
    have hsize := hpos c (mem_of_place hc)
    exact Or.inr (by omega)

theorem le_firstLinked (off : Nat) (ys : List Block) :
    firstLinked off ys heapNone = heapNone ∨ off ≤ firstLinked off ys heapNone := by
  rcases firstLinked_spec off ys heapNone with ⟨h, -⟩ | ⟨c, hc, -⟩
  · exact Or.inl h
  · exact Or.inr (place_bounds hc).1

section Relink

variable {xs ys : List Block} {b : Block} (hpos : ∀ c ∈ xs ++ b :: ys, 0 < c.size)
  (hbound : span (xs ++ b :: ys) ≤ heapNone) (h : Chain hd ck 0 0 heapNone (xs ++ b :: ys) heapNone)

include hpos hbound h

/-- One block changes its place in the free list: of the others only its two neighbours change. -/
theorem Chain.relink (linked : Bool)
    (hframe : ∀ o < heapNone, o ≠ span xs → ∀ f, hd' o f =
      upd (upd hd (lastLinked 0 xs heapNone) .freeNext
          (firstLinked (span xs) ({ b with linked } :: ys) heapNone))
        (firstLinked (span xs + b.size) ys heapNone) .freePrev
        (if linked then span xs else lastLinked 0 xs heapNone) o f)
    (hsame : ∀ f, f ≠ .freePrev → f ≠ .freeNext → hd' (span xs) f = hd (span xs) f)
    (hprior : hd' (span xs) .freePrev = if linked then lastLinked 0 xs heapNone else heapNone)
    (hnext : hd' (span xs) .freeNext =
      if linked then firstLinked (span xs + b.size) ys heapNone else heapNone) :
    Chain hd' ck 0 0 heapNone (xs ++ { b with linked } :: ys) heapNone := by
  have hposx : ∀ c ∈ xs, 0 < c.size := fun c hc => hpos c (by simp [hc])
  have hposy : ∀ c ∈ ys, 0 < c.size := fun c hc => hpos c (by simp [hc])
  have hb : 0 < b.size := hpos b (by simp)
  have hfp := lastLinked_lt hposx
  have hfn := le_firstLinked (span xs + b.size) ys
  simp only [span_append, span_cons] at hbound
  rw [chain_append] at h ⊢
  simp only [Nat.zero_add] at h ⊢
  obtain ⟨hx, hcur, hy⟩ := h
  refine ⟨(hx.setNext hposx (by omega) _).congr fun o c hc f => ?_, hcur.relink hsame hprior hnext,
    (hy.setPrior hposy (by omega) _).congr fun o c hc f => ?_⟩
  · -- Before the block only the last linked block changes.
    have hbds := place_bounds hc
    have hsize := hposx c (mem_of_place hc)
    rw [hframe o (by omega) (by omega) f, upd, if_neg (by omega)]
  · -- After it only the first linked block changes.
    have hbds := place_bounds hc
    have hsize := hposy c (mem_of_place hc)
    have hne : o ≠ lastLinked 0 xs heapNone := by omega
    rw [hframe o (by omega) (by omega) f]
    simp only [upd, hne, false_and, if_false]

theorem Chain.unlink :
    Chain (unlinkWords hd (span xs) (lastLinked 0 xs heapNone)
      (firstLinked (span xs + b.size) ys heapNone)) ck 0 0 heapNone
      (xs ++ { b with linked := false } :: ys) heapNone := by
  refine h.relink hpos hbound false (fun o _ ho f => ?_) (fun f h1 h2 => ?_) ?_ ?_
  · simp [unlinkWords, upd, ho, firstLinked]
  · simp [unlinkWords, upd, h1, h2]
  all_goals simp [unlinkWords, upd]

theorem Chain.link :
    Chain (linkWords hd (span xs) (lastLinked 0 xs heapNone)
      (firstLinked (span xs + b.size) ys heapNone)) ck 0 0 heapNone
      (xs ++ { b with linked := true } :: ys) heapNone := by
  have hfp := lastLinked_lt fun c hc => hpos c (List.mem_append_left _ hc)
  have hfn := le_firstLinked (span xs + b.size) ys
  have hb := hpos b (by simp)
  have hlt := hbound
  simp only [span_append, span_cons] at hlt
  have hne : span xs ≠ lastLinked 0 xs heapNone := by omega
  have hne' : span xs ≠ firstLinked (span xs + b.size) ys heapNone := by omega
  refine h.relink hpos hbound true (fun o _ ho f => ?_) (fun f h1 h2 => ?_) ?_ ?_
  · simp [linkWords, upd, ho, firstLinked]
  · simp [linkWords, upd, h1, h2]
  · simp [linkWords, upd, hne']
  · simp [linkWords, upd, hne]

end Relink

end Chains

end Utamo.Heap
