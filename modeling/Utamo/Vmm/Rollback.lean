import Utamo.Vmm.Editing

/-!
# A mapping is made whole or not at all

`vmm_space_map` may need up to three new tables. Whatever its callbacks answer, a call that fails
frees the frames it has obtained, the last one first, and leaves every table as it was; a call that
succeeds commits the frames it has obtained and writes a single entry of the tables that were there.

`recorded` adds a record of the calls to any callbacks. The callbacks are otherwise arbitrary: a
call asks for each table at most once, so an answer that is a function of the context and of the
frame can be any pattern of answers.
-/

set_option autoImplicit false

namespace Utamo.Vmm

open Lib Lib.ByteMemory Memory

variable {γ : Type}
  {virt : Nat} {found : WalkResult}

/-! ## The record of the callbacks -/

/-- A call of a callback that changes its context, with the answer of `alloc`. -/
inductive CallbackCall where
  | alloc (frame : Option Nat)
  | free (frame : Nat)
  | commit (frame : Nat)
  | invalidate (virt : Nat)
  deriving DecidableEq, Repr

/-- The frames that calls have obtained, in order. -/
def obtained : List CallbackCall → List Nat
  | [] => []
  | .alloc (some frame) :: calls => frame :: obtained calls
  | _ :: calls => obtained calls

/-- The frames that calls have freed, in order. -/
def freed : List CallbackCall → List Nat
  | [] => []
  | .free frame :: calls => frame :: freed calls
  | _ :: calls => freed calls

/-- The frames that calls have committed, in order. -/
def committed : List CallbackCall → List Nat
  | [] => []
  | .commit frame :: calls => frame :: committed calls
  | _ :: calls => committed calls

/-- What a list of calls does with frames. -/
structure CallSummary (calls : List CallbackCall) (got gone kept : List Nat) : Prop where
  obtained : obtained calls = got
  freed : freed calls = gone
  committed : committed calls = kept

theorem CallSummary.alloc {calls : List CallbackCall} {got gone kept : List Nat} (frame : Nat)
    (h : CallSummary calls got gone kept) :
    CallSummary (.alloc (some frame) :: calls) (frame :: got) gone kept :=
  ⟨congrArg (frame :: ·) h.obtained, h.freed, h.committed⟩

theorem callSummary_frees (frames : List Nat) : CallSummary (frames.map .free) [] frames [] := by
  induction frames with
  | nil => exact ⟨rfl, rfl, rfl⟩
  | cons f frames ih => exact ⟨ih.obtained, congrArg (f :: ·) ih.freed, ih.committed⟩

theorem callSummary_commits (frames : List Nat) (virt : Nat) :
    CallSummary (frames.map .commit ++ [.invalidate virt]) [] [] frames := by
  induction frames with
  | nil => exact ⟨rfl, rfl, rfl⟩
  | cons f frames ih => exact ⟨ih.obtained, ih.freed, congrArg (f :: ·) ih.committed⟩

theorem CallSummary.append {calls more : List CallbackCall}
    {got gone kept got' gone' kept' : List Nat}
    (h : CallSummary calls got gone kept) (h' : CallSummary more got' gone' kept') :
    CallSummary (calls ++ more) (got ++ got') (gone ++ gone') (kept ++ kept') := by
  have hobtained : ∀ xs : List CallbackCall, Vmm.obtained (xs ++ more) = Vmm.obtained xs ++
      Vmm.obtained more := by
    intro xs
    induction xs with
    | nil => rfl
    | cons x xs ih =>
      cases x with
      | alloc frame => cases frame <;> simp only [List.cons_append, Vmm.obtained, ih]
      | free => exact ih
      | commit => exact ih
      | invalidate => exact ih
  have hfreed : ∀ xs : List CallbackCall, Vmm.freed (xs ++ more) = Vmm.freed xs ++
      Vmm.freed more := by
    intro xs
    induction xs with
    | nil => rfl
    | cons x xs ih => cases x <;> simp only [List.cons_append, Vmm.freed, ih]
  have hcommitted : ∀ xs : List CallbackCall,
      Vmm.committed (xs ++ more) = Vmm.committed xs ++ Vmm.committed more := by
    intro xs
    induction xs with
    | nil => rfl
    | cons x xs ih => cases x <;> simp only [List.cons_append, Vmm.committed, ih]
  refine ⟨?_, ?_, ?_⟩
  · rw [hobtained, h.obtained, h'.obtained]
  · rw [hfreed, h.freed, h'.freed]
  · rw [hcommitted, h.committed, h'.committed]

/-- The callbacks with a record of their calls. -/
def recorded (ops : VmmOps γ) : VmmOps (γ × List CallbackCall) where
  table c phys := ops.table c.1 phys
  alloc c := ((ops.alloc c.1).1, (ops.alloc c.1).2, c.2 ++ [.alloc (ops.alloc c.1).1])
  free c phys := (ops.free c.1 phys).map fun context => (context, c.2 ++ [.free phys])
  commit c phys := (ops.commit c.1 phys).map fun context => (context, c.2 ++ [.commit phys])
  invalidate c virt := (ops.invalidate c.1 virt, c.2 ++ [.invalidate virt])

/-- A space whose callbacks are recorded. -/
def recordedSpace (space : VmmSpace γ) : VmmSpace (γ × List CallbackCall) :=
  { rootPhys := space.rootPhys
    physicalMask := space.physicalMask
    nxEnabled := space.nxEnabled
    initialized := space.initialized
    ops := recorded space.ops }

/-- A state with a record. -/
def withRecord (s : VmmState γ) (calls : List CallbackCall) : VmmState (γ × List CallbackCall) :=
  ⟨(s.context, calls), s.memory⟩

section Recorded

variable {space : VmmSpace γ}

theorem physicalValid_recorded (phys : Nat) :
    physicalValid (recordedSpace space) phys = physicalValid space phys := rfl

theorem flagsValid_recorded (flags : Nat) :
    flagsValid (recordedSpace space) flags = flagsValid space flags := rfl

/-- A walk changes nothing, so it records nothing. -/
theorem walk_recorded (s : VmmState γ) (calls : List CallbackCall) (virt : Nat) :
    walk (recordedSpace space) (withRecord s calls) virt = walk space s virt := by
  have hloop : ∀ level phys ancestors writable user nx,
      walkLoop (recordedSpace space) (space.ops.table s.context) s.memory virt level phys ancestors
        writable user nx =
      walkLoop space (space.ops.table s.context) s.memory virt level phys ancestors
        writable user nx := by
    intro level
    induction level with
    | zero => intro _ _ _ _ _; rfl
    | succ level ih =>
      intro phys ancestors writable user nx
      rw [walkLoop, walkLoop]
      simp only [ih]
      rfl
  rw [walk, walk]
  show (if ¬ space.initialized = true ∨ ¬ memoryIsCanonical virt = true then none
    else walkLoop (recordedSpace space) (space.ops.table s.context) s.memory virt 4 space.rootPhys
      [] true true false) = _
  rw [hloop]

/-- A callback that is called for each of several frames. -/
theorem foldlM_recorded (call : γ → Nat → Option γ) (mark : Nat → CallbackCall) :
    ∀ (frames : List Nat) (c c' : γ) (calls : List CallbackCall), frames.foldlM call c = some c' →
      frames.foldlM (fun (c : γ × List CallbackCall) phys =>
        (call c.1 phys).map fun context => (context, c.2 ++ [mark phys])) (c, calls) =
      some (c', calls ++ frames.map mark) := by
  intro frames
  induction frames with
  | nil =>
    intro c c' calls h
    cases h
    rw [List.map_nil, List.append_nil]
    rfl
  | cons f frames ih =>
    intro c c' calls h
    rw [List.foldlM_cons] at h
    obtain ⟨c1, hcall, hrest⟩ := Option.bind_eq_some_iff.1 h
    rw [List.foldlM_cons, hcall, List.map_cons, List.append_cons calls (mark f) (frames.map mark)]
    exact ih c1 c' (calls ++ [mark f]) hrest

theorem rollback_recorded {c c' : γ} {frames : List Nat} (h : rollback space c frames = some c')
    (calls : List CallbackCall) :
    rollback (recordedSpace space) (c, calls) frames =
      some (c', calls ++ frames.reverse.map .free) :=
  foldlM_recorded space.ops.free .free frames.reverse c c' calls h

/-- The frames that the next calls of `alloc` return, up to the first that fails. -/
def nextFrames (ops : VmmOps γ) : Nat → γ → List Nat
  | 0, _ => []
  | n + 1, c =>
    match ops.alloc c with
    | (none, _) => []
    | (some frame, context) => frame :: nextFrames ops n context

/-- What the acquisition of tables did: its calls, the frames it obtained and what it wrote. -/
structure Acquisition (space : VmmSpace γ) (needed : Nat) (frames : List Nat) (s s' : VmmState γ)
    (out : Option (List Nat)) (calls : List CallbackCall) (new : List Nat) : Prop where
  run : ∀ log, acquireTables (recordedSpace space) needed frames (withRecord s log) =
    some (withRecord s' (log ++ calls), out)
  next : new <+: nextFrames space.ops needed s.context
  memory : ∀ x, frameOf x ∉ new → s'.memory x = s.memory x
  failed : out = none → CallSummary calls new (frames ++ new).reverse []
  passed : ∀ all, out = some all → all = frames ++ new ∧ CallSummary calls new [] [] ∧
    new.length = needed ∧
    ∀ f ∈ new, f % 4096 = 0

theorem acquireTables_recorded :
    ∀ (needed : Nat) (frames : List Nat) (s s' : VmmState γ) (out : Option (List Nat)),
      acquireTables space needed frames s = some (s', out) →
      ∃ calls new, Acquisition space needed frames s s' out calls new := by
  intro needed
  induction needed with
  | zero =>
    intro frames s s' out h
    rw [acquireTables, Option.some.injEq, Prod.mk.injEq] at h
    obtain ⟨rfl, rfl⟩ := h
    refine ⟨[], [], ?_, List.nil_prefix, fun _ _ => rfl, nofun, ?_⟩
    · intro log
      rw [List.append_nil]
      rfl
    · intro all hall
      cases hall
      exact ⟨(List.append_nil _).symm, ⟨rfl, rfl, rfl⟩, rfl, nofun⟩
  | succ needed ih =>
    intro frames s s' out h
    rw [acquireTables] at h
    cases halloc : space.ops.alloc s.context with
    | mk answer context =>
      have hrecorded : ∀ log, (recordedSpace space).ops.alloc (withRecord s log).context =
          (answer, context, log ++ [.alloc answer]) := by
        intro log
        show ((space.ops.alloc s.context).1, (space.ops.alloc s.context).2,
          log ++ [CallbackCall.alloc (space.ops.alloc s.context).1]) = _
        rw [halloc]
      rw [halloc] at h
      cases answer with
      | none =>
        obtain ⟨c', hroll, hresult⟩ := Option.bind_eq_some_iff.1 h
        rw [Option.pure_def, Option.some.injEq, Prod.mk.injEq] at hresult
        obtain ⟨rfl, rfl⟩ := hresult
        have hsummary : CallSummary (.alloc none :: frames.reverse.map .free) []
            frames.reverse [] :=
          ⟨(callSummary_frees _).obtained, (callSummary_frees _).freed,
            (callSummary_frees _).committed⟩
        refine ⟨.alloc none :: frames.reverse.map .free, [], ?_, List.nil_prefix,
          fun _ _ => rfl, ?_, nofun⟩
        · intro log
          rw [acquireTables, hrecorded,
            List.append_cons log (.alloc none) (frames.reverse.map .free)]
          simp only [rollback_recorded hroll, Option.bind_eq_bind, Option.bind_some,
            Option.pure_def]
          rfl
        · intro _
          rw [List.append_nil]
          exact hsummary
      | some phys =>
        simp only at h
        split at h
        · -- the frame is refused, and is freed first
          rename_i hrefused
          obtain ⟨c', hroll, hresult⟩ := Option.bind_eq_some_iff.1 h
          rw [Option.pure_def, Option.some.injEq, Prod.mk.injEq] at hresult
          obtain ⟨rfl, rfl⟩ := hresult
          refine ⟨.alloc (some phys) :: (frames ++ [phys]).reverse.map .free, [phys], ?_, ?_,
            fun _ _ => rfl, ?_, nofun⟩
          · intro log
            rw [acquireTables, hrecorded,
              List.append_cons log (.alloc (some phys)) ((frames ++ [phys]).reverse.map .free)]
            have hrefused' : ¬ physicalValid (recordedSpace space) phys = true ∨
                ¬ (recordedSpace space).ops.table (context,
                  log ++ [.alloc (some phys)]) phys = true :=
              hrefused
            simp only
            rw [if_pos hrefused']
            simp only [rollback_recorded hroll, Option.bind_eq_bind, Option.bind_some,
              Option.pure_def]
            rfl
          · rw [nextFrames, halloc]
            exact List.prefix_append [phys] _
          · intro _
            exact (callSummary_frees _).alloc phys
        · rename_i haccepted
          obtain ⟨calls, new, hacq⟩ := ih _ _ _ _ h
          have halign : phys % 4096 = 0 := by
            have hvalid := not_not.1 (not_or.1 haccepted).1
            rw [physicalValid, decide_eq_true_iff] at hvalid
            exact memoryIsPageAligned_iff.1 hvalid.1
          have hassoc : frames ++ [phys] ++ new = frames ++ phys :: new := by
            rw [List.append_assoc, List.singleton_append]
          refine ⟨.alloc (some phys) :: calls, phys :: new, ?_, ?_, ?_, ?_, ?_⟩
          · intro log
            rw [acquireTables, hrecorded, List.append_cons log (.alloc (some phys)) calls]
            have haccepted' : ¬ (¬ physicalValid (recordedSpace space) phys = true ∨
                ¬ (recordedSpace space).ops.table (context,
                  log ++ [.alloc (some phys)]) phys = true) :=
              haccepted
            simp only
            rw [if_neg haccepted']
            exact hacq.run (log ++ [.alloc (some phys)])
          · rw [nextFrames, halloc]
            exact List.cons_prefix_cons.2 ⟨rfl, hacq.next⟩
          · intro x hx
            rw [List.mem_cons, not_or] at hx
            rw [hacq.memory x hx.2]
            exact clear_page_of_ne halign hx.1
          · intro hnone
            rw [← hassoc]
            exact (hacq.failed hnone).alloc phys
          · intro all hall
            obtain ⟨hframes, hsummary, hlength, haligned⟩ := hacq.passed all hall
            refine ⟨hframes.trans hassoc, hsummary.alloc phys,
              by rw [List.length_cons, hlength], ?_⟩
            exact List.forall_mem_cons.2 ⟨halign, haligned⟩

end Recorded

/-! ## The tables of a space -/

/-- The tables that a space reaches from its root, with the level of each. -/
inductive TableOf (space : VmmSpace γ) (memory : ByteMemory) : Nat → Nat → Prop where
  | root : TableOf space memory 4 space.rootPhys
  | next {level table index : Nat} (htable : TableOf space memory (level + 2) table)
      (hindex : index < 512) (hpresent : hasFlag (load64 memory (entryAddress table index))
      vmmPresent = true) (hvalid :
      entryValid space (load64 memory (entryAddress table index)) (level + 2) = true)
      (hsize : hasFlag (load64 memory (entryAddress table index)) vmmHuge = false) :
      TableOf space memory (level + 1) (load64 memory (entryAddress table index) &&&
        space.physicalMask)

theorem TableOf.level_le {space : VmmSpace γ} {memory : ByteMemory} {level table : Nat}
    (h : TableOf space memory level table) : 1 ≤ level ∧ level ≤ 4 := by
  induction h with
  | root => omega
  | next _ _ _ _ _ ih => omega

/-- A walk ends at an entry of a table of the space. -/
theorem walkLoop_entry {space : VmmSpace γ} {table : Nat → Bool} {memory : ByteMemory} :
    ∀ level phys ancestors writable user nx, TableOf space memory level phys →
      walkLoop space table memory virt level phys ancestors writable user nx = some found →
      ∃ t, TableOf space memory found.level t ∧
        found.entry = entryAddress t (memoryPageIndex virt found.level) ∧
        found.value = load64 memory found.entry ∧
        (found.missing = false → found.level = 1 ∨ hasFlag found.value vmmHuge = true) := by
  intro level
  induction level with
  | zero =>
    intro phys ancestors writable user nx _ h
    cases h
  | succ level ih =>
    intro phys ancestors writable user nx htable h
    rw [walkLoop] at h
    split at h
    · cases h
    split at h
    · cases h
    simp only at h
    split at h
    · cases h
    rename_i hvalid
    split at h
    · rename_i hend
      rw [Option.some.injEq] at h
      subst h
      refine ⟨phys, htable, rfl, rfl, ?_⟩
      intro hmissing
      simp only [decide_eq_false_iff_not] at hmissing
      exact hend.resolve_left hmissing
    · rename_i hdeeper
      simp only [not_or, Bool.not_eq_true, Bool.not_eq_false] at hdeeper
      obtain ⟨hpresent, hlevel, hhuge⟩ := hdeeper
      cases level with
      | zero => exact absurd rfl hlevel
      | succ level =>
        have hindex : memoryPageIndex virt (level + 2) < 512 :=
          memoryPageIndex_lt (by omega) htable.level_le.2
        have hok : entryValid space
            (load64 memory (entryAddress phys (memoryPageIndex virt (level + 2))))
            (level + 2) = true := by
          by_contra hbad
          exact hvalid ⟨by rw [hpresent]; simp, hbad⟩
        exact ih _ _ _ _ _ (.next htable hindex hpresent hok hhuge) h

theorem walk_entry {space : VmmSpace γ} {s : VmmState γ}
    (h : walk space s virt = some found) :
    ∃ t, TableOf space s.memory found.level t ∧
      found.entry = entryAddress t (memoryPageIndex virt found.level) ∧
      found.value = load64 s.memory found.entry ∧
      (found.missing = false → found.level = 1 ∨ hasFlag found.value vmmHuge = true) := by
  rw [walk] at h
  split at h
  · cases h
  · exact walkLoop_entry 4 _ _ _ _ _ .root h

/-- Frames that serve as tables before a call, all those of the space among them. -/
structure TableSet (space : VmmSpace γ) (memory : ByteMemory) (tables : Set Nat) : Prop where
  aligned : ∀ f ∈ tables, f % 4096 = 0
  reached : ∀ level f, TableOf space memory level f → f ∈ tables

/-- `alloc` returns no frame twice and no frame that serves as a table. -/
structure AllocFresh (ops : VmmOps γ) (c : γ) (tables : Set Nat) : Prop where
  nodup : (nextFrames ops 3 c).Nodup
  unused : ∀ f ∈ nextFrames ops 3 c, f ∉ tables
  word : ∀ f ∈ nextFrames ops 3 c, f < 2 ^ 64

theorem nextFrames_starts (ops : VmmOps γ) :
    ∀ (n m : Nat) (c : γ), n ≤ m → nextFrames ops n c <+: nextFrames ops m c := by
  intro n
  induction n with
  | zero => intro m c _; exact List.nil_prefix
  | succ n ih =>
    intro m c hle
    obtain ⟨m, rfl⟩ : ∃ k, m = k + 1 := ⟨m - 1, by omega⟩
    rw [nextFrames, nextFrames]
    split
    · exact List.nil_prefix
    · exact List.cons_prefix_cons.2 ⟨rfl, ih m _ (by omega)⟩

/-! ## The outcome of a call -/

/-- No entry of a table has changed. -/
def TablesKept (tables : Set Nat) (m m' : ByteMemory) : Prop :=
  ∀ f ∈ tables, ∀ i < 512, slot m' f i = slot m f i

/-- One empty entry of a table has been filled, and no other entry has changed. -/
def EntryFilled (tables : Set Nat) (m m' : ByteMemory) : Prop :=
  ∃ t ∈ tables, ∃ i < 512, slot m t i = 0 ∧ slot m' t i ≠ 0 ∧
    ∀ f ∈ tables, ∀ j < 512, ¬ (f = t ∧ j = i) → slot m' f j = slot m f j

section Outcome

variable {space : VmmSpace γ} {s : VmmState γ} {tables : Set Nat}

theorem tablesKept_of_bytes {m m' : ByteMemory} {new : List Nat} (hnew : ∀ f ∈ new, f ∉ tables)
    (hbytes : ∀ x, frameOf x ∉ new → m' x = m x) : TablesKept tables m m' := by
  intro f hf i _
  apply slot_congr
  intro x hx
  apply hbytes
  rw [hx]
  exact fun hmem => hnew f hmem hf

/-- The publishing store fills one entry. -/
theorem entryFilled_store {m m' : ByteMemory} {t i value : Nat}
    (haligned : ∀ f ∈ tables, f % 4096 = 0)
    (ht : t ∈ tables) (hi : i < 512) (hempty : load64 m (entryAddress t i) = 0)
    (hkept : TablesKept tables m m') (hvalue : value < 2 ^ 64) (hne : value ≠ 0) :
    EntryFilled tables m (store64 m' (entryAddress t i) value) := by
  have htable := haligned t ht
  refine ⟨t, ht, i, hi, ?_, ?_, ?_⟩
  · rw [slot_eq htable hi, hempty]
  · rw [slot_eq htable hi, load64_store64_self hvalue]
    exact hne
  · intro f hf j hj hother
    rw [slot_store htable hi hvalue, Radix.setSlot_of_ne hother]
    exact hkept f hf j hj

theorem or_present_ne_zero {a b : Nat} (h : hasFlag b vmmPresent = true) : a ||| b ≠ 0 := by
  intro hzero
  have hb : b = 0 := (Nat.or_eq_zero_iff.1 hzero).2
  rw [hb] at h
  cases h

end Outcome

/-- What a call of `vmm_space_map` did, by its result. -/
def MapAtomic (tables : Set Nat) (s s' : VmmState γ) (ok : Bool) (calls : List CallbackCall) :
    Prop :=
  (ok = false → TablesKept tables s.memory s'.memory ∧ (obtained calls).Nodup ∧
    freed calls = (obtained calls).reverse ∧ committed calls = []) ∧
  (ok = true → EntryFilled tables s.memory s'.memory ∧
    committed calls = obtained calls ∧ freed calls = [])

theorem mapAtomic_refused (tables : Set Nat) (s : VmmState γ) : MapAtomic tables s s false [] :=
  ⟨fun _ => ⟨fun _ _ _ _ => rfl, List.nodup_nil, rfl, rfl⟩, nofun⟩

section Map

variable {space : VmmSpace γ} {s s' : VmmState γ} {tables : Set Nat} {ok : Bool}

theorem mapThrough_recorded {leaf t : Nat} (hset : TableSet space s.memory tables)
    (hfresh : AllocFresh space.ops s.context tables) (htable : TableOf space s.memory found.level t)
    (hentry : found.entry = entryAddress t (memoryPageIndex virt found.level))
    (hempty : load64 s.memory found.entry = 0)
    (h : mapThrough space s found virt leaf = some (s', ok)) :
    ∃ calls, mapThrough (recordedSpace space) (withRecord s []) found virt leaf =
        some (withRecord s' calls, ok) ∧ MapAtomic tables s s' ok calls := by
  have hlevels := htable.level_le
  rw [mapThrough] at h
  obtain ⟨⟨s1, out⟩, hacquire, h⟩ := Option.bind_eq_some_iff.1 h
  obtain ⟨calls, new, hacq⟩ := acquireTables_recorded _ _ _ _ _ hacquire
  have hrun := hacq.run []
  have hstart : new <+: nextFrames space.ops 3 s.context :=
    hacq.next.trans (nextFrames_starts _ _ _ _ (by omega))
  have hunused : ∀ f ∈ new, f ∉ tables := fun f hf => hfresh.unused f (hstart.subset hf)
  have hkept : TablesKept tables s.memory s1.memory := tablesKept_of_bytes hunused hacq.memory
  cases out with
  | none =>
    rw [Option.pure_def, Option.some.injEq, Prod.mk.injEq] at h
    obtain ⟨rfl, rfl⟩ := h
    have hsummary := hacq.failed rfl
    rw [List.nil_append] at hsummary
    refine ⟨calls, ?_, ?_, nofun⟩
    · rw [mapThrough, hrun]
      rfl
    · intro _
      rw [hsummary.obtained]
      exact ⟨hkept, hfresh.nodup.sublist hstart.sublist, hsummary.freed, hsummary.committed⟩
  | some frames =>
    obtain ⟨hframes, hsummary, hlength, haligned⟩ := hacq.passed frames rfl
    rw [List.nil_append] at hframes
    subst hframes
    obtain ⟨c2, hcommit, hresult⟩ := Option.bind_eq_some_iff.1 h
    rw [Option.pure_def, Option.some.injEq, Prod.mk.injEq] at hresult
    obtain ⟨rfl, rfl⟩ := hresult
    have hcommitted := foldlM_recorded space.ops.commit .commit frames s1.context c2 calls hcommit
    have hall := hsummary.append (callSummary_commits frames virt)
    rw [List.append_nil, List.append_nil, List.nil_append] at hall
    refine ⟨calls ++ (frames.map .commit ++ [.invalidate virt]), ?_, nofun, ?_⟩
    · rw [mapThrough, hrun]
      simp only [Option.bind_eq_bind, Option.bind_some, List.nil_append]
      rw [← List.append_assoc]
      show (frames.foldlM (recorded space.ops).commit (s1.context, calls)).bind _ = _
      rw [show frames.foldlM (recorded space.ops).commit (s1.context, calls) = _ from hcommitted]
      rfl
    · intro _
      refine ⟨?_, hall.committed.trans hall.obtained.symm, hall.freed⟩
      -- the new tables are linked before the one store into a table that was there
      have hlinked : TablesKept tables s.memory
          (linkTables virt leaf (found.level - 1) frames s1.memory) := by
        apply tablesKept_of_bytes hunused
        intro x hx
        rw [linkTables_of_not_mem frames _ (by omega) (by omega) haligned hx]
        exact hacq.memory x hx
      have hhead : frames.headD 0 < 2 ^ 64 := by
        cases frames with
        | nil => decide
        | cons f rest => exact hfresh.word f (hstart.subset List.mem_cons_self)
      have hindex : memoryPageIndex virt found.level < 512 := memoryPageIndex_lt hlevels.1 hlevels.2
      show EntryFilled tables s.memory
        (store64 (linkTables virt leaf (found.level - 1) frames s1.memory)
        found.entry (frames.headD 0 ||| vmmNewParentFlags))
      rw [hentry] at hempty ⊢
      exact entryFilled_store hset.aligned (hset.reached _ _ htable) hindex hempty hlinked
        (Nat.or_lt_two_pow hhead (by decide)) (or_present_ne_zero (by decide))

/-- A mapping is made whole or not at all, whatever the callbacks answer. -/
theorem vmm_map_atomic {virt phys flags : Nat} (hset : TableSet space s.memory tables)
    (hfresh : AllocFresh space.ops s.context tables) (hphys : phys < 2 ^ 64)
    (hflags : flags < 2 ^ 64) (h : vmmSpaceMap space s virt phys flags = some (s', ok)) :
    ∃ calls, vmmSpaceMap (recordedSpace space) (withRecord s []) virt phys flags =
        some (withRecord s' calls, ok) ∧
      (ok = false → TablesKept tables s.memory s'.memory ∧ (obtained calls).Nodup ∧
        freed calls = (obtained calls).reverse ∧ committed calls = []) ∧
      (ok = true → EntryFilled tables s.memory s'.memory ∧
        committed calls = obtained calls ∧ freed calls = []) := by
  rw [vmmSpaceMap] at h
  rw [vmmSpaceMap]
  split at h
  · rename_i hrefused
    cases h
    exact ⟨[], if_pos hrefused, mapAtomic_refused tables s⟩
  rename_i hpassed
  have hpresent : hasFlag flags vmmPresent = true := by
    rw [not_or, not_not] at hpassed
    have hvalid := hpassed.1
    rw [flagsValid, decide_eq_true_iff] at hvalid
    exact hvalid.2.1
  rw [flagsValid_recorded, physicalValid_recorded, if_neg hpassed, walk_recorded]
  cases hwalk : walk space s virt with
  | none =>
    rw [hwalk] at h
    cases h
    exact ⟨[], rfl, mapAtomic_refused tables s⟩
  | some found =>
    obtain ⟨t, htable, hentry, hvalue, -⟩ := walk_entry hwalk
    have hlevels := htable.level_le
    have hindex : memoryPageIndex virt found.level < 512 := memoryPageIndex_lt hlevels.1 hlevels.2
    rw [hwalk] at h
    simp only at h ⊢
    split at h
    · rename_i hrefused
      cases h
      exact ⟨[], if_pos hrefused, mapAtomic_refused tables s⟩
    rename_i hfree
    rw [if_neg hfree]
    rw [not_or, not_or, not_not] at hfree
    have hempty : load64 s.memory found.entry = 0 := by
      rw [← hvalue]
      exact not_not.1 hfree.2.1
    split at h
    · rename_i hlast
      rw [Option.some.injEq, Prod.mk.injEq] at h
      obtain ⟨rfl, rfl⟩ := h
      refine ⟨[.invalidate virt], if_pos hlast, nofun, ?_⟩
      intro _
      refine ⟨?_, rfl, rfl⟩
      show EntryFilled tables s.memory (store64 s.memory found.entry (phys ||| flags))
      rw [hentry] at hempty ⊢
      exact entryFilled_store hset.aligned (hset.reached _ _ htable) hindex hempty
        (fun _ _ _ _ => rfl) (Nat.or_lt_two_pow hphys hflags) (or_present_ne_zero hpresent)
    · rename_i habove
      rw [if_neg habove]
      exact mapThrough_recorded hset hfresh htable hentry hempty h

/-- Callbacks whose allocations follow a script. -/
def scriptedOps : VmmOps (List (Option Nat)) where
  table _ _ := true
  alloc script := (script.headD none, script.tail)
  free script _ := some script
  commit script _ := some script
  invalidate script _ := script

/-- A space with an empty root. -/
def scriptedSpace : VmmSpace (List (Option Nat)) := ⟨0x1000, 0xfffff000, true, true, scriptedOps⟩

theorem scriptedSpace_tables : TableSet scriptedSpace (fun _ => 0) {0x1000} := by
  have hzero : ∀ a, load64 (fun _ => 0) a = 0 := fun a => loadLe_zero_of fun _ _ _ => rfl
  refine ⟨?_, ?_⟩
  · intro f hf
    rw [Set.mem_singleton_iff] at hf
    rw [hf]
  · intro level f hf
    cases hf with
    | root => rfl
    | next _ _ hpresent _ _ =>
      rw [hzero] at hpresent
      cases hpresent

/-- Three tables are missing: without the third frame the other two go back, with it the page
is mapped. -/
theorem vmm_map_atomic_scripts :
    (∃ s', vmmSpaceMap scriptedSpace ⟨[some 0x3000, some 0x4000, none], fun _ => 0⟩ 0 0x2000 3 =
      some (s', false) ∧ TablesKept {0x1000} (fun _ => 0) s'.memory) ∧
    ∃ s', vmmSpaceMap scriptedSpace ⟨[some 0x3000, some 0x4000, some 0x5000], fun _ => 0⟩ 0 0x2000
      3 = some (s', true) ∧ EntryFilled {0x1000} (fun _ => 0) s'.memory := by
  have hcalls : ∀ (script : List (Option Nat)) (ok : Bool),
      nextFrames scriptedOps 3 script <+: [0x3000, 0x4000, 0x5000] →
      (vmmSpaceMap scriptedSpace ⟨script, fun _ => 0⟩ 0 0x2000 3).map Prod.snd = some ok →
      ∃ s', vmmSpaceMap scriptedSpace ⟨script, fun _ => 0⟩ 0 0x2000 3 = some (s', ok) ∧
        (ok = false → TablesKept {0x1000} (fun _ => 0) s'.memory) ∧
        (ok = true → EntryFilled {0x1000} (fun _ => 0) s'.memory) := by
    intro script ok hnext hok
    obtain ⟨⟨s', _⟩, hrun, rfl⟩ := Option.map_eq_some_iff.1 hok
    have hfresh : AllocFresh scriptedOps script {0x1000} := by
      refine ⟨hnext.sublist.nodup (by decide), fun f hf => ?_, fun f hf => ?_⟩ <;>
        have hmem := hnext.subset hf <;> simp at hmem ⊢ <;> omega
    obtain ⟨calls, -, hfailed, hdone⟩ :=
      vmm_map_atomic scriptedSpace_tables hfresh (by decide) (by decide) hrun
    exact ⟨s', hrun, fun h => (hfailed h).1, fun h => (hdone h).1⟩
  obtain ⟨s₁, hfails, hkept, -⟩ := hcalls [some 0x3000, some 0x4000, none] false (by decide)
    (by decide +kernel)
  obtain ⟨s₂, hsucceeds, -, hfilled⟩ := hcalls [some 0x3000, some 0x4000, some 0x5000] true
    (by decide) (by decide +kernel)
  exact ⟨⟨s₁, hfails, hkept rfl⟩, s₂, hsucceeds, hfilled rfl⟩

end Map

end Utamo.Vmm
