import Utamo.KernelSpace.Pages
import Utamo.KernelSpace.Confinement

/-!
# Growth transactions

Every sequence of `heap_pages_grow` calls on one interval, for callbacks that keep their contract
and fail wherever the contract lets them. `PagesInv` is what holds between two calls: the first
`mapped_bytes` of the interval are mapped, and behind them is what others have mapped before. A call
that fails has left no trace, and one that succeeds has mapped each new page to a frame of its own.
-/

set_option autoImplicit false

namespace Utamo.Heap

open Lib Memory Vmm KernelSpace

variable {γ : Type}

/-- The pages of an interval, with the state of the callbacks. -/
structure PagesRun (γ : Type) where
  state : HeapPages γ
  context : γ

/-- A call of `heap_pages_grow`: the old and the new size. -/
structure GrowCall where
  oldMapped : Nat
  newMapped : Nat

def pagesExec (s : PagesRun γ) (call : GrowCall) : Option (PagesRun γ) :=
  (heapPagesGrow s.state s.context call.oldMapped call.newMapped).map fun out => ⟨out.1, out.2.1⟩

section Runs

variable (V : PageView γ) (ops : PageOps γ) (foreign : Nat → Option PageEntry)

/-- After a successful `heap_pages_init` for an interval in which others have mapped the
pages `foreign`. -/
def pagesStart (s : PagesRun γ) : Prop :=
  (∃ state base capacityBytes nx,
    heapPagesInit state base capacityBytes nx (some ops) = (s.state, true)) ∧
  V.good s.context ∧
  ∀ i, 4096 * i < s.state.capacityBytes →
    V.inside (s.state.base + 4096 * i) ∧ V.page s.context (s.state.base + 4096 * i) = foreign i

/-- The states of all runs. -/
def PagesReachable (s : PagesRun γ) : Prop :=
  Reachable (pagesStart V ops foreign) (fun _ _ => True) pagesExec s

/-- What holds between two calls. -/
structure PagesInv (s : PagesRun γ) : Prop where
  ops_eq : s.state.ops = some ops
  sound : s.state.corrupted = false
  good : V.good s.context
  inside : ∀ i, 4096 * i < s.state.capacityBytes → V.inside (s.state.base + 4096 * i)
  fits : s.state.mappedBytes ≤ s.state.capacityBytes
  mapped : ∀ i, 4096 * i < s.state.capacityBytes →
    (4096 * i < s.state.mappedBytes →
      V.page s.context (s.state.base + 4096 * i) ≠ none ∧ foreign i = none) ∧
    (s.state.mappedBytes ≤ 4096 * i → V.page s.context (s.state.base + 4096 * i) = foreign i)

end Runs

section Steps

variable {V : PageView γ} {ops : PageOps γ} {foreign : Nat → Option PageEntry} {s : PagesRun γ}

theorem PagesInv.start (hs : pagesStart V ops foreign s) : PagesInv V ops foreign s := by
  obtain ⟨⟨state, base, capacityBytes, nx, hinit⟩, hgood, hpages⟩ := hs
  rw [heapPagesInit] at hinit
  split at hinit
  · cases congrArg Prod.snd hinit
  have hstate := (congrArg Prod.fst hinit).symm
  simp only at hstate
  have hzero : s.state.mappedBytes = 0 := by rw [hstate]
  refine ⟨by rw [hstate], by rw [hstate], hgood, fun i hi => (hpages i hi).1, by omega, ?_⟩
  exact fun i hi => ⟨fun hlt => by omega, fun _ => (hpages i hi).2⟩

/-- A call keeps the mapped prefix and what is behind it. -/
theorem PagesInv.step (laws : PageLaws V ops) (hinv : PagesInv V ops foreign s) {call : GrowCall}
    {state' : HeapPages γ} {c' : γ} {ok : Bool}
    (hout : PagesOutcome V s.state call.oldMapped call.newMapped s.context state' c' ok) :
    PagesInv V ops foreign ⟨state', c'⟩ := by
  cases hout with
  | failed hgood hpages howned =>
    refine ⟨hinv.ops_eq, hinv.sound, hgood, hinv.inside, hinv.fits, ?_⟩
    intro i hi
    simp only
    rw [hpages _ (laws.arena _ (hinv.inside i hi))]
    exact hinv.mapped i hi
  | grown haccepted habsent hgrown =>
    rename_i frame
    rw [growAccepted, decide_eq_true_eq] at haccepted
    obtain ⟨-, -, -, hold, hle, hcap, holdAlign, hnewAlign⟩ := haccepted
    rw [memoryIsPageAligned_iff] at holdAlign hnewAlign
    refine ⟨hinv.ops_eq, hinv.sound, hgrown.good, hinv.inside, hcap, ?_⟩
    intro i hi
    simp only
    by_cases hnew : call.oldMapped ≤ 4096 * i ∧ 4096 * i < call.newMapped
    · -- a page of this transaction
      have hplace : s.state.base + 4096 * i =
          s.state.base + call.oldMapped + 4096 * (i - call.oldMapped / 4096) := by omega
      have hwas := (hinv.mapped i hi).2 (by omega)
      rw [hplace, habsent (i - call.oldMapped / 4096) (by omega)] at hwas
      rw [hplace, hgrown.mapped (i - call.oldMapped / 4096) (by omega)]
      exact ⟨fun _ => ⟨by rintro ⟨⟩, hwas.symm⟩, fun hle => by omega⟩
    · have harena := laws.arena _ (hinv.inside i hi)
      rw [hgrown.others _ harena fun j hj => by omega]
      exact (hinv.mapped i hi).imp (fun h hlt => h (by omega)) fun h hle => h (by omega)

theorem PagesInv.of_reachable (laws : PageLaws V ops) (hs : PagesReachable V ops foreign s) :
    PagesInv V ops foreign s := by
  have hstart : ∀ t, pagesStart V ops foreign t → PagesInv V ops foreign t :=
    fun t ht => PagesInv.start ht
  refine Reachable.invariant hstart ?_ hs
  intro t call t' hinv _ hexec
  obtain ⟨state', c', ok, hcall, hout⟩ :=
    heapPagesGrow_spec laws t.state (Or.inr hinv.ops_eq) hinv.inside
    hinv.good call.oldMapped call.newMapped
  rw [pagesExec, hcall] at hexec
  cases hexec
  exact hinv.step laws hout

end Steps

/-- In every run of transactions: the first `mapped_bytes` are mapped, none of them by others, the
pages behind them are what they were before the run (not mapped, if nobody had mapped them), and a
call either changes no page and no ownership, or maps every new page to a fresh, cleared frame of
its own and changes no other. -/
theorem heap_pages_transactional {V : PageView γ} {ops : PageOps γ} (laws : PageLaws V ops)
    {foreign : Nat → Option PageEntry} {s : PagesRun γ} (hs : PagesReachable V ops foreign s) :
    s.state.corrupted = false ∧
    (∀ i, 4096 * i < s.state.capacityBytes →
      (4096 * i < s.state.mappedBytes →
        V.page s.context (s.state.base + 4096 * i) ≠ none ∧ foreign i = none) ∧
      (s.state.mappedBytes ≤ 4096 * i → V.page s.context (s.state.base + 4096 * i) = foreign i)) ∧
    ∀ oldMapped newMapped, ∃ state' c' ok,
      heapPagesGrow s.state s.context oldMapped newMapped = some (state', c', ok) ∧
      (ok = false → state' = s.state ∧ PagesSame V s.context c' ∧ V.owned c' = V.owned s.context) ∧
      (ok = true → oldMapped = s.state.mappedBytes ∧ oldMapped ≤ newMapped ∧
        newMapped % 4096 = 0 ∧ state' = { s.state with mappedBytes := newMapped } ∧
        ∃ frame : Nat → Nat,
          V.owned c' = V.owned s.context ∪
          {f | ∃ i, i < (newMapped - oldMapped) / 4096 ∧ frame i = f} ∧
          (∀ i, i < (newMapped - oldMapped) / 4096 →
            V.page c' (s.state.base + oldMapped + 4096 * i) = some ⟨frame i, growFlags s.state.nx⟩ ∧
            frame i ∉ V.owned s.context ∧ frame i ∈ V.blank c' ∧ frame i % 4096 = 0) ∧
          (∀ i j, i < (newMapped - oldMapped) / 4096 → j < (newMapped - oldMapped) / 4096 →
            frame i = frame j → i = j) ∧
          (∀ v, ArenaPage v →
            (∀ i, i < (newMapped - oldMapped) / 4096 → v ≠ s.state.base + oldMapped + 4096 * i) →
            V.page c' v = V.page s.context v)) := by
  have hinv := PagesInv.of_reachable laws hs
  refine ⟨hinv.sound, hinv.mapped, fun oldMapped newMapped => ?_⟩
  obtain ⟨state', c', ok, hcall, hout⟩ :=
    heapPagesGrow_spec laws s.state (Or.inr hinv.ops_eq) hinv.inside
    hinv.good oldMapped newMapped
  refine ⟨state', c', ok, hcall, ?_⟩
  cases hout with
  | failed hgood hpages howned => exact ⟨fun _ => ⟨rfl, hpages, howned⟩, by rintro ⟨⟩⟩
  | grown haccepted habsent hgrown =>
    rename_i frame
    rw [growAccepted, decide_eq_true_eq] at haccepted
    obtain ⟨-, -, -, hold, hle, -, -, hnewAlign⟩ := haccepted
    rw [memoryIsPageAligned_iff] at hnewAlign
    refine ⟨by rintro ⟨⟩, fun _ => ⟨hold, hle, hnewAlign, rfl, frame, hgrown.owned, ?_,
      hgrown.distinct, hgrown.others⟩⟩
    intro i hi
    exact ⟨hgrown.mapped i hi, hgrown.fresh i hi, hgrown.blank i hi, hgrown.align i hi⟩

/-- Sixteen pages of the arena of the small machine, before the first call. -/
def bootPages : PagesRun KernelMachine where
  state := (heapPagesInit HeapPages.zero 0xffffc00000400000 0x10000 true (some kernelPageOps)).1
  context := bootMachine

theorem bootPages_start :
    pagesStart (kernelView bootMap bootMachine) kernelPageOps (fun _ => none) bootPages := by
  have hbase : bootPages.state.base = 0xffffc00000400000 := by decide +kernel
  have hcapacity : bootPages.state.capacityBytes = 0x10000 := by decide +kernel
  have hfirst : vmmDynamicBase = 0xffffc00000000000 := rfl
  have hsize : vmmDynamicSize = 0x8000000000 := rfl
  refine ⟨⟨HeapPages.zero, 0xffffc00000400000, 0x10000, true, rfl⟩,
    KernelWork.refl bootMachine_initialized.inv, ?_⟩
  intro i hi
  rw [hcapacity] at hi
  rw [hbase]
  have hin : InDynamic (0xffffc00000400000 + 4096 * i) := by
    rw [InDynamic]
    omega
  refine ⟨⟨by omega, ?_⟩, ?_⟩
  · rw [dynamicAddress, decide_eq_true_eq]
    have hmmio : mmioBase = 0xffffc00080000000 := rfl
    omega
  · apply kernelPage_zero.2
    exact leafAt_empty bootMachine_initialized.dynamic_empty (inDynamic_iff.1 hin).own

/-- Three pages are mapped. To a second user of the interval they are foreign, and its growth
changes nothing. -/
theorem heap_pages_transactional_boot :
    ∃ state' c', heapPagesGrow bootPages.state bootPages.context 0 0x3000 =
      some (state', c', true) ∧
      (∀ i, i < 3 → ∃ phys, kernelPage c' (0xffffc00000400000 + 0 + 4096 * i) =
        some ⟨phys, growFlags true⟩) ∧
      ∃ c'', heapPagesGrow bootPages.state c' 0 0x1000 = some (bootPages.state, c'', false) ∧
        PagesSame (kernelView bootMap bootMachine) c' c'' := by
  have hresults : (heapPagesGrow bootPages.state bootPages.context 0 0x3000).map
      (fun out => (out.2.2, (heapPagesGrow bootPages.state out.2.1 0 0x1000).map
        fun out => out.2.2)) = some (true, some false) := by
    decide +kernel
  have laws := kernelPageLaws bootMachine_initialized.inv
  have hreach : PagesReachable _ _ _ bootPages := .start bootPages_start
  obtain ⟨-, -, hcalls⟩ := heap_pages_transactional laws hreach
  obtain ⟨state', c', ok, hcall, -, hgrown⟩ := hcalls 0 0x3000
  rw [hcall, Option.map_some, Option.some.injEq, Prod.mk.injEq] at hresults
  obtain ⟨hok, hrefused⟩ := hresults
  obtain ⟨-, -, -, -, frame, -, hpages, -⟩ := hgrown hok
  -- the pages are what the second run starts with
  have hexec : pagesExec bootPages ⟨0, 0x3000⟩ = some ⟨state', c'⟩ := by rw [pagesExec, hcall]; rfl
  have hinv := PagesInv.of_reachable laws (hreach.step trivial hexec)
  have hforeign : pagesStart (kernelView bootMap bootMachine) kernelPageOps
      (fun i => kernelPage c' (bootPages.state.base + 4096 * i)) ⟨bootPages.state, c'⟩ :=
    ⟨bootPages_start.1, hinv.good, fun i hi => ⟨(bootPages_start.2.2 i hi).1, rfl⟩⟩
  obtain ⟨-, -, hcalls'⟩ := heap_pages_transactional laws (.start hforeign)
  obtain ⟨state'', c'', ok', hcall', hfailed, -⟩ := hcalls' 0 0x1000
  rw [hcall', Option.map_some, Option.some.injEq] at hrefused
  obtain ⟨rfl, hsame, -⟩ := hfailed hrefused
  refine ⟨state', c', by rw [hcall, show ok = true from hok], fun i hi => ⟨frame i, ?_⟩, c'',
    by rw [hcall', show ok' = false from hrefused], hsame⟩
  exact (hpages i (by omega)).1

end Utamo.Heap
