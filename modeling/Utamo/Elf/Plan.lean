import Utamo.Elf.Core
import Utamo.Vmm.Editing

/-!
# What a valid program file says

A file that `elf_validate` accepts has program headers of which those of type `PT_LOAD` describe the
segments (`loadHeaders`). The plan has one segment for each of them, in order; the pages of the
segments are apart from each other and from the stack with its guard page, and the entry point is
backed by bytes of the file in a segment that may be executed (`PlanOf`).
-/

set_option autoImplicit false

namespace Utamo.Elf

open Lib Lib.ByteMemory AddressSpace

variable {size : Nat} {p : ProgramHeader}

/-- The program headers of a file. -/
def headers (data : ByteMemory) (count : Nat) : List ProgramHeader :=
  (List.range count).map fun i => programHeader data (headerOffset data + i * 56)

/-- The headers of the segments to load. -/
def loadHeaders (data : ByteMemory) : List ProgramHeader :=
  (headers data (headerCount data)).filter fun p => p.type = 1

/-- A segment that fits into the file and into the address space of a program. -/
structure SegmentSound (size : Nat) (p : ProgramHeader) : Prop where
  nonempty : 0 < p.memorySize
  file_le : p.fileSize ≤ p.memorySize
  in_file : p.offset + p.fileSize ≤ size
  low : userVmMin ≤ p.address
  high : p.address + p.memorySize ≤ userVmEnd
  exclusive : p.flags &&& 3 ≠ 3

/-- A segment that is writable and executable has both flags set. -/
theorem flags_both {flags : Nat} (hwrite : flags &&& 2 ≠ 0) (hexec : flags &&& 1 ≠ 0) :
    flags &&& 3 = 3 := by
  have hsplit : (flags &&& 2) ||| (flags &&& 1) = flags &&& 3 := by
    rw [← Nat.and_or_distrib_left]
    rfl
  have htwo : flags &&& 2 = (flags.testBit 1).toNat * 2 := Nat.and_two_pow flags 1
  have hone : flags &&& 1 = (flags.testBit 0).toNat * 1 := Nat.and_two_pow flags 0
  rw [htwo] at hwrite hsplit
  rw [hone] at hexec hsplit
  cases hw : flags.testBit 1 with
  | false => exact absurd (by rw [hw]; rfl) hwrite
  | true =>
    cases hx : flags.testBit 0 with
    | false => exact absurd (by rw [hx]; rfl) hexec
    | true =>
      rw [hw, hx] at hsplit
      exact hsplit.symm

theorem segmentAccepted_sound (h : segmentAccepted size p = true) :
    SegmentSound size p := by
  rw [segmentAccepted, decide_eq_true_eq] at h
  simp only [not_or] at h
  obtain ⟨h1, h2, h3, h4, h5, h6, h7, -, -, h10, -, -⟩ := h
  exact ⟨by omega, by omega, by omega, by omega, by omega, h10⟩

/-! ## Pages of a segment -/

section Pages

variable {size : Nat} {p : ProgramHeader} (hp : SegmentSound size p)

include hp

theorem SegmentSound.pageStart_eq : (headerSegment p).pageStart = p.address / 4096 * 4096 := by
  have hend : userVmEnd = 2 ^ 47 := rfl
  have hhigh := hp.high
  exact and_not_low (k := 12) (by omega)

theorem SegmentSound.pageEnd_eq :
    (headerSegment p).pageEnd = (p.address + p.memorySize + 4095) / 4096 * 4096 := by
  have hend : userVmEnd = 2 ^ 47 := rfl
  have hhigh := hp.high
  exact and_not_low (k := 12) (by omega)

end Pages

/-- The address is on a page with a byte of the segment. -/
def OnPageOf (p : ProgramHeader) (w : Nat) : Prop :=
  ∃ a, p.address ≤ a ∧ a < p.address + p.memorySize ∧ Vmm.SamePage w a

theorem SegmentSound.onPageOf_iff {w : Nat} (hp : SegmentSound size p) :
    OnPageOf p w ↔ (headerSegment p).pageStart ≤ w ∧ w < (headerSegment p).pageEnd := by
  have hpos := hp.nonempty
  rw [hp.pageStart_eq, hp.pageEnd_eq]
  constructor
  · rintro ⟨a, hlo, hhi, hpage⟩
    rw [Vmm.SamePage] at hpage
    omega
  · rintro ⟨hlo, hhi⟩
    -- The first byte of the segment on the page is its own first byte or that of the page.
    by_cases hfirst : p.address ≤ w / 4096 * 4096
    · refine ⟨w / 4096 * 4096, hfirst, by omega, ?_⟩
      rw [Vmm.SamePage]
      omega
    · refine ⟨p.address, le_refl _, by omega, ?_⟩
      rw [Vmm.SamePage]
      omega

/-! ## Plans -/

/-- Segments without a common page. -/
def Apart (s t : Segment) : Prop := s.pageEnd ≤ t.pageStart ∨ t.pageEnd ≤ s.pageStart

instance : Std.Symm Apart := ⟨fun _ _ h => h.symm⟩

/-- The entry point is backed by bytes of the file in an executable segment. -/
def EntryIn (entry : Nat) (p : ProgramHeader) : Prop :=
  p.flags &&& 1 ≠ 0 ∧ p.address ≤ entry ∧ entry < p.address + p.fileSize

/-- What is planned after some headers. -/
structure Planned (size entry : Nat) (loads : List ProgramHeader) (state : Plan × Bool) : Prop where
  segments : state.1.segments = loads.map headerSegment
  entry_eq : state.1.entry = entry
  sound : ∀ p ∈ loads, SegmentSound size p
  stack : ∀ p ∈ loads,
    execStackTop ≤ (headerSegment p).pageStart ∨ (headerSegment p).pageEnd ≤ execStackGuard
  apart : (loads.map headerSegment).Pairwise Apart
  executable : state.2 = true → ∃ p ∈ loads, EntryIn entry p

/-- What one header adds to a plan. -/
theorem planHeader_cases {plan : Plan} {executable : Bool}
    {state : Plan × Bool} (h : planHeader size p (plan, executable) = some state) :
    (p.type ≠ 1 ∧ state = (plan, executable)) ∨
    (p.type = 1 ∧ segmentAccepted size p = true ∧ pagesAccepted plan (headerSegment p) = true ∧
      state.1.segments = plan.segments ++ [headerSegment p] ∧ state.1.entry = plan.entry ∧
      (state.2 = true → executable = true ∨ EntryIn plan.entry p)) := by
  rw [planHeader] at h
  simp only at h
  split at h
  · rename_i hskip
    split at h
    · cases h
    · cases h
      left
      refine ⟨?_, rfl⟩
      rintro hload
      rw [hload] at hskip
      revert hskip
      decide
  split at h
  · cases h
  rename_i hload
  rw [not_not] at hload
  split at h
  · cases h
  rename_i haccepted
  rw [not_not] at haccepted
  split at h
  · cases h
  rename_i hpages
  rw [not_not] at hpages
  cases h
  right
  refine ⟨hload, haccepted, hpages, rfl, rfl, fun hexec => ?_⟩
  rw [Bool.or_eq_true] at hexec
  rcases hexec with hbefore | hhere
  · exact Or.inl hbefore
  · right
    rw [decide_eq_true_eq] at hhere
    obtain ⟨hflag, hlo, hhi⟩ := hhere
    have hlo' : p.address ≤ plan.entry := hlo
    have hhi' : plan.entry - p.address < p.fileSize := hhi
    exact ⟨hflag, hlo', by omega⟩

/-- One round of the loop of `elf_validate`. -/
theorem Planned.step {entry : Nat} {loads : List ProgramHeader} {state state' : Plan × Bool}
    (h : Planned size entry loads state) (hrun : planHeader size p state = some state') :
    Planned size entry (loads ++ [p].filter fun p => p.type = 1) state' := by
  rcases planHeader_cases hrun with ⟨hskip, rfl⟩ | ⟨hload, hok, hpages, hsegments, hentry, hexec⟩
  · have hnone : ([p].filter fun p => decide (p.type = 1)) = [] := by
      rw [List.filter_cons_of_neg (by rw [decide_eq_true_eq]; exact hskip), List.filter_nil]
    rw [hnone, List.append_nil]
    exact h
  have hone : ([p].filter fun p => decide (p.type = 1)) = [p] := by
    rw [List.filter_cons_of_pos (by rw [decide_eq_true_eq]; exact hload), List.filter_nil]
  rw [hone]
  have hsound := segmentAccepted_sound hok
  rw [pagesAccepted, decide_eq_true_eq] at hpages
  obtain ⟨hstack, -, hothers⟩ := hpages
  refine ⟨?_, hentry.trans h.entry_eq, ?_, ?_, ?_, ?_⟩
  · rw [hsegments, h.segments, List.map_append]
    rfl
  · exact List.forall_mem_append.2 ⟨h.sound, List.forall_mem_singleton.2 hsound⟩
  · refine List.forall_mem_append.2 ⟨h.stack, List.forall_mem_singleton.2 ?_⟩
    omega
  · rw [List.map_append, List.pairwise_append]
    refine ⟨h.apart, List.pairwise_singleton _ _, ?_⟩
    intro s hs t ht
    rw [List.map_singleton, List.mem_singleton] at ht
    rw [ht]
    -- The loop over the earlier segments found no common page.
    rw [Bool.not_eq_true, List.any_eq_false, h.segments] at hothers
    have hno := hothers s hs
    rw [decide_eq_true_eq] at hno
    rw [Apart]
    omega
  · intro htrue
    rcases hexec htrue with hbefore | hhere
    · obtain ⟨q, hq, hin⟩ := h.executable hbefore
      exact ⟨q, List.mem_append_left _ hq, hin⟩
    · rw [h.entry_eq] at hhere
      exact ⟨p, List.mem_append_right _ (List.mem_singleton.2 rfl), hhere⟩

/-- The plan of a valid file. -/
structure PlanOf (data : ByteMemory) (size : Nat) (plan : Plan) : Prop where
  segments : plan.segments = (loadHeaders data).map headerSegment
  entry : plan.entry = fileEntry data
  sound : ∀ p ∈ loadHeaders data, SegmentSound size p
  stack : ∀ p ∈ loadHeaders data,
    execStackTop ≤ (headerSegment p).pageStart ∨ (headerSegment p).pageEnd ≤ execStackGuard
  apart : plan.segments.Pairwise Apart
  executable : ∃ p ∈ loadHeaders data, EntryIn plan.entry p

theorem elfValidate_spec {data : ByteMemory} {plan : Plan}
    (h : elfValidate data size = some plan) : PlanOf data size plan := by
  rw [elfValidate] at h
  split at h
  · cases h
  obtain ⟨⟨plan', executable⟩, hloop, hend⟩ := Option.bind_eq_some_iff.1 h
  simp only at hend
  split at hend
  · cases hend
  rename_i hgood
  cases hend
  simp only [not_or, not_not] at hgood
  have hplanned : Planned size (fileEntry data) (loadHeaders data) (plan, executable) := by
    have hstart : Planned size (fileEntry data)
        ((headers data 0).filter fun p => p.type = 1) (⟨[], fileEntry data, 0⟩, false) :=
      ⟨rfl, rfl, nofun, nofun, .nil, nofun⟩
    refine forRangeM_of_eq_some (P := fun i state => Planned size (fileEntry data)
      ((headers data i).filter fun p => p.type = 1) state) (Nat.zero_le _) hloop hstart ?_
    intro i state state' _ _ hstate hround
    have hnext := hstate.step hround
    rw [← List.filter_append] at hnext
    rw [headers, List.range_succ, List.map_append]
    exact hnext
  have hsegments : plan.segments = (loadHeaders data).map headerSegment := hplanned.segments
  have hentry : plan.entry = fileEntry data := hplanned.entry_eq
  refine ⟨hsegments, hentry, hplanned.sound, hplanned.stack, ?_, ?_⟩
  · rw [hsegments]
    exact hplanned.apart
  · rw [hentry]
    exact hplanned.executable hgood.1

end Utamo.Elf
