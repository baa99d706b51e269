import Utamo.AddressSpace.Contents
import Utamo.AddressSpace.Runs
import Utamo.Elf.Plan
import Mathlib.Data.Nat.Bitwise

/-!
# The image of a program

`elf_load` works on a machine; what it makes is an address space, and that is easier to describe by
its contents. `imageContents` is the load on contents, call by call, and `loadImage_ends` says that
the load on the machine shows it. What that image is at each address follows from the plan: the
pages of the segments do not meet, so each byte is written for one segment only.
-/

set_option autoImplicit false

namespace Utamo.Elf

open Lib Lib.ByteMemory AddressSpace Memory Pmm Vmm

variable {items : List Nat} {segment : Segment} {p : ProgramHeader} {w : Nat}

/-! ## Loading on contents -/

/-- The size of a batch of the copy loop. -/
def batchBytes (segment : Segment) (copied : Nat) : Nat :=
  if segment.fileSize - copied < userVmCopyLimit then segment.fileSize - copied else userVmCopyLimit

/-- The copy of a batch. -/
def batchContents (image : ByteMemory) (segment : Segment) (c : Contents) (copied : Nat) :
    Contents :=
  c.write (segment.address + copied)
    (readBytes image (segment.offset + copied) (batchBytes segment copied))

/-- The load of a segment. -/
def segmentContents (image : ByteMemory) (c : Contents) (segment : Segment) : Contents :=
  let pages := pageList segment.pageStart segment.pageEnd
  let c := pages.foldl (fun c va => c.mapPage va userVmWrite) c
  let c := (batchList segment.fileSize).foldl (batchContents image segment) c
  pages.foldl (fun c va => c.protectPage va segment.access) c

/-- One page of the stack. -/
def stackContents (c : Contents) (i : Nat) : Contents :=
  c.mapPage (execStackTop - (i + 1) * 4096) userVmWrite

/-- The load of a program. -/
def imageContents (image : ByteMemory) (segments : List Segment) (argument : ByteMemory)
    (length : Nat) : Contents :=
  let c := segments.foldl (segmentContents image) .empty
  let c := (List.range execStackPages).foldl stackContents c
  c.write argumentAddress (readBytes argument 0 (length + 1))

/-! ## The machine shows it -/

section Machine

variable {map : MemoryMap} {vm : Nat} {elsewhere : Set Nat} {start s : Machine} {c : Contents}
  {call : Machine → Option (Machine × Bool)} {image argument : ByteMemory}

/-- A load that stops leaves the space in order. -/
def LoadFailed (map : MemoryMap) (vm : Nat) (elsewhere : Set Nat) (start : Machine) (e : Stop)
    (s : Machine) : Prop :=
  e = .failed ∧ Kept map vm elsewhere start s

theorem attempt_ends {Q : Machine → Prop}
    (h : ∃ s' ok, call s = some (s', ok) ∧ Kept map vm elsewhere start s' ∧ (ok = true → Q s')) :
    Ends (attempt call s) (fun _ => Q) (LoadFailed map vm elsewhere start) := by
  obtain ⟨s', ok, hcall, hkept, hok⟩ := h
  rw [attempt, hcall]
  cases ok with
  | false => exact .error ⟨rfl, hkept⟩
  | true => exact .ok (hok rfl)

theorem allocPage_ends (h : HasContents map vm elsewhere start c s) (va : Nat) (access : UInt32) :
    Ends (attempt (fun s => userVmAllocPage s vm va access) s)
      (fun _ => HasContents map vm elsewhere start (c.mapPage va access))
      (LoadFailed map vm elsewhere start) :=
  attempt_ends (h.allocPage va access)

theorem protectPage_ends (h : HasContents map vm elsewhere start c s) (va : Nat) (access : UInt32) :
    Ends (attempt (fun s => some (userVmProtectPage s vm va access)) s)
      (fun _ => HasContents map vm elsewhere start (c.protectPage va access))
      (LoadFailed map vm elsewhere start) := by
  obtain ⟨s', ok, hcall, hrest⟩ := h.protectPage va access
  exact attempt_ends ⟨s', ok, congrArg some hcall, hrest⟩

theorem copyTo_ends (h : HasContents map vm elsewhere start c s) (dst : Nat) (memory : ByteMemory)
    (src bytes : Nat) :
    Ends (attempt (fun s => some (userVmCopyTo s vm dst (some (readBytes memory src bytes)) bytes))
      s) (fun _ => HasContents map vm elsewhere start (c.write dst (readBytes memory src bytes)))
      (LoadFailed map vm elsewhere start) := by
  obtain ⟨s', ok, hcall, hrest⟩ := h.copyTo dst (readBytes memory src bytes)
  rw [length_readBytes] at hcall
  exact attempt_ends ⟨s', ok, congrArg some hcall, hrest⟩

theorem loadSegment_ends (h : HasContents map vm elsewhere start c s) (segment : Segment) :
    Ends (loadSegment vm image segment s)
      (fun _ => HasContents map vm elsewhere start (segmentContents image c segment))
      (LoadFailed map vm elsewhere start) := by
  refine .seq (.forM (HasContents map vm elsewhere start) (fun c va => c.mapPage va userVmWrite)
    (fun va c t ht => ?_) _ c h) ?_
  · exact allocPage_ends ht va userVmWrite
  intro _ s₁ h₁
  refine .seq (.forM (HasContents map vm elsewhere start) (batchContents image segment)
    (fun copied c t ht => ?_) _ _ h₁) ?_
  · exact copyTo_ends ht _ image _ _
  intro _ s₂ h₂
  apply Ends.forM (HasContents map vm elsewhere start) (fun c va => c.protectPage va segment.access)
  · intro va c t ht
    exact protectPage_ends ht va segment.access
  · exact h₂

theorem loadImage_ends (image argument : ByteMemory)
    (h : HasContents map vm elsewhere start .empty s) (plan : Plan) (length : Nat) :
    Ends (loadImage vm image plan argument length s)
      (fun _ => HasContents map vm elsewhere start
        (imageContents image plan.segments argument length))
      (LoadFailed map vm elsewhere start) := by
  refine .seq (.forM (HasContents map vm elsewhere start) (segmentContents image)
    (fun segment c t ht => ?_) _ _ h) ?_
  · exact loadSegment_ends ht segment
  intro _ s₁ h₁
  refine .seq (.forM (HasContents map vm elsewhere start) stackContents
    (fun i c t ht => ?_) _ _ h₁) ?_
  · exact allocPage_ends ht _ userVmWrite
  intro _ s₂ h₂
  exact copyTo_ends h₂ argumentAddress argument 0 (length + 1)

end Machine

/-! ## The image, address by address -/

section Image

variable {image argument : ByteMemory} {c : Contents} {w first last : Nat}

theorem mem_pageList {va : Nat} (hfirst : first % 4096 = 0) (hlast : last % 4096 = 0) :
    va ∈ pageList first last ↔ va % 4096 = 0 ∧ first ≤ va ∧ va < last := by
  rw [pageList, List.mem_map]
  constructor
  · rintro ⟨k, hk, rfl⟩
    rw [List.mem_range] at hk
    omega
  · rintro ⟨halign, hlo, hhi⟩
    refine ⟨(va - first) / 4096, ?_, by omega⟩
    rw [List.mem_range]
    omega

/-- The pages of the loop are those between its bounds. -/
theorem pageList_hit (hfirst : first % 4096 = 0) (hlast : last % 4096 = 0) :
    (∃ va ∈ pageList first last, SamePage w va) ↔ first ≤ w ∧ w < last := by
  constructor
  · rintro ⟨va, hmem, hpage⟩
    rw [mem_pageList hfirst hlast] at hmem
    rw [SamePage] at hpage
    omega
  · rintro ⟨hlo, hhi⟩
    refine ⟨w / 4096 * 4096, ?_, ?_⟩
    · rw [mem_pageList hfirst hlast]
      omega
    · rw [SamePage]
      omega

theorem foldl_mapPage (c : Contents) (access : UInt32) (page : Nat → Nat)
    (h : ∃ a ∈ items, SamePage w (page a)) :
    items.foldl (fun c a => Contents.mapPage c (page a) access) c w = some (.of access 0) := by
  refine foldl_of_hit (fun a => SamePage w (page a)) (fun _ => some (.of access 0)) (fun _ => rfl)
    ?_ h c
  intro a _
  exact ⟨fun hhit _ => if_pos hhit, fun hmiss _ => if_neg hmiss⟩

theorem foldl_mapPage_of_miss (c : Contents) (access : UInt32) (page : Nat → Nat)
    (h : ¬ ∃ a ∈ items, SamePage w (page a)) :
    items.foldl (fun c a => Contents.mapPage c (page a) access) c w = c w := by
  apply foldl_of_miss
  intro a ha g
  exact if_neg fun hhit => h ⟨a, ha, hhit⟩

theorem foldl_protectPage {access : UInt32} (h : ∃ va ∈ items, SamePage w va) :
    items.foldl (fun c va => Contents.protectPage c va access) c w =
      (c w).map fun cell => .of access cell.byte := by
  refine foldl_of_hit (SamePage w) (Option.map fun cell => .of access cell.byte) ?_ ?_ h c
  · intro v
    cases v with
    | none => rfl
    | some cell => rfl
  · intro a _
    exact ⟨fun hhit _ => if_pos hhit, fun hmiss _ => if_neg hmiss⟩

theorem foldl_protectPage_of_miss {access : UInt32} (h : ¬ ∃ va ∈ items, SamePage w va) :
    items.foldl (fun c va => Contents.protectPage c va access) c w = c w := by
  apply foldl_of_miss
  intro a ha g
  exact if_neg fun hhit => h ⟨a, ha, hhit⟩

/-- A batch covers an address. -/
def InBatch (segment : Segment) (w copied : Nat) : Prop :=
  segment.address + copied ≤ w ∧ w < segment.address + copied + batchBytes segment copied

/-- Every batch stores the bytes of the file where they belong. -/
theorem batchContents_hit {copied : Nat} (h : InBatch segment w copied) :
    batchContents image segment c copied w = (c w).map fun cell =>
      { cell with byte := image (segment.offset + (w - segment.address)) } := by
  obtain ⟨hlo, hhi⟩ := h
  have hbyte : (readBytes image (segment.offset + copied) (batchBytes segment copied)).getD
      (w - (segment.address + copied)) 0 = image (segment.offset + (w - segment.address)) := by
    have hindex : w - (segment.address + copied) <
        (readBytes image (segment.offset + copied) (batchBytes segment copied)).length := by
      rw [length_readBytes]
      omega
    rw [List.getD_eq_getElem?_getD, List.getElem?_eq_getElem hindex, Option.getD_some,
      getElem_readBytes]
    exact congrArg image (by omega)
  rw [batchContents, Contents.write, length_readBytes, if_pos ⟨hlo, hhi⟩, hbyte]

theorem batchContents_miss {copied : Nat} (h : ¬ InBatch segment w copied) :
    batchContents image segment c copied w = c w := by
  rw [batchContents, Contents.write, length_readBytes]
  exact if_neg h

/-- The batches cover the bytes of the file. -/
theorem batchList_hit :
    (∃ copied ∈ batchList segment.fileSize, InBatch segment w copied) ↔
      segment.address ≤ w ∧ w < segment.address + segment.fileSize := by
  have hlimit : userVmCopyLimit = 65536 := rfl
  constructor
  · rintro ⟨copied, -, hlo, hhi⟩
    rw [batchBytes] at hhi
    split at hhi <;> omega
  · rintro ⟨hlo, hhi⟩
    refine ⟨(w - segment.address) / 65536 * 65536, ?_, ?_⟩
    · rw [batchList, List.mem_map]
      refine ⟨(w - segment.address) / 65536, ?_, rfl⟩
      rw [List.mem_range, hlimit]
      omega
    · rw [InBatch, batchBytes, hlimit]
      split <;> omega

/-- The byte of a segment at an address. -/
def segmentByte (image : ByteMemory) (segment : Segment) (w : Nat) : UInt8 :=
  if segment.address ≤ w ∧ w < segment.address + segment.fileSize then
    image (segment.offset + (w - segment.address))
  else 0

/-- Page bounds of a segment that contain the bytes of the file. -/
structure PagesOf (segment : Segment) : Prop where
  start_align : segment.pageStart % 4096 = 0
  end_align : segment.pageEnd % 4096 = 0
  start_le : segment.pageStart ≤ segment.address
  le_end : segment.address + segment.fileSize ≤ segment.pageEnd

theorem segmentContents_hit (hp : PagesOf segment)
    (hlo : segment.pageStart ≤ w) (hhi : w < segment.pageEnd) :
    segmentContents image c segment w =
      some (.of segment.access (segmentByte image segment w)) := by
  have hhit := (pageList_hit (w := w) hp.start_align hp.end_align).2 ⟨hlo, hhi⟩
  have hzero := foldl_mapPage c userVmWrite (fun va => va) hhit
  rw [segmentContents, foldl_protectPage hhit, segmentByte]
  -- The page is new; then each byte of the file is copied to it.
  by_cases hfile : segment.address ≤ w ∧ w < segment.address + segment.fileSize
  · have hbatch := batchList_hit.2 hfile
    rw [if_pos hfile, foldl_of_hit (InBatch segment w) (Option.map fun cell =>
      { cell with byte := image (segment.offset + (w - segment.address)) }) ?_ ?_ hbatch, hzero]
    · rfl
    · intro v
      cases v with
      | none => rfl
      | some cell => rfl
    · intro copied _
      exact ⟨fun h _ => batchContents_hit h, fun h _ => batchContents_miss h⟩
  · rw [if_neg hfile, foldl_of_miss, hzero]
    · rfl
    · intro copied hmem g
      exact batchContents_miss fun h => hfile (batchList_hit.1 ⟨copied, hmem, h⟩)

theorem segmentContents_miss (hp : PagesOf segment)
    (h : ¬ (segment.pageStart ≤ w ∧ w < segment.pageEnd)) :
    segmentContents image c segment w = c w := by
  have hmiss : ¬ ∃ va ∈ pageList segment.pageStart segment.pageEnd, SamePage w va :=
    fun hhit => h ((pageList_hit hp.start_align hp.end_align).1 hhit)
  have hstart := hp.start_le
  have hend := hp.le_end
  rw [segmentContents, foldl_protectPage_of_miss hmiss, foldl_of_miss]
  · exact foldl_mapPage_of_miss c userVmWrite (fun va => va) hmiss
  · intro copied hmem g
    refine batchContents_miss fun hin => h ?_
    have hfile := batchList_hit.1 ⟨copied, hmem, hin⟩
    omega

section Segments

variable {segments : List Segment} (hpages : ∀ segment ∈ segments, PagesOf segment)

include hpages

theorem foldl_segments_hit (hapart : segments.Pairwise Apart)
    (hmem : segment ∈ segments) (hlo : segment.pageStart ≤ w) (hhi : w < segment.pageEnd) :
    segments.foldl (segmentContents image) c w =
      some (.of segment.access (segmentByte image segment w)) := by
  -- A segment with a page of the address is this one: two segments have no common page.
  have hsame : ∀ t ∈ segments, t.pageStart ≤ w → w < t.pageEnd → t = segment := by
    intro t ht htlo hthi
    by_contra hne
    have hno : Apart t segment := hapart.forall ht hmem hne
    rw [Apart] at hno
    omega
  refine foldl_of_hit (fun t => t.pageStart ≤ w ∧ w < t.pageEnd)
    (fun _ => some (.of segment.access (segmentByte image segment w))) (fun _ => rfl) ?_
    ⟨segment, hmem, hlo, hhi⟩ c
  intro t ht
  refine ⟨fun hin g => ?_, fun hout g => segmentContents_miss (hpages t ht) hout⟩
  rw [← hsame t ht hin.1 hin.2]
  exact segmentContents_hit (hpages t ht) hin.1 hin.2

theorem foldl_segments_miss
    (h : ∀ segment ∈ segments, ¬ (segment.pageStart ≤ w ∧ w < segment.pageEnd)) :
    segments.foldl (segmentContents image) c w = c w := by
  apply foldl_of_miss
  intro segment hmem g
  exact segmentContents_miss (hpages segment hmem) (h segment hmem)

end Segments

/-- The lowest address of the stack. -/
def execStackBottom : Nat := execStackTop - execStackPages * 4096

theorem execStackBottom_eq : execStackBottom + 65536 = execStackTop := rfl

theorem stack_hit : (∃ i ∈ List.range execStackPages, SamePage w (execStackTop - (i + 1) * 4096)) ↔
    execStackBottom ≤ w ∧ w < execStackTop := by
  have hbottom := execStackBottom_eq
  have htop : execStackTop % 4096 = 0 := rfl
  have hpages : execStackPages = 16 := rfl
  generalize execStackTop = top at hbottom htop ⊢
  constructor
  · rintro ⟨i, hi, hpage⟩
    rw [List.mem_range] at hi
    rw [SamePage] at hpage
    omega
  · rintro ⟨hlo, hhi⟩
    refine ⟨(top - 1 - w) / 4096, ?_, ?_⟩
    · rw [List.mem_range]
      omega
    · rw [SamePage]
      omega

/-- The byte of the stack at an address. -/
def stackByte (argument : ByteMemory) (length w : Nat) : UInt8 :=
  if argumentAddress ≤ w ∧ w < argumentAddress + (length + 1) then
    argument (w - argumentAddress) else 0

theorem imageContents_stack {segments : List Segment} {length : Nat} (hlo : execStackBottom ≤ w)
    (hhi : w < execStackTop) :
    imageContents image segments argument length w =
      some (.of userVmWrite (stackByte argument length w)) := by
  have hpage := foldl_mapPage (segments.foldl (segmentContents image) .empty) userVmWrite
    (fun i => execStackTop - (i + 1) * 4096) (stack_hit.2 ⟨hlo, hhi⟩)
  rw [imageContents, Contents.write, length_readBytes, stackByte]
  by_cases hin : argumentAddress ≤ w ∧ w < argumentAddress + (length + 1)
  · have hindex : w - argumentAddress < (readBytes argument 0 (length + 1)).length := by
      rw [length_readBytes]
      omega
    rw [if_pos hin, if_pos hin, List.getD_eq_getElem?_getD, List.getElem?_eq_getElem hindex,
      Option.getD_some, getElem_readBytes, Nat.zero_add]
    exact congrArg (Option.map _) hpage
  · rw [if_neg hin, if_neg hin]
    exact hpage

theorem imageContents_of_ne {segments : List Segment} {length : Nat} (hlength : length < execArgMax)
    (h : ¬ (execStackBottom ≤ w ∧ w < execStackTop)) :
    imageContents image segments argument length w =
      segments.foldl (segmentContents image) .empty w := by
  have hout : ¬ (argumentAddress ≤ w ∧ w < argumentAddress + (length + 1)) := by
    have hbottom := execStackBottom_eq
    have hmax : execArgMax = 256 := rfl
    have harg : argumentAddress + 256 = execStackTop := rfl
    omega
  rw [imageContents, Contents.write, length_readBytes, if_neg hout]
  exact foldl_mapPage_of_miss _ userVmWrite (fun i => execStackTop - (i + 1) * 4096)
    (stack_hit.not.2 h)

end Image

/-! ## The result -/

/-- The access of a segment, bit by bit. -/
theorem cell_segmentAccess {flags : Nat} (h : flags &&& 3 ≠ 3) (byte : UInt8) :
    Cell.of (segmentAccess flags) byte = ⟨true, flags &&& 2 ≠ 0, flags &&& 1 ≠ 0, byte⟩ := by
  rw [segmentAccess]
  split
  · rename_i hwrite
    have hexec : flags &&& 1 = 0 := not_not.1 fun hexec => h (flags_both hwrite hexec)
    rw [hexec, decide_eq_true hwrite]
    rfl
  · rename_i hwrite
    split
    · rename_i hexec
      rw [decide_eq_false hwrite, decide_eq_true hexec]
      rfl
    · rename_i hexec
      rw [decide_eq_false hwrite, decide_eq_false hexec]
      rfl

theorem SegmentSound.pagesOf {size : Nat} (hp : SegmentSound size p) :
    PagesOf (headerSegment p) := by
  have hle := hp.file_le
  refine ⟨?_, ?_, ?_, ?_⟩
  · rw [hp.pageStart_eq]
    omega
  · rw [hp.pageEnd_eq]
    omega
  · rw [hp.pageStart_eq]
    show _ ≤ p.address
    omega
  · rw [hp.pageEnd_eq]
    show p.address + p.fileSize ≤ _
    omega

/-- The image of a program in its address space: the pages of its segments, the stack with the
argument, and nothing else; and where it starts. -/
structure Loaded (image argument : ByteMemory) (size : Nat) (cells : Contents) (start : Start) :
    Prop where
  segment : ∀ p ∈ loadHeaders image, ∀ w, OnPageOf p w →
    cells w = some ⟨true, p.flags &&& 2 ≠ 0, p.flags &&& 1 ≠ 0,
      if p.address ≤ w ∧ w < p.address + p.fileSize then image (p.offset + (w - p.address)) else 0⟩
  exclusive : ∀ p ∈ loadHeaders image, ¬ (p.flags &&& 2 ≠ 0 ∧ p.flags &&& 1 ≠ 0)
  in_file : ∀ p ∈ loadHeaders image, p.offset + p.fileSize ≤ size
  stack : ∃ length, length < 256 ∧ argument length = 0 ∧ (∀ i, i < length → argument i ≠ 0) ∧
    ∀ w, execStackTop - 16 * 4096 ≤ w → w < execStackTop →
      cells w = some ⟨true, true, false,
        if execStackTop - 256 ≤ w ∧ w < execStackTop - 256 + (length + 1) then
          argument (w - (execStackTop - 256))
        else 0⟩
  nothing : ∀ w, w < userVmEnd → (∀ p ∈ loadHeaders image, ¬ OnPageOf p w) →
    ¬ (execStackTop - 16 * 4096 ≤ w ∧ w < execStackTop) → cells w = none
  guard : ∀ w, execStackTop - 17 * 4096 ≤ w → w < execStackTop - 16 * 4096 → cells w = none
  entry : ∃ p ∈ loadHeaders image, p.flags &&& 1 ≠ 0 ∧ p.address ≤ start.entry ∧
    start.entry < p.address + p.fileSize
  entry_eq : start.entry = fileEntry image
  rsp_align : start.rsp % 16 = 0
  rsp_stack : execStackTop - 16 * 4096 ≤ start.rsp ∧ start.rsp < execStackTop
  argument_eq : start.userArgument = execStackTop - 256

section Result

variable {image argument : ByteMemory} {size : Nat} {plan : Plan} (hplan : PlanOf image size plan)

include hplan

theorem PlanOf.pages : ∀ segment ∈ plan.segments, PagesOf segment := by
  intro segment hmem
  rw [hplan.segments, List.mem_map] at hmem
  obtain ⟨p, hp, rfl⟩ := hmem
  exact (hplan.sound p hp).pagesOf

/-- Every address of a segment is below the guard page or above the stack. -/
theorem PlanOf.not_stack (hp : p ∈ loadHeaders image)
    (hw : OnPageOf p w) : w < execStackGuard ∨ execStackTop ≤ w := by
  rw [(hplan.sound p hp).onPageOf_iff] at hw
  have hstack := hplan.stack p hp
  omega

theorem PlanOf.imageContents_segment {length : Nat} (hlength : length < execArgMax)
    (hp : p ∈ loadHeaders image) (hw : OnPageOf p w) :
    imageContents image plan.segments argument length w =
      some ⟨true, p.flags &&& 2 ≠ 0, p.flags &&& 1 ≠ 0,
        if p.address ≤ w ∧ w < p.address + p.fileSize then
          image (p.offset + (w - p.address)) else 0⟩ := by
  have hsound := hplan.sound p hp
  have hin := hsound.onPageOf_iff.1 hw
  have hmem : headerSegment p ∈ plan.segments := by
    rw [hplan.segments]
    exact List.mem_map_of_mem hp
  have hout : ¬ (execStackBottom ≤ w ∧ w < execStackTop) := by
    have hnot := hplan.not_stack hp hw
    have hguard : execStackGuard + 4096 = execStackBottom := rfl
    omega
  rw [imageContents_of_ne hlength hout, foldl_segments_hit hplan.pages hplan.apart hmem hin.1 hin.2,
    ← cell_segmentAccess hsound.exclusive]
  rfl

theorem PlanOf.imageContents_nothing {length : Nat} (hlength : length < execArgMax)
    (hw : ∀ p ∈ loadHeaders image, ¬ OnPageOf p w)
    (hout : ¬ (execStackBottom ≤ w ∧ w < execStackTop)) :
    imageContents image plan.segments argument length w = none := by
  rw [imageContents_of_ne hlength hout, foldl_segments_miss hplan.pages]
  · rfl
  · intro segment hmem
    rw [hplan.segments, List.mem_map] at hmem
    obtain ⟨p, hp, rfl⟩ := hmem
    rw [← (hplan.sound p hp).onPageOf_iff]
    exact hw p hp

/-- The image that a plan makes. -/
theorem PlanOf.loaded {s : Machine} {vm : Nat} (hlength : argumentLength argument ≠ execArgMax)
    (hshows : Shows s vm (imageContents image plan.segments argument (argumentLength argument))) :
    Loaded image argument size (cellAt s vm)
      ⟨plan.entry, argumentAddress - 16, argumentAddress⟩ := by
  have htop : execStackTop < userVmEnd := by decide
  have hbottom := execStackBottom_eq
  have hlt : argumentLength argument < execArgMax ∧ argument (argumentLength argument) = 0 := by
    rcases firstIndex_cases 0 execArgMax fun i => decide (argument i = 0) with
      ⟨hnone, -⟩ | ⟨i, hi, -, hlast, hzero⟩
    · exact absurd hnone hlength
    · rw [argumentLength, hi]
      exact ⟨hlast, of_decide_eq_true hzero⟩
  have hnothing : ∀ w, w < userVmEnd → (∀ p ∈ loadHeaders image, ¬ OnPageOf p w) →
      ¬ (execStackBottom ≤ w ∧ w < execStackTop) → cellAt s vm w = none := by
    intro w hw hno hout
    rw [hshows w hw]
    exact hplan.imageContents_nothing hlt.1 hno hout
  refine ⟨?_, ?_, fun p hp => (hplan.sound p hp).in_file,
    ⟨argumentLength argument, hlt.1, hlt.2, ?_, ?_⟩,
    hnothing, ?_, hplan.executable, hplan.entry, ?_, ?_, rfl⟩
  · intro p hp w hw
    have hsound := hplan.sound p hp
    have hend : w < userVmEnd := by
      obtain ⟨a, -, hlast, hpage⟩ := hw
      have hhigh := hsound.high
      have halign : userVmEnd % 4096 = 0 := rfl
      rw [SamePage] at hpage
      omega
    rw [hshows w hend]
    exact hplan.imageContents_segment hlt.1 hp hw
  · intro p hp hboth
    exact (hplan.sound p hp).exclusive (flags_both hboth.1 hboth.2)
  · intro i hi hzero
    have hbefore := firstIndex_before (Nat.zero_le i) hi
    rw [decide_eq_false_iff_not] at hbefore
    exact hbefore hzero
  · intro w hlo hhi
    rw [hshows w (by omega)]
    exact imageContents_stack hlo hhi
  · intro w hlo hhi
    refine hnothing w (by omega) ?_ ?_
    · intro p hp hw
      have hnot := hplan.not_stack hp hw
      have hguard : execStackGuard = execStackTop - 17 * 4096 := rfl
      omega
    · have hbottom' : execStackBottom = execStackTop - 16 * 4096 := rfl
      omega
  · show (argumentAddress - 16) % 16 = 0
    decide
  · show execStackTop - 16 * 4096 ≤ argumentAddress - 16 ∧ argumentAddress - 16 < execStackTop
    decide

end Result

/-- A load that succeeds, call by call. -/
theorem elfLoad_eq_some {s s' : Machine} {vm size : Nat} {image argument : ByteMemory}
    {start : Start} (h : elfLoad s vm (some image) size (some argument) = some (s', some start)) :
    ∃ plan s₁, elfValidate image size = some plan ∧ argumentLength argument ≠ execArgMax ∧
      userVmCreate s vm = some (s₁, true) ∧
      loadImage vm image plan argument (argumentLength argument) s₁ = .ok () s' ∧
      start = ⟨plan.entry, argumentAddress - 16, argumentAddress⟩ := by
  rw [elfLoad] at h
  split at h
  · cases h
  cases hplan : elfValidate image size with
  | none =>
    rw [hplan] at h
    cases h
  | some plan =>
    rw [hplan] at h
    simp only at h
    split at h
    · cases h
    rename_i hlength
    cases hcreate : userVmCreate s vm with
    | none =>
      rw [hcreate] at h
      cases h
    | some result =>
      obtain ⟨s₁, ok⟩ := result
      rw [hcreate] at h
      cases ok with
      | false => cases h
      | true =>
        simp only at h
        refine ⟨plan, s₁, rfl, hlength, rfl, ?_⟩
        generalize loadImage vm image plan argument (argumentLength argument) s₁ = result at h ⊢
        cases result with
        | ok _ t =>
          cases h
          exact ⟨rfl, rfl⟩
        | error e t =>
          cases e with
          | panic => cases h
          | failed =>
            rw [finishLoad] at h
            split at h
            · cases h
            · cases h

/-- For every file, argument and address space: where `elf_load` succeeds, the processor finds in
the new space the pages of the `PT_LOAD` segments with their bytes and permissions, the stack with
the argument, and nothing else; the entry point is backed by bytes of the file in an executable
page, and the stack pointer is aligned and lies in the stack. -/
theorem elf_load_image {s s' : Machine} (h : SystemReachable s) {vm size : Nat}
    {image argument : ByteMemory} {start : Start}
    (hload : elfLoad s vm (some image) size (some argument) = some (s', some start)) :
    Loaded image argument size (cellAt s' vm) start := by
  obtain ⟨map, hinv⟩ := systemInv_of_reachable h
  obtain ⟨plan, s₁, hvalid, hlength, hcreate, hrun, rfl⟩ := elfLoad_eq_some hload
  -- The new space is empty.
  obtain ⟨s₁', ok, hcall, hholds, -, hnew, -⟩ := userVmCreate_spec (hinv.holds vm)
  rw [hcreate] at hcall
  cases hcall
  obtain ⟨-, upper, -, hcreated⟩ := hnew rfl
  have hlive := hcreated.live
  have hpages := hcreated.pages
  have hstart : HasContents map vm (elsewhereOf s vm) s₁ .empty s₁ :=
    ⟨Kept.refl hholds, hlive, shows_empty hlive hpages⟩
  -- The calls that follow build the image.
  have hends := loadImage_ends image argument hstart plan (argumentLength argument)
  rw [hrun] at hends
  cases hends with
  | ok hdone => exact (elfValidate_spec hvalid).loaded hlength hdone.shows

/-- Thirty-two usable frames, and one of the boot loader with the root table of the kernel. -/
def smallMap : MemoryMap :=
  ⟨[⟨0, 0x20000, .usable⟩, ⟨0x20000, 0x1000, .bootloaderReclaimable⟩], 0x20000, 0x1000⟩

theorem smallMap_built : MapBuilt smallMap := @MapBuilt.run _ _ .init smallMap.regions (by decide)

/-- The memory manager for the map. -/
def smallRun : PmmRun :=
  ⟨smallMap, (pmmCoreInit zeroState smallMap ⟨0x1000, 0x1000, 4, 32⟩ 0x100).getD zeroState, ∅, ∅, ∅⟩

theorem smallRun_start : pmmStart smallRun :=
  pmmStart_init smallMap_built (by decide) (by decide +kernel)

/-- A machine with enough memory for a program of one page. -/
def smallMachine : Machine where
  context :=
    ⟨smallRun.state,
      ⟨(hhdmInit ⟨smallMap, 0, 0, false⟩ smallMap 0xffff800000000000 36).getD
        ⟨smallMap, 0, 0, false⟩, ⟨0x20000, 36, true⟩, true⟩,
      fun _ => .zero, 0x20000, 0⟩
  memory := store64 (fun _ => 0) (entryAddress 0x20000 (memoryPageIndex vmmDynamicBase 4))
    vmmNewParentFlags

theorem smallMachine_reachable : SystemReachable smallMachine :=
  .start ⟨⟨smallRun, .start smallRun_start, rfl⟩, fun _ => rfl⟩

/-- A program of two bytes, `jmp .`, at `0x400078`. -/
def smallProgram : ByteMemory := fun i =>
  ([127, 69, 76, 70, 2, 1, 1, 0, 0, 0, 0, 0, 0, 0, 0, 0,
    2, 0, 62, 0, 1, 0, 0, 0, 0x78, 0, 0x40, 0, 0, 0, 0, 0,
    64, 0, 0, 0, 0, 0, 0, 0, 0, 0, 0, 0, 0, 0, 0, 0,
    0, 0, 0, 0, 64, 0, 56, 0, 1, 0, 0, 0, 0, 0, 0, 0,
    1, 0, 0, 0, 5, 0, 0, 0, 0x78, 0, 0, 0, 0, 0, 0, 0,
    0x78, 0, 0x40, 0, 0, 0, 0, 0, 0, 0, 0, 0, 0, 0, 0, 0,
    2, 0, 0, 0, 0, 0, 0, 0, 2, 0, 0, 0, 0, 0, 0, 0,
    0, 16, 0, 0, 0, 0, 0, 0, 0xeb, 0xfe] : List UInt8).getD i 0

/-- The argument "A". -/
def smallArgument : ByteMemory := fun i => if i = 0 then 65 else 0

/-- A load of that program: its first byte is where the program starts and may be executed. -/
theorem elf_load_image_small :
    ∃ s' start, elfLoad smallMachine 8 (some smallProgram) 122 (some smallArgument) =
        some (s', some start) ∧ start = ⟨0x400078, 0x6ffffef0, 0x6fffff00⟩ ∧
      cellAt s' 8 0x400078 = some ⟨true, false, true, 0xeb⟩ := by
  have hvalue : (elfLoad smallMachine 8 (some smallProgram) 122 (some smallArgument)).map Prod.snd =
      some (some ⟨0x400078, 0x6ffffef0, 0x6fffff00⟩) := by
    decide +kernel
  obtain ⟨⟨s', start⟩, hload, hstart⟩ := Option.map_eq_some_iff.1 hvalue
  obtain rfl : start = _ := hstart
  have hloaded := elf_load_image smallMachine_reachable hload
  have hheaders : loadHeaders smallProgram = [⟨1, 5, 0x78, 0x400078, 2, 2, 0x1000⟩] := by
    decide +kernel
  refine ⟨s', _, hload, rfl, ?_⟩
  rw [hloaded.segment ⟨1, 5, 0x78, 0x400078, 2, 2, 0x1000⟩ ?_ 0x400078 ?_]
  · rfl
  · rw [hheaders]
    exact List.mem_singleton.2 rfl
  · exact ⟨0x400078, by decide, by decide, rfl⟩

end Utamo.Elf
