import Utamo.Elf.Plan
import Utamo.Lib.Checked

/-!
# Program files are not trusted

Every field of a program file may have any value. `elfValidateExact` is `elf_validate` with checked
operators: it has no value if the source would read a byte behind the file, store a segment behind
the array of the plan, or wrap. It always has a value, that of `elfValidate`
(`elfValidateExact_eq`), since every subtraction and every sum stands behind the comparisons that
make it safe.
-/

set_option autoImplicit false

namespace Utamo.Elf

open Lib Lib.ByteMemory AddressSpace

variable {p : ProgramHeader} {plan : Plan}

/-! ## The checked parser -/

section Exact

variable (data : ByteMemory) (size : Nat)

/-- `little` -/
def littleExact (p bytes : Nat) : Option Nat :=
  forRangeM 0 bytes (fun i value => do
    let byte ← fetch data size (p + i)
    let shifted ← shlExact byte.toNat (← mulExact i 8)
    return value ||| shifted) 0

/-- `little(data + p, bytes) != value` -/
def fieldDiffers (p bytes value : Nat) : Option Bool := do
  return (← littleExact data size p bytes) ≠ value

/-- `data[p] != value` -/
def byteDiffers (p : Nat) (value : UInt8) : Option Bool := do
  return (← fetch data size p) ≠ value

/-- The first condition of `elf_validate`. -/
def fileRefusedExact : Option Bool :=
  pure (decide (size < 64)) <||> pure (decide (elfFileLimit < size)) <||>
  (do return decide ((← fetchBytes data size 0 4) ≠ [0o177, 69, 76, 70])) <||>
  byteDiffers data size 4 2 <||> byteDiffers data size 5 1 <||> byteDiffers data size 6 1 <||>
  byteDiffers data size 7 0 <||> byteDiffers data size 8 0 <||>
  fieldDiffers data size 16 2 2 <||> fieldDiffers data size 18 2 62 <||>
  fieldDiffers data size 20 4 1 <||> fieldDiffers data size 48 4 0 <||>
  fieldDiffers data size 52 2 64 <||> fieldDiffers data size 54 2 56

/-- The second condition, for the offset and the number of the program headers. -/
def tableRefusedExact (offset count : Nat) : Option Bool :=
  pure (decide (count = 0)) <||> pure (decide (elfSegmentLimit < count)) <||>
  pure (decide (offset < 64)) <||> pure (decide (size < offset)) <||>
  (do return decide ((← subExact size offset) / 56 < count))

/-- The fields of a segment, at the program header `p`. -/
def loadHeaderExact (p type flags : Nat) : Option ProgramHeader := do
  let offset ← littleExact data size (p + 8) 8
  let address ← littleExact data size (p + 16) 8
  let fileSize ← littleExact data size (p + 32) 8
  let memorySize ← littleExact data size (p + 40) 8
  let alignment ← littleExact data size (p + 48) 8
  return { type, flags, offset, address, fileSize, memorySize, alignment }

/-- The condition on the fields of a segment. -/
def segmentRefusedExact (p : ProgramHeader) : Option Bool :=
  pure (decide (p.memorySize = 0)) <||> pure (decide (p.memorySize < p.fileSize)) <||>
  pure (decide (size < p.offset)) <||>
  (do return decide ((← subExact size p.offset) < p.fileSize)) <||>
  pure (decide (p.address < userVmMin)) <||> pure (decide (userVmEnd ≤ p.address)) <||>
  (do return decide ((← subExact userVmEnd p.address) < p.memorySize)) <||>
  pure (decide (p.flags &&& notU64 7 ≠ 0)) <||> pure (decide (p.flags &&& 4 = 0)) <||>
  pure (decide (p.flags &&& 3 = 3)) <||>
  pure (decide (p.address &&& 4095 ≠ p.offset &&& 4095)) <||>
  (pure (decide (1 < p.alignment)) <&&> (do
    let mask ← subExact p.alignment 1
    return decide (p.alignment &&& mask ≠ 0 ∨ p.address &&& mask ≠ p.offset &&& mask)))

/-- The pages of a segment. -/
def headerSegmentExact (p : ProgramHeader) : Option Segment := do
  let last ← addExact (← addExact p.address p.memorySize) 4095
  return { headerSegment p with pageEnd := last &&& notU64 4095 }

/-- The conditions on the pages of a segment. -/
def pagesRefusedExact (plan : Plan) (s : Segment) : Option Bool :=
  pure (decide (s.pageStart < execStackTop ∧ execStackGuard < s.pageEnd)) <||>
  (do
    let span ← subExact s.pageEnd s.pageStart
    let room ← subExact (← subExact userVmPageLimit execStackPages) plan.pages
    return decide (room < span / 4096)) <||>
  pure (plan.segments.any fun t => decide (s.pageStart < t.pageEnd ∧ t.pageStart < s.pageEnd))

/-- Whether the entry point is in the bytes that a segment has in the file. -/
def entryInsideExact (flags entry : Nat) (s : Segment) : Option Bool :=
  pure (decide (flags &&& 1 ≠ 0)) <&&> pure (decide (s.address ≤ entry)) <&&>
  (do return decide ((← subExact entry s.address) < s.fileSize))

/-- `plan.segments[plan.count++] = s; plan.pages += pages;` -/
def appendSegmentExact (plan : Plan) (s : Segment) : Option Plan := do
  if elfSegmentLimit ≤ plan.segments.length then none
  else
    let pages ← addExact plan.pages ((← subExact s.pageEnd s.pageStart) / 4096)
    return ⟨plan.segments ++ [s], plan.entry, pages⟩

/-- The body of the loop of `elf_validate`; the inner `none` refuses the file. -/
def planHeaderExact (offset i : Nat) (state : Plan × Bool) : Option (Option (Plan × Bool)) := do
  let (plan, executableEntry) := state
  let p ← addExact offset (← mulExact i 56)
  let type ← littleExact data size p 4
  let flags ← littleExact data size (p + 4) 4
  if type = 0 ∨ type = 4 ∨ type = 6 ∨ type = 0x6474e551 then
    if type = 0x6474e551 ∧ flags &&& 1 ≠ 0 then return none else return some (plan, executableEntry)
  else if type ≠ 1 then return none
  else
    let header ← loadHeaderExact data size p type flags
    if ← segmentRefusedExact size header then return none
    else
      let s ← headerSegmentExact header
      if ← pagesRefusedExact plan s then return none
      else
        let executable ← entryInsideExact flags plan.entry s
        let plan ← appendSegmentExact plan s
        return some (plan, executableEntry || executable)

/-- `elf_validate`: `*out` and what is returned. -/
def elfValidateExact (out : Plan) : Option (Plan × Bool) := do
  if ← fileRefusedExact data size then return (out, false)
  else
    let offset ← littleExact data size 32 8
    let count ← littleExact data size 56 2
    if ← tableRefusedExact size offset count then return (out, false)
    else
      let entry ← littleExact data size 24 8
      match ← forRangeExact 0 count (planHeaderExact data size offset) (⟨[], entry, 0⟩, false) with
      | none => return (out, false)
      | some (plan, executableEntry) =>
        if ¬ executableEntry ∨ plan.segments = [] then return (out, false) else return (plan, true)

end Exact

/-! ## Its parts have a value -/

section Parts

variable {data : ByteMemory} {size : Nat}

theorem littleExact_eq {p bytes : Nat} (hbytes : bytes ≤ 8) (h : p + bytes ≤ size) :
    littleExact data size p bytes = some (little data p bytes) := by
  have hrounds : ∃ value, littleExact data size p bytes = some value ∧ value =
      forRange 0 bytes (fun i value => value ||| (data (p + i)).toNat <<< (i * 8)) 0 := by
    rw [littleExact]
    refine forRangeM_invariant (P := fun i value => value =
      forRange 0 i (fun i value => value ||| (data (p + i)).toNat <<< (i * 8)) 0)
        (Nat.zero_le _) rfl ?_
    intro i value _ hi hvalue
    refine ⟨value ||| (data (p + i)).toNat <<< (i * 8), ?_, ?_⟩
    · have hmax : uint64Max = 2 ^ 64 - 1 := rfl
      have hshift : (data (p + i)).toNat <<< (i * 8) ≤ uint64Max := by
        have hbyte : (data (p + i)).toNat ≤ 255 := Nat.le_of_lt_succ (data (p + i)).toNat_lt
        have hpow : 2 ^ (i * 8) ≤ 2 ^ 56 := Nat.pow_le_pow_right (by decide) (by omega)
        calc (data (p + i)).toNat <<< (i * 8) = (data (p + i)).toNat * 2 ^ (i * 8) :=
              Nat.shiftLeft_eq ..
          _ ≤ 255 * 2 ^ 56 := Nat.mul_le_mul hbyte hpow
          _ ≤ uint64Max := by decide
      simp only [fetch_of_lt (show p + i < size by omega),
        mulExact_of_le (show i * 8 ≤ uint64Max by omega), Option.bind_eq_bind, Option.bind_some,
        shlExact_of_le (show i * 8 < 64 by omega) hshift, Option.pure_def]
    · rw [hvalue, forRange, forRange, Nat.sub_zero, Nat.sub_zero, List.range'_1_concat,
        List.foldl_append, Nat.zero_add]
      rfl
  obtain ⟨value, hrun, hvalue⟩ := hrounds
  rw [hrun, hvalue]
  rfl

theorem fieldDiffers_eq {p bytes value : Nat} (hbytes : bytes ≤ 8) (h : p + bytes ≤ size) :
    fieldDiffers data size p bytes value = some (decide (little data p bytes ≠ value)) := by
  rw [fieldDiffers, littleExact_eq hbytes h]
  rfl

theorem byteDiffers_eq {p : Nat} {value : UInt8} (h : p < size) :
    byteDiffers data size p value = some (decide (data p ≠ value)) := by
  rw [byteDiffers, fetch_of_lt h]
  rfl

theorem fileRefusedExact_eq : fileRefusedExact data size = some (!fileAccepted data size) := by
  by_cases hsmall : size < 64
  · rw [fileRefusedExact, fileAccepted]
    simp only [hsmall, decide_true, true_or, not_true_eq_false, decide_false, Bool.not_false]
    rfl
  · -- Every byte that is read is one of the first 64.
    have hmagic : (do return decide ((← fetchBytes data size 0 4) ≠ [0o177, 69, 76, 70]) :
        Option Bool) = some (decide (readBytes data 0 4 ≠ [0o177, 69, 76, 70])) := by
      rw [fetchBytes_of_le (show 0 + 4 ≤ size by omega)]
      rfl
    have hor : ∀ a b : Bool, (some a <||> some b) = some (a || b) :=
      fun a b => orM_eq_some rfl fun _ => rfl
    rw [fileRefusedExact, hmagic, byteDiffers_eq (by omega), byteDiffers_eq (by omega),
      byteDiffers_eq (by omega), byteDiffers_eq (by omega), byteDiffers_eq (by omega),
      fieldDiffers_eq (by decide) (by omega), fieldDiffers_eq (by decide) (by omega),
      fieldDiffers_eq (by decide) (by omega), fieldDiffers_eq (by decide) (by omega),
      fieldDiffers_eq (by decide) (by omega), fieldDiffers_eq (by decide) (by omega)]
    simp only [Option.pure_def, hor, fileAccepted, Bool.decide_or, decide_not, Bool.not_not, ne_eq]

theorem tableRefusedExact_eq :
    tableRefusedExact size (headerOffset data) (headerCount data) =
      some (!tableAccepted data size) := by
  have hlast : decide (size < headerOffset data) = false →
      (do return decide ((← subExact size (headerOffset data)) / 56 < headerCount data) : Option
        Bool) = some (decide ((size - headerOffset data) / 56 < headerCount data)) := by
    intro hle
    rw [decide_eq_false_iff_not, Nat.not_lt] at hle
    rw [subExact_of_le hle]
    rfl
  rw [tableRefusedExact]
  refine (orM_eq_some rfl fun _ => orM_eq_some rfl fun _ => orM_eq_some rfl fun _ =>
    orM_eq_some rfl hlast).trans ?_
  simp only [tableAccepted, Bool.decide_or, decide_not, Bool.not_not]

theorem segmentRefusedExact_eq (p : ProgramHeader) :
    segmentRefusedExact size p = some (!segmentAccepted size p) := by
  -- The three subtractions, each behind the comparison that allows it.
  have hfile : decide (size < p.offset) = false →
      (do return decide ((← subExact size p.offset) < p.fileSize) : Option Bool) =
        some (decide (size - p.offset < p.fileSize)) := by
    intro hle
    rw [decide_eq_false_iff_not, Nat.not_lt] at hle
    rw [subExact_of_le hle]
    rfl
  have hspace : decide (userVmEnd ≤ p.address) = false →
      (do return decide ((← subExact userVmEnd p.address) < p.memorySize) : Option Bool) =
        some (decide (userVmEnd - p.address < p.memorySize)) := by
    intro hlt
    rw [decide_eq_false_iff_not, Nat.not_le] at hlt
    rw [subExact_of_le (Nat.le_of_lt hlt)]
    rfl
  have halign : decide (1 < p.alignment) = true → (do
      let mask ← subExact p.alignment 1
      return decide (p.alignment &&& mask ≠ 0 ∨ p.address &&& mask ≠ p.offset &&& mask) :
        Option Bool) = some (decide (p.alignment &&& (p.alignment - 1) ≠ 0 ∨
          p.address &&& (p.alignment - 1) ≠ p.offset &&& (p.alignment - 1))) := by
    intro hlt
    rw [decide_eq_true_eq] at hlt
    rw [subExact_of_le (Nat.le_of_lt hlt)]
    rfl
  rw [segmentRefusedExact]
  refine (orM_eq_some rfl fun _ => orM_eq_some rfl fun _ => orM_eq_some rfl fun hin =>
    orM_eq_some (hfile hin) fun _ => orM_eq_some rfl fun _ => orM_eq_some rfl fun hlow =>
    orM_eq_some (hspace hlow) fun _ => orM_eq_some rfl fun _ => orM_eq_some rfl fun _ =>
    orM_eq_some rfl fun _ => orM_eq_some rfl fun _ =>
    andM_eq_some rfl halign).trans ?_
  simp only [segmentAccepted, Bool.decide_or, Bool.decide_and, decide_not, Bool.not_not, ne_eq]

theorem loadHeaderExact_eq {p : Nat} (h : p + 56 ≤ size) :
    loadHeaderExact data size p (little data p 4) (little data (p + 4) 4) =
      some (programHeader data p) := by
  rw [loadHeaderExact, littleExact_eq (by decide) (by omega), littleExact_eq (by decide) (by omega),
    littleExact_eq (by decide) (by omega), littleExact_eq (by decide) (by omega),
    littleExact_eq (by decide) (by omega)]
  rfl

theorem headerSegmentExact_eq (h : SegmentSound size p) :
    headerSegmentExact p = some (headerSegment p) := by
  have hmax : uint64Max = 2 ^ 64 - 1 := rfl
  have hend : userVmEnd = 2 ^ 47 := rfl
  have hhigh := h.high
  rw [headerSegmentExact, addExact_of_le (show p.address + p.memorySize ≤ uint64Max by omega)]
  simp only [Option.bind_eq_bind, Option.bind_some,
    addExact_of_le (show p.address + p.memorySize + 4095 ≤ uint64Max by omega)]
  rfl

theorem SegmentSound.pages_le (h : SegmentSound size p) :
    (headerSegment p).pageStart ≤ (headerSegment p).pageEnd := by
  rw [h.pageStart_eq, h.pageEnd_eq]
  have hpos := h.nonempty
  omega

/-- The pages that are left for segments. -/
def imagePages : Nat := userVmPageLimit - execStackPages

theorem pagesRefusedExact_eq {s : Segment} (hs : s.pageStart ≤ s.pageEnd)
    (hplan : plan.pages ≤ imagePages) :
    pagesRefusedExact plan s = some (!pagesAccepted plan s) := by
  have himage : userVmPageLimit - execStackPages = imagePages := rfl
  have hroom : (do
      let span ← subExact s.pageEnd s.pageStart
      let room ← subExact (← subExact userVmPageLimit execStackPages) plan.pages
      return decide (room < span / 4096) : Option Bool) =
        some (decide (imagePages - plan.pages < (s.pageEnd - s.pageStart) / 4096)) := by
    rw [subExact_of_le hs, subExact_of_le (show execStackPages ≤ userVmPageLimit by decide)]
    simp only [Option.bind_eq_bind, Option.bind_some, Option.pure_def, himage]
    rw [subExact_of_le hplan]
    rfl
  have hle : decide ((s.pageEnd - s.pageStart) / 4096 ≤ imagePages - plan.pages) =
      !decide (imagePages - plan.pages < (s.pageEnd - s.pageStart) / 4096) := by
    rw [← decide_not, decide_eq_decide, Nat.not_lt]
  rw [pagesRefusedExact]
  refine (orM_eq_some rfl fun _ => orM_eq_some hroom fun _ => rfl).trans ?_
  simp only [pagesAccepted, himage, Bool.decide_and, hle, decide_not, Bool.not_and, Bool.not_or,
    Bool.not_not, Bool.decide_eq_true]

theorem entryInsideExact_eq (flags entry : Nat) (s : Segment) :
    entryInsideExact flags entry s =
      some (decide (flags &&& 1 ≠ 0 ∧ s.address ≤ entry ∧ entry - s.address < s.fileSize)) := by
  have hinside : decide (s.address ≤ entry) = true →
      (do return decide ((← subExact entry s.address) < s.fileSize) : Option Bool) =
        some (decide (entry - s.address < s.fileSize)) := by
    intro hle
    rw [subExact_of_le (of_decide_eq_true hle)]
    rfl
  rw [entryInsideExact]
  refine (andM_eq_some rfl fun _ => andM_eq_some rfl hinside).trans ?_
  simp only [Bool.decide_and]

theorem appendSegmentExact_eq {s : Segment} (hs : s.pageStart ≤ s.pageEnd)
    (hcount : plan.segments.length < elfSegmentLimit) (hplan : plan.pages ≤ imagePages)
    (hroom : (s.pageEnd - s.pageStart) / 4096 ≤ imagePages - plan.pages) :
    appendSegmentExact plan s =
      some ⟨plan.segments ++ [s], plan.entry, plan.pages + (s.pageEnd - s.pageStart) / 4096⟩ := by
  have hlimit : imagePages = 112 := rfl
  have hmax : uint64Max = 2 ^ 64 - 1 := rfl
  rw [appendSegmentExact, if_neg (Nat.not_le.2 hcount), subExact_of_le hs]
  simp only [Option.bind_eq_bind, Option.bind_some]
  rw [addExact_of_le (by omega)]
  rfl

end Parts

/-! ## The loop -/

/-- What is counted after `i` rounds. -/
structure Counted (i : Nat) (plan : Plan) : Prop where
  count : plan.segments.length ≤ i
  limit : plan.pages ≤ imagePages
  pages : plan.pages = (plan.segments.map fun s => (s.pageEnd - s.pageStart) / 4096).sum

section Loop

variable {data : ByteMemory} {size i : Nat} {state state' : Plan × Bool}

theorem planHeader_counted (h : Counted i state.1)
    (hround : planHeader size p state = some state') : Counted (i + 1) state'.1 := by
  obtain ⟨plan, executable⟩ := state
  rw [planHeader] at hround
  simp only at hround
  split at hround
  · split at hround
    · cases hround
    · cases hround
      exact ⟨Nat.le_succ_of_le h.count, h.limit, h.pages⟩
  split at hround
  · cases hround
  split at hround
  · cases hround
  split at hround
  · cases hround
  rename_i hpages
  rw [not_not, pagesAccepted, decide_eq_true_eq, ← imagePages] at hpages
  cases hround
  have hlimit := h.limit
  have hcount := h.count
  simp only at hlimit hcount
  refine ⟨?_, ?_, ?_⟩
  · rw [List.length_append, List.length_singleton]
    omega
  · have hroom := hpages.2.1
    show plan.pages + _ ≤ imagePages
    omega
  · show plan.pages + _ = _
    rw [List.map_append, List.sum_append, ← h.pages]
    rfl

/-- A round on a header that lies in the file. -/
theorem planHeaderExact_eq {offset : Nat} (hfile : size ≤ elfFileLimit)
    (hin : offset + i * 56 + 56 ≤ size) (hi : i < elfSegmentLimit) (h : Counted i state.1) :
    planHeaderExact data size offset i state =
      some (planHeader size (programHeader data (offset + i * 56)) state) := by
  have hmax : uint64Max = 2 ^ 64 - 1 := rfl
  have hlimit : elfFileLimit = 2 ^ 20 := rfl
  obtain ⟨plan, executable⟩ := state
  rw [planHeaderExact, planHeader]
  rw [mulExact_of_le (show i * 56 ≤ uint64Max by omega)]
  simp only [Option.bind_eq_bind, Option.bind_some,
    addExact_of_le (show offset + i * 56 ≤ uint64Max by omega)]
  generalize offset + i * 56 = p at hin
  rw [littleExact_eq (by decide) (by omega), littleExact_eq (by decide) (by omega)]
  have htype : (programHeader data p).type = little data p 4 := rfl
  have hflags : (programHeader data p).flags = little data (p + 4) 4 := rfl
  simp only [Option.bind_some, loadHeaderExact_eq hin, segmentRefusedExact_eq, htype, hflags]
  split
  · split
    · rfl
    · rfl
  split
  · rfl
  cases haccepted : segmentAccepted size (programHeader data p) with
  | false => rfl
  | true =>
    have hsound := segmentAccepted_sound haccepted
    simp only [Bool.not_true, Bool.false_eq_true, if_false, headerSegmentExact_eq hsound,
      Option.bind_some, pagesRefusedExact_eq hsound.pages_le h.limit, not_true_eq_false]
    cases hpages : pagesAccepted plan (headerSegment (programHeader data p)) with
    | false => rfl
    | true =>
      have hroom := hpages
      rw [pagesAccepted, decide_eq_true_eq, ← imagePages] at hroom
      have hcount : plan.segments.length < elfSegmentLimit := Nat.lt_of_le_of_lt h.count hi
      simp only [Bool.not_true, Bool.false_eq_true, if_false, entryInsideExact_eq,
        Option.bind_some, appendSegmentExact_eq hsound.pages_le hcount h.limit hroom.2.1,
        not_true_eq_false]
      rfl

/-- What the two conditions before the loop say of the program headers. -/
theorem tableAccepted_bounds (h : tableAccepted data size = true) :
    headerCount data ≤ elfSegmentLimit ∧ headerOffset data + headerCount data * 56 ≤ size := by
  rw [tableAccepted, decide_eq_true_eq] at h
  simp only [not_or, Nat.not_lt] at h
  obtain ⟨-, hcount, -, hoffset, hroom⟩ := h
  have hmul := Nat.mul_le_of_le_div 56 _ _ hroom
  exact ⟨hcount, by omega⟩

theorem fileAccepted_size (h : fileAccepted data size = true) :
    64 ≤ size ∧ size ≤ elfFileLimit := by
  rw [fileAccepted, decide_eq_true_eq] at h
  simp only [not_or, Nat.not_lt] at h
  exact ⟨h.1, h.2.1⟩

/-- No read of `elf_validate` leaves the file and no operation in it wraps. -/
theorem elfValidateExact_eq (data : ByteMemory) (size : Nat) (out : Plan) :
    elfValidateExact data size out =
      some (match elfValidate data size with
        | none => (out, false)
        | some plan => (plan, true)) := by
  rw [elfValidateExact, elfValidate, fileRefusedExact_eq]
  cases hfile : fileAccepted data size with
  | false => rfl
  | true =>
    obtain ⟨hsize, hlimit⟩ := fileAccepted_size hfile
    have hoffset : littleExact data size 32 8 = some (headerOffset data) :=
      littleExact_eq (by decide) (by omega)
    have hcount : littleExact data size 56 2 = some (headerCount data) :=
      littleExact_eq (by decide) (by omega)
    have hentry : littleExact data size 24 8 = some (fileEntry data) :=
      littleExact_eq (by decide) (by omega)
    simp only [Option.bind_eq_bind, Option.bind_some, Bool.not_true, Bool.false_eq_true, if_false,
      hoffset, hcount, hentry, tableRefusedExact_eq, not_true_eq_false, false_or]
    cases htable : tableAccepted data size with
    | false => rfl
    | true =>
      obtain ⟨hsegments, hin⟩ := tableAccepted_bounds htable
      have hstart : Counted 0 (⟨[], fileEntry data, 0⟩ : Plan) :=
        ⟨Nat.le_refl 0, Nat.zero_le _, rfl⟩
      have hloop : forRangeExact 0 (headerCount data)
          (planHeaderExact data size (headerOffset data))
          (⟨[], fileEntry data, 0⟩, false) = some (forRangeM 0 (headerCount data)
            (fun i => planHeader size (programHeader data (headerOffset data + i * 56)))
            (⟨[], fileEntry data, 0⟩, false)) := by
        refine forRangeExact_eq_some (P := fun i (state : Plan × Bool) =>
          Counted i state.1) hstart ?_
        intro i state _ hi hstate
        refine ⟨planHeaderExact_eq hlimit (by omega) (by omega) hstate, fun state' hround => ?_⟩
        exact planHeader_counted hstate hround
      simp only [Bool.not_true, Bool.false_eq_true, if_false, hloop, Option.bind_some,
        not_true_eq_false]
      cases forRangeM 0 (headerCount data)
          (fun i => planHeader size (programHeader data (headerOffset data + i * 56)))
          (⟨[], fileEntry data, 0⟩, false) with
      | none => rfl
      | some state =>
        obtain ⟨plan, executable⟩ := state
        simp only [Option.bind_some]
        split
        · rfl
        · rfl

/-- What holds of the plan of a valid file beyond `PlanOf`: all its segments were accepted, and the
pages were counted. -/
theorem elfValidate_counted (h : elfValidate data size = some plan) :
    (∀ p ∈ loadHeaders data, segmentAccepted size p = true) ∧ Counted (headerCount data) plan := by
  rw [elfValidate] at h
  split at h
  · cases h
  obtain ⟨⟨plan', executable⟩, hloop, hend⟩ := Option.bind_eq_some_iff.1 h
  simp only at hend
  split at hend
  · cases hend
  cases hend
  have hstart : (∀ p ∈ (headers data 0).filter fun p => p.type = 1, segmentAccepted size p = true) ∧
      Counted 0 (⟨[], fileEntry data, 0⟩ : Plan) :=
    ⟨fun p hp => absurd hp List.not_mem_nil, Nat.le_refl 0, Nat.zero_le _, rfl⟩
  refine forRangeM_of_eq_some (P := fun i (state : Plan × Bool) =>
    (∀ p ∈ (headers data i).filter fun p => p.type = 1, segmentAccepted size p = true) ∧
      Counted i state.1) (Nat.zero_le _) hloop hstart ?_
  rintro i ⟨before, found⟩ state' _ _ ⟨haccepted, hcounted⟩ hround
  refine ⟨fun p hp => ?_, planHeader_counted hcounted hround⟩
  rw [headers, List.range_succ, List.map_append, List.filter_append] at hp
  rcases List.mem_append.1 hp with hp | hp
  · exact haccepted p hp
  · -- The last header is the one of this round.
    obtain ⟨hmem, hload⟩ := List.mem_filter.1 hp
    rw [List.map_singleton, List.mem_singleton] at hmem
    rw [hmem, decide_eq_true_eq] at hload
    rcases planHeader_cases hround with ⟨hskip, -⟩ | ⟨-, hok, -⟩
    · exact absurd hload hskip
    · rw [hmem]
      exact hok

theorem segmentAccepted_congruent (h : segmentAccepted size p = true) :
    p.address % 4096 = p.offset % 4096 := by
  rw [segmentAccepted, decide_eq_true_eq] at h
  simp only [not_or, not_not] at h
  have hsame := h.2.2.2.2.2.2.2.2.2.2.1
  have hlow : ∀ x : Nat, x &&& 4095 = x % 4096 := fun x => Nat.and_two_pow_sub_one_eq_mod x 12
  rw [hlow, hlow] at hsame
  exact hsame

/-- The pages of an accepted segment: they hold its bytes and lie in the address space of
a program. -/
theorem SegmentSound.pages_in (h : SegmentSound size p) :
    userVmMin ≤ (headerSegment p).pageStart ∧ (headerSegment p).pageStart ≤ p.address ∧
      p.address + p.memorySize ≤ (headerSegment p).pageEnd ∧
      (headerSegment p).pageEnd ≤ userVmEnd := by
  have hmin : userVmMin = 16 * 4096 := rfl
  have hmax : userVmEnd = 2 ^ 35 * 4096 := rfl
  have hlow := h.low
  have hhigh := h.high
  rw [h.pageStart_eq, h.pageEnd_eq]
  omega

theorem segmentAccess_exclusive (flags : Nat) :
    segmentAccess flags &&& userVmWrite = 0 ∨ segmentAccess flags &&& userVmExec = 0 := by
  rw [segmentAccess]
  split
  · exact Or.inr (by decide)
  · split
    · exact Or.inl (by decide)
    · exact Or.inl (by decide)

theorem segmentAccess_exec {flags : Nat} (hexec : flags &&& 1 ≠ 0) (h : flags &&& 3 ≠ 3) :
    segmentAccess flags = userVmExec := by
  rw [segmentAccess, if_neg fun hwrite => h (flags_both hwrite hexec), if_pos hexec]

/-- `elf_validate` on any bytes. It never reads a byte behind the file and never wraps, and either
refuses the file and leaves the plan alone, or fills in a plan: one segment for each `PT_LOAD`
header in order, with pages that are apart from each other and from the stack with its guard page,
lie in the address space of a program and are 112 at most; bytes that are in the file; and an entry
point in the file's bytes of an executable segment. -/
theorem elf_validate_sound (data : ByteMemory) (size : Nat) (out : Plan) :
    elfValidateExact data size out = some (out, false) ∨
    ∃ plan, elfValidateExact data size out = some (plan, true) ∧
      plan.segments = (loadHeaders data).map headerSegment ∧ plan.entry = fileEntry data ∧
      (∀ p ∈ loadHeaders data, p.flags &&& 3 ≠ 3) ∧
      plan.segments.Pairwise Apart ∧
      (∀ s ∈ plan.segments,
        userVmMin ≤ s.pageStart ∧ s.pageStart ≤ s.address ∧
        s.address + s.memorySize ≤ s.pageEnd ∧ s.pageEnd ≤ userVmEnd ∧
        (s.pageEnd ≤ execStackGuard ∨ execStackTop ≤ s.pageStart) ∧
        s.offset + s.fileSize ≤ size ∧ s.fileSize ≤ s.memorySize ∧
        s.address % 4096 = s.offset % 4096 ∧
        (s.access &&& userVmWrite = 0 ∨ s.access &&& userVmExec = 0)) ∧
      plan.pages = (plan.segments.map fun s => (s.pageEnd - s.pageStart) / 4096).sum ∧
      plan.pages ≤ 112 ∧
      ∃ s ∈ plan.segments, s.access = userVmExec ∧ s.address ≤ plan.entry ∧
        plan.entry < s.address + s.fileSize := by
  rw [elfValidateExact_eq]
  cases hplan : elfValidate data size with
  | none => exact Or.inl rfl
  | some plan =>
    right
    have hof := elfValidate_spec hplan
    obtain ⟨haccepted, hcounted⟩ := elfValidate_counted hplan
    have hexclusive : ∀ p ∈ loadHeaders data, p.flags &&& 3 ≠ 3 :=
      fun p hp => (hof.sound p hp).exclusive
    refine ⟨plan, rfl, hof.segments, hof.entry, hexclusive, hof.apart, fun s hs => ?_,
      hcounted.pages, hcounted.limit, ?_⟩
    · rw [hof.segments] at hs
      obtain ⟨p, hp, rfl⟩ := List.mem_map.1 hs
      have hsound := hof.sound p hp
      obtain ⟨hmin, hstart, hlast, hend⟩ := hsound.pages_in
      exact ⟨hmin, hstart, hlast, hend, (hof.stack p hp).symm, hsound.in_file, hsound.file_le,
        segmentAccepted_congruent (haccepted p hp), segmentAccess_exclusive p.flags⟩
    · obtain ⟨p, hp, hflag, hlow, hhigh⟩ := hof.executable
      refine ⟨headerSegment p, ?_, segmentAccess_exec hflag (hexclusive p hp), hlow, hhigh⟩
      rw [hof.segments]
      exact List.mem_map_of_mem hp

end Loop

end Utamo.Elf
