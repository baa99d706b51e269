import Utamo.AddressSpace.Core
import Utamo.Lib.Fallible

/-!
# Loading programs

`kernel/core/elf.c` and `kernel/core/elf_load.c`. `elf_validate` reads the headers of a file and
makes a plan of its segments; `elf_load` makes an address space from the plan. An image is the
memory at `image`, and an argument the memory at `argument`; both are none for `NULL`. The out
parameters are the result.

In `elf_load` the variable `good` guards every call after the first that failed. Here the first
failure is an error of the computation (`Stop.failed`), and a panic is another one (`Stop.panic`).
-/

set_option autoImplicit false

namespace Utamo.Elf

open Lib Lib.ByteMemory AddressSpace

/-- `UTAMO_ELF_SEGMENT_LIMIT` -/
def elfSegmentLimit : Nat := 16

/-- `UTAMO_ELF_FILE_LIMIT` -/
def elfFileLimit : Nat := 1024 * 1024

/-- `UTAMO_EXEC_STACK_TOP` -/
def execStackTop : Nat := 0x70000000

/-- `UTAMO_EXEC_STACK_PAGES` -/
def execStackPages : Nat := 16

/-- `UTAMO_EXEC_STACK_GUARD` -/
def execStackGuard : Nat := execStackTop - (execStackPages + 1) * 4096

/-- `UTAMO_EXEC_ARG_MAX` -/
def execArgMax : Nat := 256

/-! ## Headers -/

/-- `little` -/
def little (data : ByteMemory) (p size : Nat) : Nat :=
  forRange 0 size (fun i value => value ||| (data (p + i)).toNat <<< (i * 8)) 0

/-- The fields of a program header that `elf_validate` reads. -/
structure ProgramHeader where
  type : Nat
  flags : Nat
  offset : Nat
  address : Nat
  fileSize : Nat
  memorySize : Nat
  alignment : Nat
  deriving DecidableEq, Repr

/-- The program header at an offset of the file. -/
def programHeader (data : ByteMemory) (p : Nat) : ProgramHeader where
  type := little data p 4
  flags := little data (p + 4) 4
  offset := little data (p + 8) 8
  address := little data (p + 16) 8
  fileSize := little data (p + 32) 8
  memorySize := little data (p + 40) 8
  alignment := little data (p + 48) 8

/-- The offset of the program headers in the file. -/
def headerOffset (data : ByteMemory) : Nat := little data 32 8

/-- The number of program headers. -/
def headerCount (data : ByteMemory) : Nat := little data 56 2

/-- The entry point. -/
def fileEntry (data : ByteMemory) : Nat := little data 24 8

/-- The first check of `elf_validate`: a static little-endian program for x86-64. -/
def fileAccepted (data : ByteMemory) (size : Nat) : Bool :=
  ¬ (size < 64 ∨ elfFileLimit < size ∨ readBytes data 0 4 ≠ [0o177, 69, 76, 70] ∨ data 4 ≠ 2 ∨
    data 5 ≠ 1 ∨ data 6 ≠ 1 ∨ data 7 ≠ 0 ∨ data 8 ≠ 0 ∨ little data 16 2 ≠ 2 ∨
    little data 18 2 ≠ 62 ∨
    little data 20 4 ≠ 1 ∨ little data 48 4 ≠ 0 ∨ little data 52 2 ≠ 64 ∨ little data 54 2 ≠ 56)

/-- The second check: the program headers lie in the file. -/
def tableAccepted (data : ByteMemory) (size : Nat) : Bool :=
  ¬ (headerCount data = 0 ∨ elfSegmentLimit < headerCount data ∨ headerOffset data < 64 ∨
    size < headerOffset data ∨ (size - headerOffset data) / 56 < headerCount data)

/-! ## Plans -/

/-- `struct elf_segment` -/
structure Segment where
  address : Nat
  offset : Nat
  fileSize : Nat
  memorySize : Nat
  pageStart : Nat
  pageEnd : Nat
  access : UInt32
  deriving DecidableEq, Repr

/-- `struct elf_plan`; the segments in use, so that `count` is their number. -/
structure Plan where
  segments : List Segment
  entry : Nat
  pages : Nat
  deriving DecidableEq, Repr

/-- The checks on the fields of a segment. -/
def segmentAccepted (size : Nat) (p : ProgramHeader) : Bool :=
  ¬ (p.memorySize = 0 ∨ p.memorySize < p.fileSize ∨ size < p.offset ∨ size - p.offset < p.fileSize ∨
    p.address < userVmMin ∨ userVmEnd ≤ p.address ∨ userVmEnd - p.address < p.memorySize ∨
    p.flags &&& notU64 7 ≠ 0 ∨ p.flags &&& 4 = 0 ∨ p.flags &&& 3 = 3 ∨
    p.address &&& 4095 ≠ p.offset &&& 4095 ∨
    (1 < p.alignment ∧ (p.alignment &&& (p.alignment - 1) ≠ 0 ∨
      p.address &&& (p.alignment - 1) ≠ p.offset &&& (p.alignment - 1))))

/-- The access of the pages of a segment. -/
def segmentAccess (flags : Nat) : UInt32 :=
  if flags &&& 2 ≠ 0 then userVmWrite else if flags &&& 1 ≠ 0 then userVmExec else 0

/-- The segment of a program header. -/
def headerSegment (p : ProgramHeader) : Segment where
  address := p.address
  offset := p.offset
  fileSize := p.fileSize
  memorySize := p.memorySize
  pageStart := p.address &&& notU64 4095
  pageEnd := (p.address + p.memorySize + 4095) &&& notU64 4095
  access := segmentAccess p.flags

/-- The checks on the pages of a segment: apart from the stack, within the limit, and apart from the
segments before it. -/
def pagesAccepted (plan : Plan) (s : Segment) : Bool :=
  ¬ (s.pageStart < execStackTop ∧ execStackGuard < s.pageEnd) ∧
  (s.pageEnd - s.pageStart) / 4096 ≤ userVmPageLimit - execStackPages - plan.pages ∧
  ¬ plan.segments.any fun t => s.pageStart < t.pageEnd ∧ t.pageStart < s.pageEnd

/-- The body of the loop of `elf_validate`: the plan and `executable_entry`. -/
def planHeader (size : Nat) (p : ProgramHeader) (state : Plan × Bool) : Option (Plan × Bool) :=
  let (plan, executableEntry) := state
  if p.type = 0 ∨ p.type = 4 ∨ p.type = 6 ∨ p.type = 0x6474e551 then
    if p.type = 0x6474e551 ∧ p.flags &&& 1 ≠ 0 then none else some (plan, executableEntry)
  else if p.type ≠ 1 then none
  else if ¬ segmentAccepted size p then none
  else
    let s := headerSegment p
    if ¬ pagesAccepted plan s then none
    else
      let executable : Bool :=
        p.flags &&& 1 ≠ 0 ∧ s.address ≤ plan.entry ∧ plan.entry - s.address < s.fileSize
      some (⟨plan.segments ++ [s], plan.entry, plan.pages + (s.pageEnd - s.pageStart) / 4096⟩,
        executableEntry || executable)

/-- `elf_validate` -/
def elfValidate (data : ByteMemory) (size : Nat) : Option Plan :=
  if ¬ fileAccepted data size ∨ ¬ tableAccepted data size then none
  else do
    let (plan, executableEntry) ← forRangeM 0 (headerCount data)
      (fun i => planHeader size (programHeader data (headerOffset data + i * 56)))
      (⟨[], fileEntry data, 0⟩, false)
    if ¬ executableEntry ∨ plan.segments = [] then none else some plan

/-! ## Loading -/

/-- Why a load stops. -/
inductive Stop
  | failed
  | panic
  deriving DecidableEq, Repr

/-- A load passes the machine along. -/
abbrev LoadM := EStateM Stop Machine

/-- `good = call;` -/
def attempt (call : Machine → Option (Machine × Bool)) : LoadM Unit := fun s =>
  match call s with
  | some (s, true) => .ok () s
  | some (s, false) => .error .failed s
  | none => .error .panic s

/-- The values of `va` in `for (va = first; va < last; va += 4096)`. -/
def pageList (first last : Nat) : List Nat :=
  (List.range ((last - first + 4095) / 4096)).map fun k => first + k * 4096

/-- The values of `copied` in the copy loop. -/
def batchList (fileSize : Nat) : List Nat :=
  (List.range ((fileSize + (userVmCopyLimit - 1)) / userVmCopyLimit)).map fun k =>
    k * userVmCopyLimit

/-- One round of the copy loop. -/
def copyBatch (vm : Nat) (image : ByteMemory) (segment : Segment) (copied : Nat) : LoadM Unit :=
  let left := segment.fileSize - copied
  let bytes := if left < userVmCopyLimit then left else userVmCopyLimit
  attempt fun s => some (userVmCopyTo s vm (segment.address + copied)
    (some (readBytes image (segment.offset + copied) bytes)) bytes)

/-- One round of the loop over the segments. -/
def loadSegment (vm : Nat) (image : ByteMemory) (segment : Segment) : LoadM Unit := do
  (pageList segment.pageStart segment.pageEnd).forM fun va =>
    attempt fun s => userVmAllocPage s vm va userVmWrite
  (batchList segment.fileSize).forM (copyBatch vm image segment)
  (pageList segment.pageStart segment.pageEnd).forM fun va =>
    attempt fun s => some (userVmProtectPage s vm va segment.access)

/-- `const uint64_t arg` -/
def argumentAddress : Nat := execStackTop - execArgMax

/-- The part of `elf_load` that is guarded by `good`. -/
def loadImage (vm : Nat) (image : ByteMemory) (plan : Plan) (argument : ByteMemory) (length : Nat) :
    LoadM Unit := do
  plan.segments.forM (loadSegment vm image)
  (List.range execStackPages).forM fun i =>
    attempt fun s => userVmAllocPage s vm (execStackTop - (i + 1) * 4096) userVmWrite
  attempt fun s =>
    some (userVmCopyTo s vm argumentAddress (some (readBytes argument 0 (length + 1))) (length + 1))

/-- `*entry`, `*rsp` and `*user_argument` -/
structure Start where
  entry : Nat
  rsp : Nat
  userArgument : Nat
  deriving DecidableEq, Repr

/-- The length of an argument, up to `UTAMO_EXEC_ARG_MAX`. -/
def argumentLength (argument : ByteMemory) : Nat :=
  firstIndex 0 execArgMax fun i => argument i = 0

/-- The end of `elf_load`: the result of a load, or its rollback. -/
def finishLoad (vm : Nat) (entry : Nat) : EStateM.Result Stop Machine Unit →
    Option (Machine × Option Start)
  | .ok _ s => some (s, some ⟨entry, argumentAddress - 16, argumentAddress⟩)
  | .error .failed s =>
    match userVmDestroy s vm with
    | some (s, true) => some (s, none)
    | _ => none
  | .error .panic _ => none

/-- `elf_load`; the result is none if it returns false, and there is none at all if it panics. -/
def elfLoad (s : Machine) (vm : Nat) (image : Option ByteMemory) (size : Nat)
    (argument : Option ByteMemory) : Option (Machine × Option Start) :=
  match image, argument with
  | some image, some argument =>
    if vm = 0 ∨ (s.context.vms vm).initialized then some (s, none)
    else
      match elfValidate image size with
      | none => some (s, none)
      | some plan =>
        let length := argumentLength argument
        if length = execArgMax then some (s, none)
        else
          match userVmCreate s vm with
          | none => none
          | some (s, false) => some (s, none)
          | some (s, true) => finishLoad vm plan.entry (loadImage vm image plan argument length s)
  | _, _ => some (s, none)

end Utamo.Elf
