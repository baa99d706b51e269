import Utamo.AddressSpace.Copies
import Utamo.AddressSpace.Runs

/-!
# Copies in runs of the system

What `AddressSpace.Copies` says of one space holds in every state that the system reaches: a copy
either moves its bytes wholly or not at all, and a copy back finds what was written.

The model of the loop of `copy_preflight` counts the room that is left in the array of chunks. Here
the loop stands with the array and its index, and a store beyond the array is a fault
(`copyPreflightExact`); it never comes to that.
-/

set_option autoImplicit false

namespace Utamo.AddressSpace

open Lib Lib.ByteMemory Memory Pmm Vmm

variable {chunks : List CopyChunk} {room : Nat}

/-! ## The array of chunks -/

/-- `chunks[count] = chunk` in an array with room for `USER_VM_COPY_CHUNKS`, of which `count` are
written; `none` is a store beyond the array. -/
def storeChunk (chunks : List CopyChunk) (chunk : CopyChunk) : Option (List CopyChunk) :=
  if chunks.length < userVmCopyChunks then some (chunks ++ [chunk]) else none

/-- The loop of `copy_preflight` with the chunks stored so far. The outer `none` is a store beyond
the array or a loop that goes on after `rounds`, the inner one a refusal. -/
def copyPreflightLoopExact (s : Machine) (vm : Nat) (write : Bool) :
    Nat → List CopyChunk → Nat → Nat → Option (Option (List CopyChunk))
  | 0, _, _, _ => none
  | rounds + 1, chunks, virt, remaining =>
    if remaining = 0 then some (some chunks)
    else if chunks.length = userVmCopyChunks then some none
    else
      match queryLocked s vm virt with
      | none => some none
      | some mapping =>
        if ¬ mapping.mapped ∨ (write ∧ ¬ hasFlag mapping.flags vmmWritable) then some none
        else
          let chunk := memoryPageSize - (virt &&& (memoryPageSize - 1))
          let chunk := if remaining < chunk then remaining else chunk
          match memoryPhysToVirt s.context.kernel mapping.physical chunk with
          | none => some none
          | some aliasPhys => do
              let chunks ← storeChunk chunks ⟨aliasPhys, chunk⟩
              copyPreflightLoopExact s vm write rounds chunks (virt + chunk) (remaining - chunk)

/-- `copy_preflight` with the array of chunks of its callers. -/
def copyPreflightExact (s : Machine) (vm virt bytes : Nat) (write : Bool) :
    Option (Option (List CopyChunk)) :=
  if ¬ ready s.context vm ∨ userVmCopyLimit < bytes then some none
  else if bytes = 0 then some (some [])
  else if ¬ validAddress virt ∨ userVmEnd - virt < bytes then some none
  else copyPreflightLoopExact s vm write (userVmCopyChunks + 1) [] virt bytes

section Chunks

variable {s : Machine} {vm : Nat} {write : Bool}

theorem storeChunk_of_room
    (h : chunks.length + (room + 1) = userVmCopyChunks) (chunk : CopyChunk) :
    storeChunk chunks chunk = some (chunks ++ [chunk]) := by
  rw [storeChunk, if_pos (by omega)]

/-- The room that is left is the array less what is stored. -/
theorem copyPreflightLoopExact_eq
    (h : chunks.length + room = userVmCopyChunks) (virt remaining : Nat) :
    copyPreflightLoopExact s vm write (room + 1) chunks virt remaining =
      some ((copyPreflightLoop s vm write room virt remaining).map (chunks ++ ·)) := by
  induction room generalizing chunks virt remaining with
  | zero =>
    rw [copyPreflightLoopExact, copyPreflightLoop]
    by_cases hzero : remaining = 0
    · rw [if_pos hzero, if_neg (not_not.2 hzero), Option.map_some, List.append_nil]
    · rw [if_neg hzero, if_pos hzero, if_pos (by omega)]
      rfl
  | succ room ih =>
    rw [copyPreflightLoopExact, copyPreflightLoop]
    by_cases hzero : remaining = 0
    · rw [if_pos hzero, if_neg (not_not.2 hzero), Option.map_some, List.append_nil]
    rw [if_neg hzero, if_pos hzero, if_neg (by omega)]
    cases queryLocked s vm virt with
    | none => rfl
    | some mapping =>
      simp only [Option.bind_eq_bind, Option.bind_some, Option.pure_def]
      split
      · rfl
      generalize (if remaining < memoryPageSize - (virt &&& (memoryPageSize - 1)) then
        remaining else memoryPageSize - (virt &&& (memoryPageSize - 1))) = size
      cases memoryPhysToVirt s.context.kernel mapping.physical size with
      | none => rfl
      | some aliasPhys =>
        simp only [Option.bind_some]
        have hlength : (chunks ++ [CopyChunk.mk aliasPhys size]).length + room =
            userVmCopyChunks := by
          rw [List.length_append, List.length_singleton]
          omega
        rw [storeChunk_of_room h, Option.bind_some, ih hlength]
        cases copyPreflightLoop s vm write room (virt + size) (remaining - size) with
        | none => rfl
        | some rest =>
          simp only [Option.map_some, Option.bind_some, List.append_assoc,
            List.singleton_append]

/-- `copy_preflight` stores within its array. -/
theorem copyPreflightExact_eq (s : Machine) (vm virt bytes : Nat) (write : Bool) :
    copyPreflightExact s vm virt bytes write = some (copyPreflight s vm virt bytes write) := by
  have hempty : ([] : List CopyChunk).length + userVmCopyChunks = userVmCopyChunks := by
    rw [List.length_nil, Nat.zero_add]
  rw [copyPreflightExact, copyPreflight, copyPreflightLoopExact_eq hempty]
  simp only [List.nil_append, Option.map_id_fun']
  split
  · rfl
  split
  · rfl
  split
  · rfl
  · rfl

/-- The copies read no more chunks than the array has. -/
theorem copyPreflightLoop_length {virt remaining : Nat}
    (h : copyPreflightLoop s vm write room virt remaining = some chunks) :
    chunks.length ≤ room := by
  induction room generalizing virt remaining chunks with
  | zero =>
    rw [copyPreflightLoop] at h
    split at h
    · cases h
    · cases h
      exact Nat.le_refl 0
  | succ room ih =>
    rw [copyPreflightLoop] at h
    split at h
    swap
    · cases h
      exact Nat.zero_le _
    obtain ⟨mapping, -, h⟩ := Option.bind_eq_some_iff.1 h
    split at h
    · cases h
    obtain ⟨aliasPhys, -, h⟩ := Option.bind_eq_some_iff.1 h
    obtain ⟨rest, hrest, h⟩ := Option.bind_eq_some_iff.1 h
    cases h
    exact Nat.succ_le_succ (ih hrest)

theorem copyPreflight_length {virt bytes : Nat}
    (h : copyPreflight s vm virt bytes write = some chunks) : chunks.length ≤ userVmCopyChunks := by
  rw [copyPreflight] at h
  split at h
  · cases h
  split at h
  · cases h
    exact Nat.zero_le _
  split at h
  · cases h
  · exact copyPreflightLoop_length h

end Chunks

/-! ## Copies in runs -/

section Parts

variable {s : Machine} {vm virt n : Nat} {write : Bool}

/-- Copies above the limit are refused. -/
theorem copyPreflight_of_limit (h : userVmCopyLimit < n) :
    copyPreflight s vm virt n write = none := by
  rw [copyPreflight, if_pos (Or.inr h)]

theorem userVmCopyFrom_of_limit (h : userVmCopyLimit < n) (kernelDst : Nat) :
    userVmCopyFrom s vm kernelDst virt n = none := by
  rw [userVmCopyFrom, copyPreflight_of_limit h]
  split
  · rfl
  · rfl

theorem userVmCopyTo_of_limit {source : Option (List UInt8)} (h : userVmCopyLimit < n) :
    userVmCopyTo s vm virt source n = (s, false) := by
  rw [userVmCopyTo, copyPreflight_of_limit h]
  split
  · rfl
  · rfl

/-- A copy to a program stores bytes and changes nothing else. -/
theorem userVmCopyTo_context (s : Machine) (vm virt : Nat)
    (source : Option (List UInt8)) (n : Nat) :
    (userVmCopyTo s vm virt source n).1.context = s.context := by
  rw [userVmCopyTo]
  split
  · rfl
  split
  · rfl
  · rfl

end Parts

/-- In every run, where the direct map reaches the allocated frames: `user_vm_copy_from` succeeds
exactly on ranges within the limit and the lower half whose pages are mapped, and returns the bytes
in the order of their addresses; `user_vm_copy_to` succeeds exactly where the pages are also
writable. It then changes the bytes of its range and no others, and a copy from any part of the
range returns what was written; a refused copy changes nothing. Neither stores or reads beyond its
array of chunks. -/
theorem user_copies_exact {s : Machine} (h : SystemReachable s) {vm : Nat}
    (hinit : (s.context.vms vm).initialized = true) (hdirect : AllocatedMapped s) :
    (∀ kernelDst src n, kernelDst ≠ 0 → userVmCopyFrom s vm kernelDst src n =
      if n ≤ userVmCopyLimit ∧ Contents.Allows (cellAt s vm) false src n then
        some (Contents.bytes (cellAt s vm) src n)
      else none) ∧
    (∀ (dst : Nat) (source : List UInt8),
      (¬ (source.length ≤ userVmCopyLimit ∧ Contents.Allows (cellAt s vm) true dst source.length) ∧
        userVmCopyTo s vm dst (some source) source.length = (s, false)) ∨
      ((source.length ≤ userVmCopyLimit ∧ Contents.Allows (cellAt s vm) true dst source.length) ∧
        ∃ s', userVmCopyTo s vm dst (some source) source.length = (s', true) ∧
          (∀ w, w < userVmEnd → cellAt s' vm w = Contents.write (cellAt s vm) dst source w) ∧
          ∀ kernelDst start n, kernelDst ≠ 0 → start + n ≤ source.length →
            userVmCopyFrom s' vm kernelDst (dst + start) n = some ((source.drop start).take n))) ∧
    ∀ virt n write,
      copyPreflightExact s vm virt n write = some (copyPreflight s vm virt n write) ∧
      ∀ chunks, copyPreflight s vm virt n write = some chunks →
        chunks.length ≤ userVmCopyChunks := by
  obtain ⟨map, hinv⟩ := systemInv_of_reachable h
  have hholds := hinv.holds vm
  have hlive := hholds.live hinit
  have hmapped := hdirect.frames hholds
  have hshows : Shows s vm (cellAt s vm) := fun _ _ => rfl
  refine ⟨?_, ?_, fun virt n write => ⟨copyPreflightExact_eq s vm virt n write, ?_⟩⟩
  · intro kernelDst src n hdst
    by_cases hn : n ≤ userVmCopyLimit
    · rw [userVmCopyFrom_eq hlive hshows hholds hmapped hdst hn]
      simp only [hn, true_and]
    · rw [userVmCopyFrom_of_limit (Nat.lt_of_not_le hn), if_neg fun hall => hn hall.1]
  · intro dst source
    by_cases hn : source.length ≤ userVmCopyLimit
    swap
    · exact Or.inl ⟨fun hall => hn hall.1, userVmCopyTo_of_limit (Nat.lt_of_not_le hn)⟩
    rcases userVmCopyTo_cases hlive hshows hholds hmapped dst source hn with
      ⟨hrefused, hcall⟩ | ⟨hallowed, s', hcall, hkept, hshows'⟩
    · exact Or.inl ⟨fun hall => hrefused hall.2, hcall⟩
    refine Or.inr ⟨⟨hn, hallowed⟩, s', hcall, hshows', ?_⟩
    intro kernelDst start n hdst hpart
    -- the copy changes bytes only, so the space has the frames that it had
    have hcontext : s'.context = s.context := by
      rw [← userVmCopyTo_context s vm dst (some source) source.length, hcall]
    have hmapped' : FramesMapped s' vm := by
      rw [FramesMapped, hcontext]
      exact hmapped
    rw [userVmCopyFrom_eq (hkept.live hlive) hshows' hkept.holds hmapped' hdst (by omega)]
    have hread : ((Contents.write (cellAt s vm) dst source).Allows false (dst + start) n) :=
      Contents.allows_write.2 (hallowed.part hpart)
    rw [if_pos hread, Contents.bytes_write hallowed hpart]
  · exact fun _ => copyPreflight_length

/-- Calls keep the kernel's part of the state. -/
theorem SystemInv.calls {map : MemoryMap} {t : Machine} (h : SystemInv map t)
    (calls : List (Nat × UserVmCall)) :
    let s := (calls.map fun c => SystemEvent.call c.1 c.2).foldl
      (fun s event => (systemExec s event).getD s) t
    SystemInv map s ∧ s.context.kernel = t.context.kernel := by
  induction calls generalizing t with
  | nil => exact ⟨h, rfl⟩
  | cons c calls ih =>
    obtain ⟨t', ok, hcall, hholds, hframed⟩ := callExec_spec (h.holds c.1) c.2
    have hexec : (systemExec t (.call c.1 c.2)).getD t = t' := by
      rw [systemExec, hcall]
      rfl
    obtain ⟨hinv, hkernel⟩ := ih (h.step hholds hframed)
    simp only [List.map_cons, List.foldl_cons, hexec]
    exact ⟨hinv, hkernel.trans hframed.kernel⟩

/-- The direct map of the small machine reaches its allocated frames, whatever is called. -/
theorem tinyAfter_mapped (calls : List (Nat × UserVmCall)) : AllocatedMapped (tinyAfter calls) := by
  have hmade : hhdmInit ⟨tinyMap, 0, 0, false⟩ tinyMap 0xffff800000000000 36 =
      some tinyKernel.directMap := by
    have hsome : (hhdmInit ⟨tinyMap, 0, 0, false⟩ tinyMap 0xffff800000000000 36).isSome = true := by
      decide +kernel
    obtain ⟨context, hcontext⟩ := Option.isSome_iff_exists.1 hsome
    rw [tinyKernel, hcontext]
    rfl
  have hpmm : PmmInv tinyMap tinyRun.state := (goodPmmRun_of_reachable (.start tinyRun_start)).inv
  have hstart : SystemInv tinyMap tinyMachine := .of_unused hpmm fun _ => rfl
  obtain ⟨hinv, hkernel⟩ := hstart.calls calls
  have hkernel' : (tinyAfter calls).context.kernel.directMap = tinyKernel.directMap :=
    congrArg KernelVmm.directMap hkernel
  rw [← hkernel'] at hmade
  exact allocatedMapped_of_made hinv.pmm tinyMap_built.sound hmade

/-- Four bytes across the border of two pages, and the middle two of them back. -/
theorem user_copies_exact_border :
    ∃ s s', SystemReachable s ∧ userVmCopyTo s 8 0x40ffe (some [1, 2, 3, 4]) 4 = (s', true) ∧
      userVmCopyFrom s' 8 1 0x40fff 2 = some [2, 3] := by
  let calls : List (Nat × UserVmCall) :=
    [(8, .create), (8, .allocPage 0x40000 userVmWrite), (16, .create),
      (8, .allocPage 0x41000 userVmWrite)]
  have hvalues : ((tinyAfter calls).context.vms 8).initialized = true ∧
      (userVmCopyTo (tinyAfter calls) 8 0x40ffe (some [1, 2, 3, 4]) 4).2 = true := by decide +kernel
  have hreach := tinyAfter_reachable calls
  obtain ⟨-, hto, -⟩ := user_copies_exact hreach hvalues.1 (tinyAfter_mapped calls)
  rcases hto 0x40ffe [1, 2, 3, 4] with ⟨-, hcall⟩ | ⟨-, s', hcall, -, hback⟩
  · have hfalse := hvalues.2
    rw [show (4 : Nat) = [(1 : UInt8), 2, 3, 4].length from rfl, hcall] at hfalse
    cases hfalse
  · exact ⟨_, s', hreach, hcall, hback 1 1 2 (by decide) (by decide)⟩

end Utamo.AddressSpace
