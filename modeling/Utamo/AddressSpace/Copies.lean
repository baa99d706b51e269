import Utamo.AddressSpace.Contents

/-!
# Copies between the kernel and a program

`user_vm_copy_from` and `user_vm_copy_to` in terms of what the program sees. A copy succeeds exactly
if every byte of the range is there, and writable for a copy to the program (`Contents.Allows`); the
bytes that the kernel gets are those that the program has there.

The copies go through the direct map of the kernel, so this needs a direct map that reaches the
frames of the program (`FramesMapped`).
-/

set_option autoImplicit false

namespace Utamo.AddressSpace

open Lib Lib.ByteMemory Memory Pmm Vmm

variable {c : Contents} {virt n w : Nat}

/-- The range is empty, or in the lower half with a byte at every address, a writable one
for a write. -/
def Contents.Allows (c : Contents) (write : Bool) (virt n : Nat) : Prop :=
  n = 0 ∨ (userVmMin ≤ virt ∧ virt + n ≤ userVmEnd ∧
    ∀ i, i < n → (c (virt + i)).any fun cell => !write || cell.writable)

instance (c : Contents) (write : Bool) (virt n : Nat) : Decidable (c.Allows write virt n) :=
  inferInstanceAs (Decidable (_ ∨ _))

/-- The bytes of a range, zero where there is none. -/
def Contents.bytes (c : Contents) (virt n : Nat) : List UInt8 :=
  (List.range n).map fun i => ((c (virt + i)).map Cell.byte).getD 0

theorem Contents.bytes_add (c : Contents) (virt n k : Nat) :
    c.bytes virt (n + k) = c.bytes virt n ++ c.bytes (virt + n) k := by
  rw [Contents.bytes, List.range_add, List.map_append, List.map_map]
  refine congrArg (c.bytes virt n ++ ·) (List.map_congr_left fun i _ => ?_)
  simp only [Function.comp_apply, Nat.add_assoc]

theorem Contents.length_bytes (c : Contents) (virt n : Nat) : (c.bytes virt n).length = n := by
  rw [Contents.bytes, List.length_map, List.length_range]

/-- The cell at an address of an allowed range. -/
theorem Contents.Allows.cell {write : Bool} (h : c.Allows write virt n)
    (hlo : virt ≤ w) (hhi : w < virt + n) :
    ∃ cell, c w = some cell ∧ (write = true → cell.writable = true) := by
  rcases h with hzero | ⟨-, -, hcells⟩
  · omega
  · have hcell := hcells (w - virt) (by omega)
    rw [Nat.add_sub_cancel' hlo] at hcell
    cases hw : c w with
    | none =>
      rw [hw] at hcell
      cases hcell
    | some cell =>
      rw [hw, Option.any_some] at hcell
      refine ⟨cell, rfl, fun hwrite => ?_⟩
      rw [hwrite] at hcell
      exact hcell

/-- A part of an allowed range is allowed, also for a copy that does not write. -/
theorem Contents.Allows.part {write : Bool} {start k : Nat}
    (h : c.Allows write virt n) (hpart : start + k ≤ n) : c.Allows false (virt + start) k := by
  rcases h with hzero | ⟨hmin, hend, hcells⟩
  · exact Or.inl (by omega)
  refine Or.inr ⟨by omega, by omega, fun i hi => ?_⟩
  obtain ⟨cell, hcell, -⟩ := Contents.Allows.cell (Or.inr ⟨hmin, hend, hcells⟩)
    (by omega : virt ≤ virt + start + i) (by omega)
  rw [hcell]
  rfl

/-- A write changes no permission. -/
theorem Contents.allows_write {write : Bool} {dst : Nat} {data : List UInt8} :
    (c.write dst data).Allows write virt n ↔ c.Allows write virt n := by
  have hcell : ∀ w, ((c.write dst data w).any fun cell => !write || cell.writable) =
      ((c w).any fun cell => !write || cell.writable) := by
    intro w
    rw [Contents.write]
    split
    · cases c w <;> rfl
    · rfl
  simp only [Contents.Allows, hcell]

/-- What was written is there, where there is something. -/
theorem Contents.bytes_write {start : Nat} {data : List UInt8}
    (h : c.Allows true virt data.length) (hpart : start + n ≤ data.length) :
    (c.write virt data).bytes (virt + start) n = (data.drop start).take n := by
  have hlength : ((data.drop start).take n).length = n := by
    rw [List.length_take, List.length_drop]
    omega
  refine List.ext_getElem (by rw [Contents.length_bytes, hlength]) fun i hi hi' => ?_
  rw [hlength] at hi'
  obtain ⟨cell, hcell, -⟩ := h.cell (by omega : virt ≤ virt + start + i) (by omega)
  have hoff : virt + start + i - virt = start + i := by omega
  simp only [Contents.bytes, List.getElem_map, List.getElem_range, Contents.write,
    List.getElem_take, List.getElem_drop]
  rw [if_pos (by omega), hcell, hoff, List.getD_eq_getElem _ _ (by omega)]
  rfl

/-- The direct map reaches the frames of the object. -/
def FramesMapped (s : Machine) (vm : Nat) : Prop :=
  ∀ x bytes, frameOf x ∈ (s.context.vms vm).owned → 0 < bytes → x % 4096 + bytes ≤ 4096 →
    memoryPhysToVirt s.context.kernel x bytes = some x

/-- The direct map reaches the allocated frames, wholly and in part. -/
def AllocatedMapped (s : Machine) : Prop :=
  ∀ x bytes, frameOf x ∈ allocatedPages s.context.pmm → 0 < bytes → x % 4096 + bytes ≤ 4096 →
    (memoryPhysToVirt s.context.kernel x bytes).isSome = true

/-- It does where `hhdm_init` made it for the memory map, since the allocated frames are usable
memory. -/
theorem allocatedMapped_of_made {map : MemoryMap} {s : Machine} {context : HhdmContext}
    {offset bits : Nat} (hpmm : PmmInv map s.context.pmm) (hsound : MapSound map)
    (hmade : hhdmInit context map offset bits = some s.context.kernel.directMap) :
    AllocatedMapped s := by
  intro x bytes hx hpos hpage
  obtain ⟨-, -, husable⟩ := hpmm.page_usable hx
  have hframe : frameOf x / 4096 = x / 4096 := by
    rw [frameOf]
    omega
  rw [hframe] at husable
  rw [memoryPhysToVirt, hhdmTranslate_within hsound hmade hpos hpage husable]
  rfl

section Copies

variable {map : MemoryMap} {vm : Nat} {elsewhere : Set Nat} {s : Machine} {c : Contents}
  {write : Bool} {virt n : Nat} {chunks : List CopyChunk}

theorem leafAt_samePage {mask root : Nat} {E : Nat → Nat → Nat} {v : Nat} (h : SamePage v w) :
    leafAt mask root E v = leafAt mask root E w := by
  have h3 := path_congr h 3 (by decide)
  have h4 := path_congr h 4 (by decide)
  have h1 : memoryPageIndex v 1 = memoryPageIndex w 1 := by
    rw [path_four, path_four, h3] at h4
    simpa using h4
  rw [leafAt, leafAt, h3, h1]

theorem AllocatedMapped.frames (h : AllocatedMapped s) (hholds : Holds map vm elsewhere s) :
    FramesMapped s vm := by
  intro x bytes hx hpos hpage
  have hmem : frameOf x ∈ allocatedPages s.context.pmm := by
    rw [hholds.allocated]
    exact Or.inr hx
  obtain ⟨y, hy⟩ := Option.isSome_iff_exists.1 (h x bytes hmem hpos hpage)
  -- The alias of a byte is the byte.
  obtain ⟨_, -, rfl⟩ := Option.map_eq_some_iff.1 hy
  exact hy

theorem FramesMapped.tables (h : FramesMapped s vm) (hlive : Live vm (s.context.vms vm) s.memory) :
    TablesMapped s vm := by
  intro f hf
  have halign := (hlive.table_frame hf).align
  have hframe : frameOf f = f := by
    rw [frameOf]
    omega
  rw [h f memoryPageSize (by rw [hframe]; exact Or.inl hf) (by decide) (by rw [halign]; decide)]
  rfl

variable (hlive : Live vm (s.context.vms vm) s.memory) (hshows : Shows s vm c)

include hlive hshows

/-- The cell of an address in a page that the walk finds. -/
theorem cell_of_page {i : Nat} {access : UInt32} (hw : w < userVmEnd) (hi : i < userVmPageLimit)
    (hused : ((s.context.vms vm).pages i).allocated = true) (haccess : validAccess access = true)
    (hleaf : leafAt (s.context.vms vm).space.physicalMask (s.context.vms vm).space.rootPhys
      (slot s.memory) virt = ((s.context.vms vm).pages i).phys ||| accessFlags access)
    (hpage : SamePage w virt) :
    c w = some (.of access (s.memory (((s.context.vms vm).pages i).phys + w % 4096))) := by
  rw [← hshows w hw]
  apply hlive.cellAt_page hw (hlive.page i hi hused).frame haccess
  rw [leafAt_samePage hpage]
  exact hleaf

omit hlive hshows in
theorem cell_writable {access : UInt32} (haccess : validAccess access = true) (byte : UInt8) :
    (Cell.of access byte).writable = hasFlag (accessFlags access) vmmWritable :=
  (accessFlags_bits haccess).1.symm

/-- What a successful check says about the contents. -/
theorem Chunks.cells (hchunks : Chunks (s.context.vms vm) s.memory write virt n chunks)
    (hend : virt + n ≤ userVmEnd) (hlo : virt ≤ w) (hhi : w < virt + n) :
    ((c w).any fun cell => !write || cell.writable) = true := by
  induction hchunks with
  | nil => omega
  | @cons virt size remaining i access rest hvirt hi hused _ haccess hleaf hwritable _ hle _ ih =>
    by_cases hhere : w < virt + size
    · have hpage : SamePage w virt := by
        rw [SamePage]
        omega
      rw [cell_of_page hlive hshows (by omega) hi hused haccess hleaf hpage, Option.any_some]
      cases write with
      | false => rfl
      | true =>
        rw [cell_writable haccess, hwritable rfl]
        rfl
    · exact ih (by omega) (by omega) (by omega)

/-- The loop of `user_vm_copy_from` collects the bytes of the range. -/
theorem Chunks.copyOut (hchunks : Chunks (s.context.vms vm) s.memory write virt n chunks)
    (hend : virt + n ≤ userVmEnd) : AddressSpace.copyOut s.memory chunks = c.bytes virt n := by
  induction hchunks with
  | nil => rfl
  | @cons virt size remaining i access rest hvirt hi hused _ haccess hleaf _ _ hle _ ih =>
    rw [Contents.bytes_add, ← ih (by omega)]
    refine congrArg (· ++ AddressSpace.copyOut s.memory rest) ?_
    refine List.map_congr_left fun k hk => ?_
    have hk' : k < size := List.mem_range.1 hk
    have hpage : SamePage (virt + k) virt := by
      rw [SamePage]
      omega
    have hoff : (virt + k) % 4096 = virt % 4096 + k := by omega
    rw [cell_of_page hlive hshows (by omega) hi hused haccess hleaf hpage, hoff, Nat.add_assoc]
    rfl

variable (h : Holds map vm elsewhere s) (hmapped : FramesMapped s vm)

include h hmapped

/-- The check succeeds when every byte is there. -/
theorem copyPreflightLoop_of_allows {room : Nat}
    (hroom : n ≠ 0 → virt % 4096 + n ≤ room * 4096)
    (hmin : userVmMin ≤ virt) (hend : virt + n ≤ userVmEnd)
    (hcells : ∀ w, virt ≤ w → w < virt + n →
      ∃ cell, c w = some cell ∧ (write = true → cell.writable = true)) :
    (copyPreflightLoop s vm write room virt n).isSome = true := by
  induction room generalizing virt n with
  | zero =>
    have hzero : n = 0 := by omega
    rw [copyPreflightLoop, if_neg (not_not.2 hzero)]
    rfl
  | succ room ih =>
    rw [copyPreflightLoop]
    split
    swap
    · rfl
    rename_i hne
    obtain ⟨cell, hcell, hcellWritable⟩ := hcells virt (Nat.le_refl _) (by omega)
    have hvalid : validAddress virt = true := by
      rw [validAddress, decide_eq_true_eq]
      omega
    have hout := queryLocked_spec h hlive hvalid
    generalize queryLocked s vm virt = result at hout ⊢
    cases hout with
    | refused href =>
      exact absurd href (not_refused h hlive (hmapped.tables hlive) (address_of_valid hvalid))
    | absent hleaf _ =>
      have hnone := hlive.cellAt_absent (by omega) hleaf
      rw [hshows virt (by omega), hcell] at hnone
      cases hnone
    | page i access hi hused hpage haccess hleaf =>
      have hsame : SamePage virt virt := rfl
      have hmine := cell_of_page hlive hshows (by omega) hi hused haccess hleaf hsame
      rw [hcell, Option.some_inj] at hmine
      simp only [Option.bind_eq_bind, Option.bind_some, Option.pure_def]
      rw [if_neg]
      swap
      · rintro (hunmapped | ⟨hwrite, hro⟩)
        · exact hunmapped trivial
        · have hwritable := hcellWritable hwrite
          rw [hmine, cell_writable haccess] at hwritable
          exact hro hwritable
      generalize hchunk : (if n < memoryPageSize - (virt &&& (memoryPageSize - 1)) then
        n else memoryPageSize - (virt &&& (memoryPageSize - 1))) = size
      have hsize : memoryPageSize = 4096 := rfl
      have hoff : virt &&& (memoryPageSize - 1) = virt % 4096 :=
        Nat.and_two_pow_sub_one_eq_mod virt 12
      rw [hoff, hsize] at hchunk
      -- the chunk ends with the page or with the range
      have hbounds : 0 < size ∧ size ≤ 4096 - virt % 4096 ∧ size ≤ n ∧
          (size = n ∨ (virt + size) % 4096 = 0) := by
        split at hchunk <;> omega
      obtain ⟨hpos, hle, hrem, hcase⟩ := hbounds
      have hframe := (hlive.page i hi hused).frame.align
      have hx : frameOf (((s.context.vms vm).pages i).phys + virt % 4096) =
          ((s.context.vms vm).pages i).phys := by
        rw [frameOf]
        omega
      have htrans := hmapped (((s.context.vms vm).pages i).phys + virt % 4096) size
        (by rw [hx]; exact Or.inr ⟨i, hi, hused, rfl⟩) hpos (by omega)
      rw [htrans, Option.bind_some]
      have hroom' : n - size ≠ 0 → (virt + size) % 4096 + (n - size) ≤ room * 4096 := by
        have := hroom hne
        omega
      have hrest := ih hroom' (by omega) (by omega) fun w hlo hhi =>
        hcells w (by omega) (by omega)
      obtain ⟨rest, hrest⟩ := Option.isSome_iff_exists.1 hrest
      rw [hrest]
      rfl

/-- `copy_preflight` accepts the ranges that the contents allow. -/
theorem copyPreflight_isSome (hn : n ≤ userVmCopyLimit) :
    (copyPreflight s vm virt n write).isSome = true ↔ c.Allows write virt n := by
  have hready : ready s.context vm = true := hlive.ready
  rw [copyPreflight, if_neg (by rw [hready]; simpa using hn)]
  split
  · rename_i hzero
    exact ⟨fun _ => Or.inl hzero, fun _ => rfl⟩
  rename_i hpos
  split
  · rename_i hrange
    refine ⟨by rintro ⟨⟩, ?_⟩
    rintro (hzero | ⟨hmin, hend, -⟩)
    · exact absurd hzero hpos
    · rw [validAddress, decide_eq_true_eq] at hrange
      omega
  · rename_i hrange
    rw [validAddress, decide_eq_true_eq] at hrange
    constructor
    · intro hsome
      obtain ⟨chunks, hrun⟩ := Option.isSome_iff_exists.1 hsome
      have hchunks := copyPreflightLoop_spec h hrun
      refine Or.inr ⟨by omega, by omega, fun i hi => ?_⟩
      exact hchunks.cells hlive hshows (by omega) (by omega) (by omega)
    · intro hallows
      have hlimit : userVmCopyLimit = 65536 := rfl
      have hchunks : userVmCopyChunks = 17 := rfl
      refine copyPreflightLoop_of_allows hlive hshows h hmapped (fun _ => by omega)
        (by omega) (by omega) ?_
      intro w hlo hhi
      exact hallows.cell hlo hhi

/-- `user_vm_copy_from` in terms of the contents. -/
theorem userVmCopyFrom_eq {kernelDst : Nat} (hdst : kernelDst ≠ 0) (hn : n ≤ userVmCopyLimit) :
    userVmCopyFrom s vm kernelDst virt n =
      if c.Allows false virt n then some (c.bytes virt n) else none := by
  have hiff : (copyPreflight s vm virt n false).isSome = true ↔ c.Allows false virt n :=
    copyPreflight_isSome hlive hshows h hmapped hn
  rw [userVmCopyFrom, if_neg (fun hargs => hdst hargs.2)]
  cases hflight : copyPreflight s vm virt n false with
  | none =>
    rw [hflight] at hiff
    rw [if_neg fun hallows => by simpa using hiff.2 hallows]
    rfl
  | some chunks =>
    rw [hflight] at hiff
    have hallows := hiff.1 rfl
    rw [if_pos hallows]
    have hchunks := copyPreflight_chunks h hflight
    have hcopy : copyOut s.memory chunks = c.bytes virt n := by
      rcases hallows with hzero | ⟨-, hend, -⟩
      · have hready : ready s.context vm = true := hlive.ready
        rw [copyPreflight, if_neg (by rw [hready]; simpa using hn), if_pos hzero] at hflight
        cases hflight
        rw [hzero]
        rfl
      · exact hchunks.copyOut hlive hshows hend
    show some (copyOut s.memory chunks) = _
    rw [hcopy]

/-- `user_vm_copy_to` in terms of the contents: a refused copy changes nothing. -/
theorem userVmCopyTo_cases (virt : Nat) (source : List UInt8)
    (hn : source.length ≤ userVmCopyLimit) :
    (¬ c.Allows true virt source.length ∧
      userVmCopyTo s vm virt (some source) source.length = (s, false)) ∨
    (c.Allows true virt source.length ∧ ∃ s',
      userVmCopyTo s vm virt (some source) source.length = (s', true) ∧ Kept map vm elsewhere s s' ∧
        Shows s' vm (c.write virt source)) := by
  have hiff : (copyPreflight s vm virt source.length true).isSome = true ↔
      c.Allows true virt source.length := copyPreflight_isSome hlive hshows h hmapped hn
  obtain ⟨s', ok, hcall, hkept, -⟩ := userVmCopyTo_spec h virt (some source) source.length
  cases hflight : copyPreflight s vm virt source.length true with
  | none =>
    left
    rw [hflight] at hiff
    refine ⟨fun hallows => by simpa using hiff.2 hallows, ?_⟩
    rw [userVmCopyTo, if_neg (by simp), hflight]
  | some chunks =>
    right
    rw [hflight] at hiff
    refine ⟨hiff.1 rfl, s', ?_⟩
    have hok : ok = true := by
      rw [userVmCopyTo, if_neg (by simp), hflight, Prod.mk.injEq] at hcall
      exact hcall.2.symm
    rw [hok] at hcall
    exact ⟨hcall, hkept, h.copyTo_shows hlive hcall hshows⟩

end Copies

end Utamo.AddressSpace
