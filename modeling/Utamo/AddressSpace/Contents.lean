import Utamo.AddressSpace.Lifetime
import Utamo.Vmm.Hardware

/-!
# What an address space contains

`Contents` is an address space as its program sees it: at each address nothing, or a byte with the
access of its page. `cellAt` is what the processor finds in a machine, by the walk from the root of
the space. The operations on a space are simple on contents (`mapPage`, `protectPage`, `write`), and
each operation that succeeds does that to what the processor finds.
-/

set_option autoImplicit false

namespace Utamo.AddressSpace

open Lib Lib.ByteMemory Lib.Ledger Memory Pmm Vmm

variable {phys i : Nat}

/-! ## Contents -/

/-- What a program finds at an address. -/
structure Cell where
  user : Bool
  writable : Bool
  executable : Bool
  byte : UInt8
  deriving DecidableEq, Repr

/-- A byte of a page with the given access. -/
def Cell.of (access : UInt32) (byte : UInt8) : Cell :=
  ⟨true, access &&& userVmWrite ≠ 0, access &&& userVmExec ≠ 0, byte⟩

/-- An address space as its program sees it. -/
abbrev Contents := Nat → Option Cell

namespace Contents

def empty : Contents := fun _ => none

/-- A new page of zeros. -/
def mapPage (c : Contents) (virt : Nat) (access : UInt32) : Contents := fun w =>
  if SamePage w virt then some (.of access 0) else c w

/-- Another access for a page. -/
def protectPage (c : Contents) (virt : Nat) (access : UInt32) : Contents := fun w =>
  if SamePage w virt then (c w).map fun cell => .of access cell.byte else c w

/-- Other bytes in a range. -/
def write (c : Contents) (dst : Nat) (bytes : List UInt8) : Contents := fun w =>
  if dst ≤ w ∧ w < dst + bytes.length then
    (c w).map fun cell => { cell with byte := bytes.getD (w - dst) 0 }
  else c w

end Contents

/-- What the processor finds at an address through the root of a space. -/
def cellAt (s : Machine) (vm virt : Nat) : Option Cell :=
  let space := (s.context.vms vm).space
  (hardwareTranslate space.physicalMask space.rootPhys s.memory virt).map fun t =>
    ⟨t.user, t.writable, !t.noExecute, s.memory t.physical⟩

/-- The contents of the lower half. -/
def Shows (s : Machine) (vm : Nat) (c : Contents) : Prop :=
  ∀ w, w < userVmEnd → cellAt s vm w = c w

/-! ## Cells and leaves -/

section Cells

variable {vm : Nat} {s s' : Machine} {w virt : Nat} {access : UInt32}

/-- The flags of an access as the processor reads them. -/
theorem accessFlags_bits (h : validAccess access = true) :
    hasFlag (accessFlags access) vmmWritable = decide (access &&& userVmWrite ≠ 0) ∧
      (!hasFlag (accessFlags access) vmmNx) = decide (access &&& userVmExec ≠ 0) := by
  rcases validAccess_cases h with rfl | rfl | rfl
  · decide
  · decide
  · decide

theorem Live.cellAt_absent (hlive : Live vm (s.context.vms vm) s.memory) (hw : w < userVmEnd)
    (hleaf : leafAt (s.context.vms vm).space.physicalMask (s.context.vms vm).space.rootPhys
      (slot s.memory) w = 0) : cellAt s vm w = none := by
  have hv := address_iff.2 hw
  rcases hardwareTranslate_tree hlive.tree hv.canonical hv.own with
    ⟨hnone, -⟩ | ⟨phys, flags, heq, hframe, hflags, -⟩
  · rw [cellAt, hnone]
    rfl
  · rw [hleaf] at heq
    exact absurd heq.symm (packed_ne_zero hlive.tree.mask_within hframe hflags)

theorem Live.cellAt_page (hlive : Live vm (s.context.vms vm) s.memory) (hw : w < userVmEnd)
    (hframe : Frame (s.context.vms vm).space.physicalMask phys)
    (haccess : validAccess access = true)
    (hleaf : leafAt (s.context.vms vm).space.physicalMask (s.context.vms vm).space.rootPhys
      (slot s.memory) w = phys ||| accessFlags access) :
    cellAt s vm w = some (.of access (s.memory (phys + w % 4096))) := by
  have hv := address_iff.2 hw
  have hmask := hlive.tree.mask_within
  have huser := accessFlags_user haccess
  rcases hardwareTranslate_tree hlive.tree hv.canonical hv.own with
    ⟨-, hzero⟩ | ⟨phys', flags, heq, hframe', hflags, htrans⟩
  · rw [hleaf] at hzero
    exact absurd hzero (packed_ne_zero hmask hframe huser.ok)
  · -- The frame and the flags of an entry are determined by it.
    rw [hleaf] at heq
    have hphys : phys = phys' := by
      rw [← packed_mask hmask hframe huser.ok, heq, packed_mask hmask hframe' hflags]
    have hbits : accessFlags access = flags := by
      rw [← packed_flags hmask hframe huser.ok, heq, packed_flags hmask hframe' hflags]
    obtain ⟨hwrite, hexec⟩ := accessFlags_bits haccess
    rw [← hphys, ← hbits] at htrans
    rw [cellAt, htrans, Option.map_some, Cell.of, huser.user_bit, hwrite, hexec]

/-- A page that was not set looks as before. -/
theorem PageSet.cellAt_of_ne {leaf : Nat} (hset : PageSet vm virt leaf s s')
    (hlive : Live vm (s.context.vms vm) s.memory) (hlive' : Live vm (s'.context.vms vm) s'.memory)
    (hw : w < userVmEnd) (hne : ¬ SamePage w virt) : cellAt s' vm w = cellAt s vm w := by
  have hv := address_iff.2 hw
  have hleaf := hset.leaves w hv
  rw [if_neg hne, ← hset.space] at hleaf
  cases hlive.leaves w hv with
  | absent hzero _ =>
    rw [hlive.cellAt_absent hw hzero, hlive'.cellAt_absent hw (hleaf.trans ?_)]
    rw [hset.space]
    exact hzero
  | page i old hi hused hpage hold heq =>
    have hframe := (hlive.page i hi hused).frame
    have hframe' : Frame (s'.context.vms vm).space.physicalMask
        ((s.context.vms vm).pages i).phys := by
      rw [hset.space]
      exact hframe
    have hbyte : s'.memory (((s.context.vms vm).pages i).phys + w % 4096) =
        s.memory (((s.context.vms vm).pages i).phys + w % 4096) := by
      apply hset.bytes
      refine ⟨i, hi, hused, ?_⟩
      have halign := hframe.align
      rw [frameOf]
      omega
    rw [hlive.cellAt_page hw hframe hold heq, hlive'.cellAt_page hw hframe' hold, hbyte]
    rw [hleaf, hset.space]
    exact heq

/-- The page that was set. -/
theorem PageSet.cellAt_self (hset : PageSet vm virt (phys ||| accessFlags access) s s')
    (hlive' : Live vm (s'.context.vms vm) s'.memory) (hw : w < userVmEnd)
    (hframe : Frame (s.context.vms vm).space.physicalMask phys)
    (haccess : validAccess access = true) (hpage : SamePage w virt) :
    cellAt s' vm w = some (.of access (s'.memory (phys + w % 4096))) := by
  apply hlive'.cellAt_page hw
  · rw [hset.space]
    exact hframe
  · exact haccess
  · rw [hset.space, hset.leaves w (address_iff.2 hw), if_pos hpage]

theorem PageAdded.shows {c : Contents} (hadded : PageAdded vm virt phys access s s')
    (hlive : Live vm (s.context.vms vm) s.memory) (hlive' : Live vm (s'.context.vms vm) s'.memory)
    (haccess : validAccess access = true) (hshows : Shows s vm c) :
    Shows s' vm (c.mapPage virt access) := by
  intro w hw
  rw [Contents.mapPage]
  by_cases hpage : SamePage w virt
  · have hzero : s'.memory (phys + w % 4096) = 0 := by
      apply hadded.zero
      have halign := hadded.frame.align
      rw [frameOf]
      omega
    rw [if_pos hpage, hadded.set.cellAt_self hlive' hw hadded.frame haccess hpage, hzero]
  · rw [if_neg hpage, hadded.set.cellAt_of_ne hlive hlive' hw hpage]
    exact hshows w hw

/-- The cell of an entry of the ledger. -/
theorem Live.cellAt_entry (hlive : Live vm (s.context.vms vm) s.memory) (hw : w < userVmEnd)
    (hi : i < userVmPageLimit) (hused : ((s.context.vms vm).pages i).allocated = true)
    (hvirt : ((s.context.vms vm).pages i).virt = memoryAlignDown w) :
    ∃ access, validAccess access = true ∧
      leafAt (s.context.vms vm).space.physicalMask (s.context.vms vm).space.rootPhys
        (slot s.memory) w = ((s.context.vms vm).pages i).phys ||| accessFlags access ∧
      cellAt s vm w =
        some (.of access (s.memory (((s.context.vms vm).pages i).phys + w % 4096))) := by
  cases hlive.leaves w (address_iff.2 hw) with
  | absent _ hno => exact absurd hvirt (hno i hi hused)
  | page j access hj hjused hpage haccess heq =>
    obtain rfl : i = j :=
      hlive.pageLedger.distinct_virt i j hi hj hused hjused (hvirt.trans hpage.symm)
    exact ⟨access, haccess, heq, hlive.cellAt_page hw (hlive.page i hi hused).frame haccess heq⟩

theorem PageProtected.shows {c : Contents} (hdone : PageProtected vm virt i access s s')
    (hlive : Live vm (s.context.vms vm) s.memory) (hlive' : Live vm (s'.context.vms vm) s'.memory)
    (hshows : Shows s vm c) : Shows s' vm (c.protectPage virt access) := by
  intro w hw
  have hi := hdone.limit
  have hused := hdone.allocated
  have hframe := (hlive.page i hi hused).frame
  rw [Contents.protectPage, ← hshows w hw]
  by_cases hpage : SamePage w virt
  · -- The page was there, and its bytes have stayed.
    have hvirt := hdone.virt_eq.trans (samePage_iff.1 hpage).symm
    obtain ⟨old, -, -, hcell⟩ := hlive.cellAt_entry hw hi hused hvirt
    have hbyte : s'.memory (((s.context.vms vm).pages i).phys + w % 4096) =
        s.memory (((s.context.vms vm).pages i).phys + w % 4096) := by
      apply hdone.set.bytes
      refine ⟨i, hi, hused, ?_⟩
      have halign := hframe.align
      rw [frameOf]
      omega
    rw [if_pos hpage, hdone.set.cellAt_self hlive' hw hframe hdone.valid hpage, hcell, hbyte]
    rfl
  · rw [if_neg hpage]
    exact hdone.set.cellAt_of_ne hlive hlive' hw hpage

end Cells

/-! ## Copies -/

section Copies

variable {v : UserVm} {memory : ByteMemory} {write : Bool} {virt n w x : Nat}
  {chunks : List CopyChunk}

/-- The byte of physical memory that holds the byte at an address. -/
def UserVm.Place (v : UserVm) (w x : Nat) : Prop :=
  ∃ i, i < userVmPageLimit ∧ (v.pages i).allocated = true ∧ (v.pages i).virt = memoryAlignDown w ∧
    x = (v.pages i).phys + w % 4096

/-- A place in the frame of an entry belongs to the page of that entry. -/
theorem UserVm.Place.entry (hl : PageLedger v)
    (halign : ∀ i, i < userVmPageLimit → (v.pages i).allocated = true → (v.pages i).phys % 4096 = 0)
    (hplace : v.Place w x) (hi : i < userVmPageLimit) (hused : (v.pages i).allocated = true)
    (hvirt : (v.pages i).virt = memoryAlignDown virt) :
    (SamePage w virt → x = (v.pages i).phys + w % 4096) ∧
      ((v.pages i).phys ≤ x → x < (v.pages i).phys + 4096 → SamePage w virt) := by
  obtain ⟨j, hj, hjused, hjvirt, rfl⟩ := hplace
  constructor
  · intro hpage
    have hij : j = i := by
      apply hl.distinct_virt j i hj hi hjused hused
      rw [hjvirt, hvirt]
      exact samePage_iff.1 hpage
    rw [hij]
  · intro hlo hhi
    have hij : j = i := by
      apply hl.distinct_phys j i hj hi hjused hused
      have h1 := halign i hi hused
      have h2 := halign j hj hjused
      omega
    rw [hij] at hjvirt
    exact samePage_iff.2 (hjvirt.symm.trans hvirt)

/-- The loop of `user_vm_copy_to` stores the bytes of the range in their places and no others. -/
theorem Chunks.copyIn_place (hchunks : Chunks v memory write virt n chunks) (hl : PageLedger v)
    (halign : ∀ i, i < userVmPageLimit → (v.pages i).allocated = true → (v.pages i).phys % 4096 = 0)
    (hplace : v.Place w x) (source : List UInt8) (hlen : source.length = n) (m : ByteMemory) :
    copyIn chunks source m x =
      if virt ≤ w ∧ w < virt + n then source.getD (w - virt) 0 else m x := by
  induction hchunks generalizing source m with
  | nil => rw [copyIn, if_neg (by omega)]
  | @cons virt size remaining i access rest _ hi hused hvirt _ _ _ _ hle _ ih =>
    obtain ⟨hthere, hback⟩ := hplace.entry hl halign hi hused hvirt
    have htake : (source.take size).length = size := by
      rw [List.length_take]
      omega
    rw [copyIn, ih (source.drop size) (by rw [List.length_drop]; omega)]
    by_cases hlater : virt + size ≤ w ∧ w < virt + size + remaining
    · -- A byte of a later chunk.
      have hindex : size + (w - (virt + size)) = w - virt := by omega
      rw [if_pos hlater, if_pos (by omega), List.getD_eq_getElem?_getD, List.getElem?_drop, hindex,
        List.getD_eq_getElem?_getD]
    rw [if_neg hlater]
    by_cases hhere : virt ≤ w ∧ w < virt + size
    · -- A byte of this chunk: its place is as far from the place of the first one.
      have hx := hthere (by rw [SamePage]; omega)
      have hfar : x = (v.pages i).phys + virt % 4096 + (w - virt) := by omega
      have hin : w - virt < (source.take size).length := by omega
      rw [if_pos (by omega), hfar, writeBytes_of_inside hin, List.getElem_take,
        List.getD_eq_getElem?_getD, List.getElem?_eq_getElem (by omega), Option.getD_some]
    · -- A byte of no chunk: its place is outside.
      rw [if_neg (by omega)]
      apply writeBytes_of_outside
      show x < (v.pages i).phys + virt % 4096 ∨ (v.pages i).phys + virt % 4096 + _ ≤ x
      rw [htake]
      by_contra hin
      have hpage := hback (by omega) (by omega)
      have hx := hthere hpage
      rw [SamePage] at hpage
      omega

/-- The bytes of a copy are in pages of the space, writable ones for a write. -/
theorem Chunks.page_at (hchunks : Chunks v memory write virt n chunks) (hlo : virt ≤ w)
    (hhi : w < virt + n) : ∃ i, i < userVmPageLimit ∧ (v.pages i).allocated = true ∧
      (v.pages i).virt = memoryAlignDown w := by
  induction hchunks with
  | nil => omega
  | @cons virt size _ i _ _ _ hi hused hvirt _ _ _ _ hle _ ih =>
    by_cases hhere : w < virt + size
    · refine ⟨i, hi, hused, hvirt.trans (samePage_iff.1 ?_)⟩
      rw [SamePage]
      omega
    · exact ih (by omega) (by omega)

end Copies

/-! ## Operations -/

section Operations

variable {map : MemoryMap} {vm : Nat} {elsewhere : Set Nat} {start s : Machine} {c : Contents}

/-- A space in use, somewhere after `start`, with its contents. -/
structure HasContents (map : MemoryMap) (vm : Nat) (elsewhere : Set Nat) (start : Machine)
    (c : Contents) (s : Machine) : Prop where
  kept : Kept map vm elsewhere start s
  live : Live vm (s.context.vms vm) s.memory
  shows : Shows s vm c

theorem Kept.trans {s1 s2 s3 : Machine} (h : Kept map vm elsewhere s1 s2)
    (h' : Kept map vm elsewhere s2 s3) : Kept map vm elsewhere s1 s3 :=
  ⟨h'.holds, h.framed.trans h'.framed, h'.initialized.trans h.initialized, h.root.trans h'.root⟩

theorem Kept.live {s' : Machine} (h : Kept map vm elsewhere s s')
    (hlive : Live vm (s.context.vms vm) s.memory) : Live vm (s'.context.vms vm) s'.memory := by
  rcases h.holds.state with hzero | hlive'
  · have hinit := h.initialized.trans hlive.initialized
    rw [hzero] at hinit
    cases hinit
  · exact hlive'

/-- A new space is empty. -/
theorem shows_empty (hlive : Live vm (s.context.vms vm) s.memory)
    (hpages : (s.context.vms vm).pageFrames = ∅) : Shows s vm .empty := by
  intro w hw
  cases hlive.leaves w (address_iff.2 hw) with
  | absent hzero _ => exact hlive.cellAt_absent hw hzero
  | page i _ hi hused _ _ _ =>
    have hmem : ((s.context.vms vm).pages i).phys ∈ (s.context.vms vm).pageFrames :=
      ⟨i, hi, hused, rfl⟩
    rw [hpages] at hmem
    cases hmem

theorem HasContents.allocPage (h : HasContents map vm elsewhere start c s) (virt : Nat)
    (access : UInt32) :
    ∃ s' ok, userVmAllocPage s vm virt access = some (s', ok) ∧ Kept map vm elsewhere start s' ∧
      (ok = true → HasContents map vm elsewhere start (c.mapPage virt access) s') := by
  obtain ⟨s', ok, hcall, hkept, hadded, -⟩ := userVmAllocPage_spec h.kept.holds virt access
  refine ⟨s', ok, hcall, h.kept.trans hkept, fun hok => ?_⟩
  obtain ⟨haccess, phys, hadded⟩ := hadded hok
  have hlive' := hkept.live h.live
  exact ⟨h.kept.trans hkept, hlive', hadded.shows h.live hlive' haccess h.shows⟩

theorem HasContents.protectPage (h : HasContents map vm elsewhere start c s) (virt : Nat)
    (access : UInt32) :
    ∃ s' ok, userVmProtectPage s vm virt access = (s', ok) ∧ Kept map vm elsewhere start s' ∧
      (ok = true → HasContents map vm elsewhere start (c.protectPage virt access) s') := by
  obtain ⟨s', ok, hcall, hkept, hdone, -⟩ := userVmProtectPage_spec h.kept.holds virt access
  refine ⟨s', ok, hcall, h.kept.trans hkept, fun hok => ?_⟩
  obtain ⟨i, hdone⟩ := hdone hok
  have hlive' := hkept.live h.live
  exact ⟨h.kept.trans hkept, hlive', hdone.shows h.live hlive' h.shows⟩

/-- Writes outside the tables change the bytes of the pages only. -/
theorem Live.cellAt_bytes {w : Nat} (hlive : Live vm (s.context.vms vm) s.memory) (s' : Machine)
    (hvm : s'.context.vms vm = s.context.vms vm)
    (hkeep : ∀ x, frameOf x ∈ (s.context.vms vm).tableFrames → s'.memory x = s.memory x)
    (hw : w < userVmEnd) :
    (cellAt s vm w = none ∧ cellAt s' vm w = none ∧
      ∀ i, i < userVmPageLimit → ((s.context.vms vm).pages i).allocated = true →
        ((s.context.vms vm).pages i).virt ≠ memoryAlignDown w) ∨
    ∃ x access, (s.context.vms vm).Place w x ∧ cellAt s vm w = some (.of access (s.memory x)) ∧
      cellAt s' vm w = some (.of access (s'.memory x)) := by
  have hv := address_iff.2 hw
  have hlive' : Live vm (s'.context.vms vm) s'.memory := by
    rw [hvm]
    exact hlive.of_bytes hkeep
  have hleaf := (hlive.tree_congr hkeep).2.2 w hv.own
  rw [← hvm] at hleaf
  cases hlive.leaves w hv with
  | absent hzero hno =>
    left
    refine ⟨hlive.cellAt_absent hw hzero, hlive'.cellAt_absent hw ?_, hno⟩
    rw [hleaf, hvm]
    exact hzero
  | page i access hi hused hvirt haccess heq =>
    right
    have hframe := (hlive.page i hi hused).frame
    refine ⟨((s.context.vms vm).pages i).phys + w % 4096, access, ⟨i, hi, hused, hvirt, rfl⟩,
      hlive.cellAt_page hw hframe haccess heq, hlive'.cellAt_page hw ?_ haccess ?_⟩
    · rw [hvm]
      exact hframe
    · rw [hleaf, hvm]
      exact heq

/-- A copy that succeeds changes the bytes of its range. -/
theorem Holds.copyTo_shows (h : Holds map vm elsewhere s)
    (hlive : Live vm (s.context.vms vm) s.memory) {dst : Nat} {source : List UInt8} {s' : Machine}
    (hcall : userVmCopyTo s vm dst (some source) source.length = (s', true))
    (hshows : Shows s vm c) :
    Shows s' vm (c.write dst source) := by
  rw [userVmCopyTo] at hcall
  split at hcall
  · cases hcall
  cases hflight : copyPreflight s vm dst source.length true with
  | none =>
    rw [hflight] at hcall
    cases hcall
  | some chunks =>
    rw [hflight, Option.getD_some, Prod.mk.injEq] at hcall
    obtain ⟨rfl, -⟩ := hcall
    have hchunks := copyPreflight_chunks h hflight
    have halign := fun i hi hused => (hlive.page i hi hused).frame.align
    -- The tables are not among the bytes that were written.
    have hkeep : ∀ x, frameOf x ∈ (s.context.vms vm).tableFrames →
        copyIn chunks source s.memory x = s.memory x := by
      intro x hx
      apply copyIn_of_outside
      intro chunk hmem
      by_contra hin
      have hmem' := hchunks.frame halign chunk hmem x (by omega) (by omega)
      exact Set.disjoint_left.1 hlive.apart hx hmem'
    intro w hw
    rw [Contents.write, ← hshows w hw]
    rcases hlive.cellAt_bytes ⟨s.context, copyIn chunks source s.memory⟩ rfl hkeep hw with
      ⟨hnone, hnone', hno⟩ | ⟨x, access, hplace, hcell, hcell'⟩
    · -- Every byte of the range has a page.
      have hout : ¬ (dst ≤ w ∧ w < dst + source.length) := by
        rintro ⟨hlo, hhi⟩
        obtain ⟨i, hi, hused, hvirt⟩ := hchunks.page_at hlo hhi
        exact hno i hi hused hvirt
      rw [if_neg hout, hnone, hnone']
    · rw [hcell', hcell]
      show some (Cell.of access (copyIn chunks source s.memory x)) = _
      rw [hchunks.copyIn_place hlive.pageLedger halign hplace source rfl]
      by_cases hin : dst ≤ w ∧ w < dst + source.length
      · rw [if_pos hin, if_pos hin]
        rfl
      · rw [if_neg hin, if_neg hin]

theorem HasContents.copyTo (h : HasContents map vm elsewhere start c s) (dst : Nat)
    (source : List UInt8) :
    ∃ s' ok, userVmCopyTo s vm dst (some source) source.length = (s', ok) ∧
      Kept map vm elsewhere start s' ∧
      (ok = true → HasContents map vm elsewhere start (c.write dst source) s') := by
  obtain ⟨s', ok, hcall, hkept, -⟩ := userVmCopyTo_spec h.kept.holds dst (some source) source.length
  refine ⟨s', ok, hcall, h.kept.trans hkept, ?_⟩
  rintro rfl
  exact ⟨h.kept.trans hkept, hkept.live h.live, h.kept.holds.copyTo_shows h.live hcall h.shows⟩

end Operations

end Utamo.AddressSpace
