import Utamo.Lib.Bits
import Utamo.Lib.Checked
import Utamo.Vfs.Core

/-!
# The initial file system

`kernel/fs/initramfs.c` reads a tree of files from an archive of the "newc" format: a sequence of
headers of hexadecimal numbers, each followed by a name and the contents of a file, both padded to
multiples of four bytes, up to a trailer. The archive is data of the boot loader, so `parse` checks
everything it reads.

What it accepts is a tree in order (`TreeSound`): the first node is the root, the paths are valid
and distinct, and the parent of every other node is a directory of the tree.
-/

set_option autoImplicit false

namespace Utamo.Vfs

open Lib Lib.ByteMemory

variable {node : VfsNode} {fs : Ramfs}

/-! ## Model -/

/-- `UTAMO_INITRAMFS_LIMIT` -/
def initramfsLimit : Nat := 4 * 1024 * 1024

/-- The value of a hexadecimal digit. -/
def hexDigit (c : UInt8) : Option Nat :=
  if 48 ≤ c ∧ c ≤ 57 then some (c.toNat - 48)
  else if 97 ≤ c ∧ c ≤ 102 then some (c.toNat - 97 + 10)
  else if 65 ≤ c ∧ c ≤ 70 then some (c.toNat - 65 + 10)
  else none

/-- `hex8`; eight digits fit into a `uint32_t`. -/
def hex8 (bytes : ByteMemory) (text : Nat) : Option Nat :=
  forRangeM 0 8 (fun i value => (hexDigit (bytes (text + i))).map fun digit => 16 * value + digit) 0

/-- `"070701"` -/
def cpioMagic : List UInt8 := [48, 55, 48, 55, 48, 49]

/-- `"TRAILER!!!"`, without the final NUL. -/
def trailerName : List UInt8 := [84, 82, 65, 73, 76, 69, 82, 33, 33, 33]

/-- The bits of a mode that hold the type. -/
def modeTypeMask : Nat := 0o170000

/-- The type of a regular file. -/
def modeFile : Nat := 0o100000

/-- The type of a directory. -/
def modeDirectory : Nat := 0o040000

/-- The loop that searches the last slash of a path, from an index downwards. -/
def lastSlash (path : Path) : Nat → Nat
  | 0 => 0
  | i + 1 => if charAt path (i + 1) = slash then i + 1 else lastSlash path i

/-- The path of the directory of a node, as `parse` computes it. -/
def parentPath (path : Path) : Path :=
  let i := lastSlash path (path.length - 1)
  path.take (if i = 0 then 1 else i)

/-- `"/"` -/
def rootPath : Path := [slash]

/-- The node that every tree starts with. -/
def rootNode : VfsNode := ⟨rootPath, .null, 0, .directory, 0o755⟩

/-- `(x + 3) & ~3` -/
def alignFour (x : Nat) : Nat := (x + 3) &&& notU64 3

/-- What one round of the loop of `parse` ends with, if it does not reject the archive: the trailer
was found, or a node, and the next header is at `next`. -/
inductive ParseStep
  | trailer
  | entry (node : VfsNode) (next : Nat)

/-- The part of a round that makes a node: the name is at `name` and the contents are at `data`. -/
def parseNode (image : Buffer) (nodes : List VfsNode) (mode links bytes name namesize data : Nat) :
    Option ParseStep :=
  let type := mode &&& modeTypeMask
  if (type ≠ modeFile ∧ type ≠ modeDirectory) ∨ (type = modeDirectory ∧ bytes ≠ 0) ∨ links = 0 ∨
      (type = modeFile ∧ links ≠ 1) ∨ nodes.length = vfsNodeLimit ∨ image.bytes name = slash then
    none
  else
    let node : VfsNode :=
      { path := slash :: readBytes image.bytes name (namesize - 1)
        data := ⟨image.handle, fun i => image.bytes (data + i)⟩
        size := bytes
        type := if type = modeFile then .file else .directory
        mode := mode &&& 0o777 }
    if ¬ vfsPathValid node.path ∨ (ramfsLookup ⟨nodes, false⟩ node.path).isSome then none
    else
      match ramfsLookup ⟨nodes, false⟩ (parentPath node.path) with
      | none => none
      | some directory =>
        if directory.type ≠ .directory then none
        else some (.entry node (alignFour (data + bytes)))

/-- One round of the loop of `parse`, for the header at `offset`. -/
def parseEntry (image : Buffer) (size : Nat) (nodes : List VfsNode) (offset : Nat) :
    Option ParseStep :=
  if readBytes image.bytes offset 6 ≠ cpioMagic then none
  else
    match (List.range 13).mapM fun i => hex8 image.bytes (offset + 6 + i * 8) with
    | none => none
    | some fields =>
      let namesize := fields.getD 11 0
      let bytes := fields.getD 6 0
      let name := offset + 110
      if namesize < 2 ∨ vfsPathMax ≤ namesize ∨ size - name < namesize ∨ fields.getD 12 0 ≠ 0 then
        none
      else if image.bytes (name + namesize - 1) ≠ 0 then none
      else if anyRange 0 (namesize - 1) fun i => image.bytes (name + i) = 0 then none
      else
        let data := alignFour (name + namesize)
        if size < data ∨ size - data < bytes then none
        else if namesize = 11 ∧ readBytes image.bytes name 11 = trailerName ++ [0] then
          if bytes ≠ 0 ∨ anyRange data size fun i => image.bytes i ≠ 0 then none
          else some .trailer
        else
          parseNode image nodes (fields.getD 1 0) (fields.getD 4 0) bytes name namesize data

/-- The loop of `parse`, for a number of rounds that it cannot exceed. -/
def parseLoop (image : Buffer) (size : Nat) : Nat → List VfsNode → Nat → Option (List VfsNode)
  | 0, _, _ => none
  | rounds + 1, nodes, offset =>
    if ¬ (offset ≤ size ∧ 110 ≤ size - offset) then none
    else
      match parseEntry image size nodes offset with
      | none => none
      | some .trailer => some nodes
      | some (.entry node next) => parseLoop image size rounds (nodes ++ [node]) next

/-- `parse`; the nodes of the tree. A header has 110 bytes, which bounds the number of rounds. -/
def parse (image : Buffer) (size : Nat) : Option (List VfsNode) :=
  parseLoop image size (size / 110 + 1) [rootNode] 0

/-- A cleared `struct ramfs`. -/
def Ramfs.zero : Ramfs := ⟨[], false⟩

/-- `ramfs_import` -/
def ramfsImport (fs : Ramfs) (image : Buffer) (size : Nat) : Ramfs × Bool :=
  if fs.ready ∨ fs.nodes.length ≠ 0 then (fs, false)
  else if image.handle = 0 ∨ initramfsLimit < size then (.zero, false)
  else
    match parse image size with
    | none => (.zero, false)
    | some nodes => (⟨nodes, true⟩, true)

/-! ## Entries of an archive -/

/-- An entry of an archive: where its header is and the two lengths in it. -/
structure Placement where
  header : Nat
  namesize : Nat
  bytes : Nat
  deriving DecidableEq, Repr

/-- Where the name is. -/
def Placement.name (p : Placement) : Nat := p.header + 110

/-- Where the contents are. -/
def Placement.data (p : Placement) : Nat := alignFour (p.name + p.namesize)

/-- Where the next header is. -/
def Placement.next (p : Placement) : Nat := alignFour (p.data + p.bytes)

/-- The header of an entry says what the placement says, and the name and the contents end in the
image. -/
structure PlacedAt (image : Buffer) (size : Nat) (p : Placement) : Prop where
  magic : readBytes image.bytes p.header 6 = cpioMagic
  namesize : hex8 image.bytes (p.header + 6 + 11 * 8) = some p.namesize
  bytes : hex8 image.bytes (p.header + 6 + 6 * 8) = some p.bytes
  name_ge : 2 ≤ p.namesize
  name_lt : p.namesize < vfsPathMax
  name_in : p.namesize ≤ size - p.name
  data_in : p.data ≤ size
  bytes_in : p.bytes ≤ size - p.data

/-- The trailer: its name, no contents, and nothing but zeros behind it. -/
structure TrailerAt (image : Buffer) (size : Nat) (p : Placement) : Prop where
  namesize : p.namesize = 11
  name : readBytes image.bytes p.name 11 = trailerName ++ [0]
  bytes : p.bytes = 0
  zeros : ∀ i, p.data ≤ i → i < size → image.bytes i = 0

section Entries

variable {image : Buffer} {size : Nat} {nodes : List VfsNode} {offset : Nat}

/-- What a round that does not reject the archive has found. -/
theorem parseEntry_cases {step : ParseStep} (h : parseEntry image size nodes offset = some step) :
    ∃ p mode links, p.header = offset ∧ PlacedAt image size p ∧
      ((step = .trailer ∧ TrailerAt image size p) ∨
        parseNode image nodes mode links p.bytes p.name p.namesize p.data = some step) := by
  rw [parseEntry] at h
  split at h
  · cases h
  rename_i hmagic
  rw [not_not] at hmagic
  split at h
  · cases h
  rename_i fields hfields
  have hfield : ∀ i, i < 13 → hex8 image.bytes (offset + 6 + i * 8) = some (fields.getD i 0) :=
    fun i hi => mapM_range_getD 0 hfields hi
  simp only at h
  split at h
  · cases h
  rename_i hname
  simp only [not_or, Nat.not_lt, Nat.not_le] at hname
  split at h
  · cases h
  split at h
  · cases h
  split at h
  · cases h
  rename_i hdata
  simp only [not_or, Nat.not_lt] at hdata
  refine ⟨⟨offset, fields.getD 11 0, fields.getD 6 0⟩, fields.getD 1 0, fields.getD 4 0, rfl,
    ⟨hmagic, hfield 11 (by decide), hfield 6 (by decide), hname.1, hname.2.1, hname.2.2.1, hdata.1,
      hdata.2⟩, ?_⟩
  split at h
  · rename_i htrailer
    split at h
    · cases h
    · rename_i hzeros
      cases h
      rw [not_or, not_not, Bool.not_eq_true, anyRange_eq_false] at hzeros
      refine Or.inl ⟨rfl, htrailer.1, htrailer.2, hzeros.1, fun i h1 h2 => ?_⟩
      exact not_not.1 (of_decide_eq_false (hzeros.2 i h1 h2))
  · exact Or.inr h

/-- What a round that makes a node has checked, and the node. -/
theorem parseNode_cases {step : ParseStep} {mode links bytes name namesize data : Nat}
    (h : parseNode image nodes mode links bytes name namesize data = some step) :
    ∃ node, step = .entry node (alignFour (data + bytes)) ∧
      node.path = slash :: readBytes image.bytes name (namesize - 1) ∧
      node.data = ⟨image.handle, fun i => image.bytes (data + i)⟩ ∧ node.size = bytes ∧
      nodes.length ≠ vfsNodeLimit ∧ vfsPathValid node.path = true ∧
      ramfsLookup ⟨nodes, false⟩ node.path = none ∧
      ∃ directory, ramfsLookup ⟨nodes, false⟩ (parentPath node.path) = some directory ∧
        directory.type = .directory := by
  rw [parseNode] at h
  simp only at h
  split at h
  · cases h
  rename_i hkind
  simp only [not_or] at hkind
  split at h
  · cases h
  rename_i hpath
  rw [not_or, not_not, Option.not_isSome_iff_eq_none] at hpath
  split at h
  · cases h
  rename_i directory hdirectory
  split at h
  · cases h
  rename_i htype
  rw [not_not] at htype
  cases h
  exact ⟨_, rfl, rfl, rfl, rfl, hkind.2.2.2.2.1, hpath.1, hpath.2, directory, hdirectory, htype⟩

theorem alignFour_eq {x : Nat} (h : x + 3 < 2 ^ 64) : alignFour x = (x + 3) / 4 * 4 := by
  have hlow := and_not_low (k := 2) h
  exact hlow

theorem le_alignFour {x : Nat} (h : x + 3 < 2 ^ 64) : x ≤ alignFour x := by
  rw [alignFour_eq h]
  omega

/-- Header, name, contents and next header stand in this order. -/
theorem PlacedAt.order {p : Placement} (h : PlacedAt image size p) (hsize : size ≤ initramfsLimit)
    (hheader : p.header ≤ size) :
    p.header + 110 + p.namesize ≤ p.data ∧ p.data + p.bytes ≤ p.next ∧ p.data + p.bytes ≤ size := by
  have hlimit : initramfsLimit = 4194304 := rfl
  have hpath : vfsPathMax = 128 := rfl
  have hname := h.name_lt
  have hdata := h.data_in
  have hbytes := h.bytes_in
  refine ⟨le_alignFour ?_, le_alignFour ?_, by omega⟩
  · omega
  · omega

end Entries

/-! ## The number of rounds -/

section Rounds

variable {image : Buffer} {size : Nat} {nodes : List VfsNode} {offset : Nat}

/-- A round moves on by at least a header. -/
theorem parseEntry_next {next : Nat} (hsize : size ≤ initramfsLimit)
    (hoffset : offset ≤ size) (h : parseEntry image size nodes offset = some (.entry node next)) :
    offset + 110 ≤ next := by
  obtain ⟨p, mode, links, rfl, hp, ⟨hnone, -⟩ | hnode⟩ := parseEntry_cases h
  · cases hnone
  · obtain ⟨node', heq, -⟩ := parseNode_cases hnode
    cases heq
    obtain ⟨hname, hdata, -⟩ := hp.order hsize hoffset
    show p.header + 110 ≤ p.next
    omega

end Rounds

/-! ## Trees in order -/

/-- The nodes of a tree with its root. -/
structure TreeSound (nodes : List VfsNode) : Prop where
  limit : nodes.length ≤ vfsNodeLimit
  valid : ∀ node ∈ nodes, vfsPathValid node.path = true
  unique : (nodes.map VfsNode.path).Nodup
  root : ∃ node ∈ nodes, node.path = rootPath ∧ node.type = .directory
  parent : ∀ node ∈ nodes, node.path ≠ rootPath →
    ∃ directory ∈ nodes, directory.path = parentPath node.path ∧ directory.type = .directory

theorem ramfsLookup_mem {path : Path}
    (h : ramfsLookup fs path = some node) : node ∈ fs.nodes ∧ node.path = path := by
  rw [ramfsLookup] at h
  split at h
  · cases h
  · have hpath := List.find?_some h
    exact ⟨List.mem_of_find?_eq_some h, of_decide_eq_true hpath⟩

theorem ramfsLookup_none {path : Path} (hlimit : fs.nodes.length ≤ vfsNodeLimit)
    (hvalid : vfsPathValid path = true) (h : ramfsLookup fs path = none) :
    ∀ node ∈ fs.nodes, node.path ≠ path := by
  intro node hnode hpath
  rw [ramfsLookup, if_neg, List.find?_eq_none] at h
  · exact h node hnode (decide_eq_true hpath)
  · rintro (hlong | hinvalid)
    · omega
    · exact hinvalid hvalid

section Tree

variable {image : Buffer} {size : Nat} {nodes : List VfsNode} {offset : Nat}

/-- A node that can be added to a tree. -/
theorem TreeSound.snoc (h : TreeSound nodes) (hlimit : nodes.length ≠ vfsNodeLimit)
    (hvalid : vfsPathValid node.path = true) (hnew : ∀ other ∈ nodes, other.path ≠ node.path)
    (hparent : ∃ directory ∈ nodes, directory.path = parentPath node.path ∧
      directory.type = .directory) : TreeSound (nodes ++ [node]) := by
  refine ⟨?_, ?_, ?_, ?_, ?_⟩
  · rw [List.length_append, List.length_singleton]
    have := h.limit
    omega
  · exact List.forall_mem_append.2 ⟨h.valid, List.forall_mem_singleton.2 hvalid⟩
  · rw [List.map_append, List.map_singleton, List.nodup_append]
    refine ⟨h.unique, List.nodup_singleton _, ?_⟩
    intro path hpath path' hpath' heq
    obtain ⟨other, hother, rfl⟩ := List.mem_map.1 hpath
    rw [List.mem_singleton] at hpath'
    exact hnew other hother (heq.trans hpath')
  · obtain ⟨root, hroot, hrest⟩ := h.root
    exact ⟨root, List.mem_append_left _ hroot, hrest⟩
  · intro other hother hne
    rcases List.mem_append.1 hother with hother | hother
    · obtain ⟨directory, hmem, hrest⟩ := h.parent other hother hne
      exact ⟨directory, List.mem_append_left _ hmem, hrest⟩
    · rw [List.mem_singleton] at hother
      rw [hother]
      obtain ⟨directory, hmem, hrest⟩ := hparent
      exact ⟨directory, List.mem_append_left _ hmem, hrest⟩

theorem treeSound_root : TreeSound [rootNode] := by
  refine ⟨by decide, ?_, List.nodup_singleton _,
    ⟨rootNode, List.mem_singleton_self _, rfl, rfl⟩, ?_⟩
  · intro node hnode
    rw [List.mem_singleton] at hnode
    rw [hnode]
    decide
  · intro node hnode hne
    rw [List.mem_singleton] at hnode
    rw [hnode] at hne
    exact absurd rfl hne

/-- What `parse` requires of a node is what a tree in order needs. -/
theorem parseNode_sound (h : TreeSound nodes)
    {next mode links bytes name namesize data : Nat}
    (hstep : parseNode image nodes mode links bytes name namesize data = some (.entry node next)) :
    TreeSound (nodes ++ [node]) := by
  obtain ⟨node', heq, -, -, -, hlimit, hvalid, hnew, directory, hdirectory, htype⟩ :=
    parseNode_cases hstep
  cases heq
  obtain ⟨hmem, hpath⟩ := ramfsLookup_mem hdirectory
  exact h.snoc hlimit hvalid (ramfsLookup_none h.limit hvalid hnew) ⟨directory, hmem, hpath, htype⟩

theorem parseEntry_sound (h : TreeSound nodes) {next : Nat}
    (hstep : parseEntry image size nodes offset = some (.entry node next)) :
    TreeSound (nodes ++ [node]) := by
  obtain ⟨p, mode, links, -, -, ⟨hnone, -⟩ | hnode⟩ := parseEntry_cases hstep
  · cases hnone
  · exact parseNode_sound h hnode

theorem parseLoop_sound (rounds : Nat) {nodes nodes' : List VfsNode} {offset : Nat}
    (h : TreeSound nodes) (hrun : parseLoop image size rounds nodes offset = some nodes') :
    TreeSound nodes' := by
  induction rounds generalizing nodes offset with
  | zero => cases hrun
  | succ rounds ih =>
    rw [parseLoop] at hrun
    split at hrun
    · cases hrun
    split at hrun
    · cases hrun
    · cases hrun
      exact h
    · rename_i node next hentry
      exact ih (parseEntry_sound h hentry) hrun

/-- What `ramfs_import` accepts is a tree in order. -/
theorem ramfsImport_sound {tree : Ramfs} (h : ramfsImport fs image size = (tree, true)) :
    tree.ready = true ∧ TreeSound tree.nodes := by
  rw [ramfsImport] at h
  split at h
  · cases h
  split at h
  · cases h
  split at h
  · cases h
  · rename_i nodes hparse
    cases h
    exact ⟨rfl, parseLoop_sound _ treeSound_root hparse⟩

end Tree

end Utamo.Vfs
