import Mathlib.Data.Nat.Digits.Lemmas
import Utamo.Lib.Checked
import Utamo.Lib.Stored
import Utamo.Vfs.Grammar
import Utamo.Vfs.Namespace

/-!
# Archives of the build

`scripts/make-initramfs.py` writes the archive that the kernel reads: `newc` puts the entries one
behind the other and ends with the trailer. The two sides are written separately; here they are
compared. What `newc` writes for a list of entries with sensible names, `ramfs_import` reads back as
the same list (`ramfsImport_newc`).

The offsets of the writer and of the reader agree because both round up to multiples of four from
the start of the archive.
-/

set_option autoImplicit false

namespace Utamo.Vfs

open Lib Lib.ByteMemory

variable {x a ino : Nat} {m : ByteMemory}

/-! ## The writer -/

/-- A triple of a name, a mode and the contents. -/
structure NewcEntry where
  name : List UInt8
  mode : Nat
  data : List UInt8

/-- The character of a hexadecimal digit. -/
def hexChar (digit : Nat) : UInt8 := (if digit < 10 then 48 + digit else 87 + digit).toUInt8

/-- `f"{x:08x}"` -/
def hex08 (x : Nat) : List UInt8 := (Nat.digitsAppend 16 8 x).reverse.map hexChar

/-- `-n % 4` -/
def padding (n : Nat) : Nat := (4 - n % 4) % 4

/-- `bytes(n)` -/
def zeros (n : Nat) : List UInt8 := List.replicate n 0

/-- The numbers of a header. -/
def newcFields (ino : Nat) (entry : NewcEntry) : List Nat :=
  [ino, entry.mode, 0, 0, 1, 0, entry.data.length, 0, 0, 0, 0, (entry.name ++ [0]).length, 0]

/-- The body of the loop of `newc`. -/
def newcStep (output : List UInt8) (ino : Nat) (entry : NewcEntry) : List UInt8 :=
  let encoded := entry.name ++ [0]
  let output := output ++ (cpioMagic ++ (newcFields ino entry).flatMap hex08)
  let output := output ++ encoded
  let output := output ++ zeros (padding output.length)
  let output := output ++ entry.data
  output ++ zeros (padding output.length)

/-- `("TRAILER!!!", 0, b"")` -/
def trailerEntry : NewcEntry := ⟨trailerName, 0, []⟩

/-- `newc` -/
def newc (entries : List NewcEntry) : List UInt8 :=
  ((entries ++ [trailerEntry]).zipIdx 1).foldl (fun output p => newcStep output p.2 p.1) []

/-! ## Numbers -/

section Numbers

theorem getElem_digitsAppend {i : Nat} (h : i < (Nat.digitsAppend 16 8 x).length) :
    (Nat.digitsAppend 16 8 x)[i] = x / 16 ^ i % 16 := by
  rw [← Nat.getD_digits x i (by omega), ← List.getD_eq_getElem _ 0 h, Nat.digitsAppend]
  by_cases hi : i < (Nat.digits 16 x).length
  · rw [List.getD_append _ _ _ _ hi]
  · rw [List.getD_append_right _ _ _ _ (by omega),
      List.getD_eq_default (Nat.digits 16 x) _ (by omega)]
    rw [Nat.digitsAppend, List.length_append, List.length_replicate] at h
    rw [List.getD_replicate _ (by omega)]

theorem length_hex08 (hx : x < 16 ^ 8) : (hex08 x).length = 8 := by
  rw [hex08, List.length_map, List.length_reverse, Nat.length_digitsAppend (by omega) 8 hx]

theorem hexDigit_hexChar {digit : Nat} (h : digit < 16) :
    hexDigit (hexChar digit) = some digit := by
  interval_cases digit <;> rfl

/-- The digit `i` of a number, counted from the left. -/
theorem hexDigit_stored {i : Nat} (h : Stores m a (hex08 x)) (hx : x < 16 ^ 8)
    (hi : i < 8) : hexDigit (m (a + i)) = some (x / 16 ^ (7 - i) % 16) := by
  have hlen := length_hex08 hx
  have hdigits : (Nat.digitsAppend 16 8 x).length = 8 := Nat.length_digitsAppend (by omega) 8 hx
  rw [h i (by omega)]
  simp only [hex08, List.getElem_map, List.getElem_reverse, getElem_digitsAppend, hdigits]
  rw [hexDigit_hexChar (Nat.mod_lt _ (by omega)), show 8 - 1 - i = 7 - i by omega]

/-- `hex8` reads what the writer wrote. -/
theorem hex8_hex08 (h : Stores m a (hex08 x)) (hx : x < 16 ^ 8) :
    hex8 m a = some x := by
  -- after `i` digits the value is the number without its last `8 - i` digits
  have hloop : ∃ value, hex8 m a = some value ∧ value = x / 16 ^ (8 - 8) := by
    refine forRangeM_invariant (P := fun i value => value = x / 16 ^ (8 - i)) (by omega) ?_ ?_
    · exact (Nat.div_eq_of_lt hx).symm
    · intro i value _ hi hvalue
      rw [hexDigit_stored h hx hi]
      refine ⟨_, rfl, ?_⟩
      have hpow : 16 ^ (8 - i) = 16 ^ (7 - i) * 16 := by
        rw [← Nat.pow_succ]
        congr 1
        omega
      rw [hvalue, hpow, ← Nat.div_div_eq_div_mul, show 8 - (i + 1) = 7 - i by omega]
      exact Nat.div_add_mod _ 16
  obtain ⟨value, hrun, hvalue⟩ := hloop
  rw [hrun, hvalue, Nat.sub_self, Nat.pow_zero, Nat.div_one]

theorem alignFour_padding (h : x + 3 < 2 ^ 64) : alignFour x = x + padding x := by
  rw [alignFour_eq h, padding]
  omega

end Numbers

/-! ## One entry -/

/-- What `newc` writes for an entry at an offset. -/
def newcBytes (offset ino : Nat) (entry : NewcEntry) : List UInt8 :=
  let name := offset + 110
  let data := name + (entry.name.length + 1) + padding (name + (entry.name.length + 1))
  cpioMagic ++ ((newcFields ino entry).flatMap hex08 ++ (entry.name ++ ([0] ++
    (zeros (padding (name + (entry.name.length + 1))) ++
      (entry.data ++ zeros (padding (data + entry.data.length)))))))

/-- What the writer and the reader need of the numbers of a header. -/
structure FieldsFit (ino : Nat) (entry : NewcEntry) : Prop where
  ino : ino < 16 ^ 8
  mode : entry.mode < 16 ^ 8
  bytes : entry.data.length < 16 ^ 8
  name : entry.name.length + 1 < 128

section Entry

variable {ino offset size : Nat} {entry : NewcEntry} {image : Buffer}

theorem FieldsFit.lt (h : FieldsFit ino entry) : ∀ x ∈ newcFields ino entry, x < 16 ^ 8 := by
  intro x hx
  have hname := h.name
  simp only [newcFields, List.length_append, List.length_singleton, List.mem_cons, List.not_mem_nil,
    or_false] at hx
  rcases hx with rfl | rfl | rfl | rfl | rfl | rfl | rfl | rfl | rfl | rfl | rfl | rfl | rfl
  · exact h.ino
  · exact h.mode
  all_goals first | exact h.bytes | omega

theorem length_flatMap_hex08 {fields : List Nat} (h : ∀ x ∈ fields, x < 16 ^ 8) :
    (fields.flatMap hex08).length = fields.length * 8 := by
  induction fields with
  | nil => rfl
  | cons x fields ih =>
    rw [List.flatMap_cons, List.length_append, length_hex08 (h x List.mem_cons_self),
      ih fun y hy => h y (List.mem_cons_of_mem x hy), List.length_cons]
    omega

theorem length_header (h : FieldsFit ino entry) :
    ((newcFields ino entry).flatMap hex08).length = 104 := by
  rw [length_flatMap_hex08 h.lt]
  rfl

/-- One round of the writer adds the bytes of the entry. -/
theorem newcStep_eq (h : FieldsFit ino entry) (output : List UInt8) :
    newcStep output ino entry = output ++ newcBytes output.length ino entry := by
  have hheader := length_header h
  have hmagic : cpioMagic.length = 6 := rfl
  simp only [newcStep, newcBytes, List.length_append, hheader, hmagic, List.length_singleton,
    List.append_assoc, zeros, List.length_replicate]
  have hname : output.length + (6 + (104 + (entry.name.length + 1))) =
      output.length + 110 + (entry.name.length + 1) := by omega
  rw [hname]
  congr 9
  omega

/-- The length of an entry: the next one starts where the reader looks for it. -/
theorem length_newcBytes (h : FieldsFit ino entry)
    (hoffset : offset + entry.data.length + 1000 < 2 ^ 64) :
    offset + (newcBytes offset ino entry).length =
      alignFour (alignFour (offset + 110 + (entry.name.length + 1)) + entry.data.length) := by
  have hname := h.name
  have hpad : padding (offset + 110 + (entry.name.length + 1)) ≤ 3 := by
    rw [padding]
    omega
  rw [alignFour_padding (x := offset + 110 + (entry.name.length + 1)) (by omega),
    alignFour_padding (by omega)]
  have hheader := length_header h
  have hmagic : cpioMagic.length = 6 := rfl
  simp only [newcBytes, List.length_append, hheader, hmagic, List.length_singleton, zeros,
    List.length_replicate]
  omega

/-- The reader finds the numbers of the header. -/
theorem mapM_hex8 {fields : List Nat} (hlt : ∀ x ∈ fields, x < 16 ^ 8)
    (h : Stores m a (fields.flatMap hex08)) :
    ((List.range fields.length).mapM fun i => hex8 m (a + i * 8)) = some fields := by
  have hread : ∀ i ∈ List.range fields.length, hex8 m (a + i * 8) = some (fields.getD i 0) := by
    intro i hi
    rw [List.mem_range] at hi
    rw [List.getD_eq_getElem _ _ hi]
    refine hex8_hex08 ?_ (hlt _ (List.getElem_mem hi))
    exact h.flatMap (fun x hx => length_hex08 (hlt x hx)) hi
  rw [mapM_eq_some hread]
  congr 1
  refine List.ext_getElem (by rw [List.length_map, List.length_range]) fun i hi hi' => ?_
  rw [List.getElem_map, List.getElem_range, List.getD_eq_getElem _ _ hi']

/-- The reader takes an entry apart into what the writer put together. -/
theorem parseEntry_newcBytes (nodes : List VfsNode) (h : FieldsFit ino entry)
    (hnonempty : entry.name ≠ []) (hnul : 0 ∉ entry.name)
    (hstored : Stores image.bytes offset (newcBytes offset ino entry))
    (hsize : offset + (newcBytes offset ino entry).length ≤ size) (hlimit : size ≤ initramfsLimit) :
    let name := offset + 110
    let namesize := entry.name.length + 1
    let data := alignFour (name + namesize)
    Stores image.bytes name (entry.name ++ [0]) ∧ Stores image.bytes data entry.data ∧
      parseEntry image size nodes offset =
        if entry.name = trailerName then
          if entry.data.length ≠ 0 ∨ anyRange data size fun i => image.bytes i ≠ 0 then none
          else some .trailer
        else parseNode image nodes entry.mode 1 entry.data.length name namesize data := by
  intro name namesize data
  have hnamelen := h.name
  have hlimit' : initramfsLimit = 4194304 := rfl
  have hdatalen := h.bytes
  have hdataEnd : offset + (newcBytes offset ino entry).length =
      alignFour (data + entry.data.length) := length_newcBytes h (by omega)
  have hnameLe : name + namesize ≤ data := le_alignFour (by omega)
  have hdata : data = name + namesize + padding (name + namesize) := alignFour_padding (by omega)
  have hpadding : padding (name + namesize) ≤ 3 := by
    rw [padding]
    omega
  have hdataLe : data + entry.data.length ≤ alignFour (data + entry.data.length) :=
    le_alignFour (by omega)
  -- the parts of the entry and their addresses
  rw [newcBytes] at hstored
  simp only [stores_append, length_header h] at hstored
  obtain ⟨hmagic, hfields, hname, hzero, hpad, hbytes, -⟩ := hstored
  have hnameAt : offset + cpioMagic.length + 104 = name := rfl
  rw [hnameAt] at hname hzero hpad hbytes
  have hdataAt : name + entry.name.length + [(0 : UInt8)].length +
      (zeros (padding (offset + 110 + (entry.name.length + 1)))).length = data := by
    rw [zeros, List.length_replicate, hdata]
    rfl
  rw [hdataAt] at hbytes
  have hencoded : Stores image.bytes name (entry.name ++ [0]) := stores_append.2 ⟨hname, hzero⟩
  refine ⟨hencoded, hbytes, ?_⟩
  have hread : ((List.range 13).mapM fun i => hex8 image.bytes (offset + 6 + i * 8)) =
      some (newcFields ino entry) := mapM_hex8 h.lt hfields
  have hnamesize : (newcFields ino entry).getD 11 0 = namesize := List.length_append
  have hsize' : (newcFields ino entry).getD 6 0 = entry.data.length := rfl
  have hmode : (newcFields ino entry).getD 1 0 = entry.mode := rfl
  have hlinks : (newcFields ino entry).getD 4 0 = 1 := rfl
  have hcheck : (newcFields ino entry).getD 12 0 = 0 := rfl
  have hmagic' : readBytes image.bytes offset 6 = cpioMagic := hmagic.readBytes rfl
  rw [parseEntry, if_neg (not_not.2 hmagic'), hread]
  simp only [hnamesize, hsize', hmode, hlinks, hcheck]
  have hlen : 0 < entry.name.length := List.length_pos_iff.2 hnonempty
  have hmax : vfsPathMax = 128 := rfl
  -- the name passes its checks
  rw [if_neg (show
    ¬ (namesize < 2 ∨ vfsPathMax ≤ namesize ∨ size - name < namesize ∨ 0 ≠ 0) by omega)]
  have hlast : image.bytes (name + namesize - 1) = 0 := hzero 0 Nat.zero_lt_one
  rw [if_neg (not_not.2 hlast)]
  have hinner : anyRange 0 (namesize - 1)
      (fun i => decide (image.bytes (name + i) = 0)) = false := by
    rw [anyRange_eq_false]
    intro i _ hi
    have hi' : i < entry.name.length := hi
    rw [decide_eq_false_iff_not, hname i hi']
    intro hchar
    apply hnul
    rw [← hchar]
    exact List.getElem_mem hi'
  rw [if_neg (by rw [hinner]; exact Bool.false_ne_true),
    if_neg (show ¬ (size < data ∨ size - data < entry.data.length) by omega)]
  -- the comparison with the trailer is one of the names
  have htrailer : (namesize = 11 ∧ readBytes image.bytes name 11 = trailerName ++ [0]) ↔
      entry.name = trailerName := by
    constructor
    · rintro ⟨heleven, hread⟩
      rw [hencoded.readBytes (by rw [List.length_append]; exact heleven.symm)] at hread
      exact List.append_cancel_right hread
    · intro heq
      have heleven : namesize = 11 := by
        change entry.name.length + 1 = 11
        rw [heq]
        rfl
      refine ⟨heleven, ?_⟩
      rw [hencoded.readBytes (by rw [List.length_append]; exact heleven.symm), heq]
  exact if_congr htrailer rfl rfl

end Entry

/-! ## The list of entries -/

/-- The path of the node of an entry. -/
def NewcEntry.path (entry : NewcEntry) : Path := slash :: entry.name

/-- An entry that the reader accepts at some place of a list. -/
structure EntryOk (entry : NewcEntry) : Prop where
  nonempty : entry.name ≠ []
  nul : 0 ∉ entry.name
  length : entry.path.length ≤ 127
  valid : vfsPathValid entry.path = true
  trailer : entry.name ≠ trailerName
  mode : entry.mode < 2 ^ 32
  type : entry.mode &&& modeTypeMask = modeFile ∨
    (entry.mode &&& modeTypeMask = modeDirectory ∧ entry.data = [])

/-- A list of entries with distinct names, in which directories come before what they contain. -/
structure EntriesOk (entries : List NewcEntry) : Prop where
  count : entries.length ≤ 127
  entry : ∀ entry ∈ entries, EntryOk entry
  distinct : (entries.map NewcEntry.name).Nodup
  parent : ∀ i, ∀ h : i < entries.length, ParentOf rootPath entries[i].path ∨
    ∃ directory ∈ entries.take i, directory.mode &&& modeTypeMask = modeDirectory ∧
      ParentOf directory.path entries[i].path

/-- The node is what the entry describes. -/
structure Represents (entry : NewcEntry) (node : VfsNode) : Prop where
  path : node.path = entry.path
  type : node.type = if entry.mode &&& modeTypeMask = modeFile then .file else .directory
  mode : node.mode = entry.mode &&& 0o777
  size : node.size = entry.data.length
  data : Stores node.data.bytes 0 entry.data

/-- What `newc` writes behind `offset`: the entries that are left, and the trailer. -/
def newcTail (offset ino : Nat) : List NewcEntry → List UInt8
  | [] => newcBytes offset ino trailerEntry
  | entry :: rest =>
    newcBytes offset ino entry ++ newcTail (offset + (newcBytes offset ino entry).length)
      (ino + 1) rest

section Entries

variable {entries rest done : List NewcEntry} {entry : NewcEntry} {image : Buffer}
  {nodes : List VfsNode} {size : Nat}

theorem length_le_newcStep (output : List UInt8) (ino : Nat) (entry : NewcEntry) :
    output.length + entry.data.length ≤ (newcStep output ino entry).length := by
  simp only [newcStep, List.length_append]
  omega

/-- The archive is longer than the contents of any entry. -/
theorem length_le_foldl (items : List (NewcEntry × Nat)) (output : List UInt8) :
    output.length ≤ (items.foldl (fun output p => newcStep output p.2 p.1) output).length ∧
      ∀ p ∈ items, p.1.data.length ≤
        (items.foldl (fun output p => newcStep output p.2 p.1) output).length := by
  induction items generalizing output with
  | nil =>
    refine ⟨Nat.le_refl _, fun p hp => ?_⟩
    cases hp
  | cons q items ih =>
    rw [List.foldl_cons]
    have hstep := length_le_newcStep output q.2 q.1
    obtain ⟨hle, hmem⟩ := ih (newcStep output q.2 q.1)
    refine ⟨by omega, List.forall_mem_cons.2 ⟨?_, hmem⟩⟩
    omega

theorem length_le_newc (h : entry ∈ entries) : entry.data.length ≤ (newc entries).length := by
  have hmem : entry ∈ entries ++ [trailerEntry] := List.mem_append_left _ h
  obtain ⟨i, hi, heq⟩ := List.getElem_of_mem hmem
  have hzip : (entry, 1 + i) ∈ (entries ++ [trailerEntry]).zipIdx 1 := by
    rw [List.mk_mem_zipIdx_iff_le_and_getElem?_sub]
    refine ⟨by omega, ?_⟩
    rw [Nat.add_sub_cancel_left, List.getElem?_eq_getElem hi, heq]
  exact (length_le_foldl _ []).2 _ hzip

theorem trailerEntry_fit (h : ino < 16 ^ 8) : FieldsFit ino trailerEntry :=
  ⟨h, by decide, by decide, by decide⟩

/-- The rounds of the writer. -/
theorem foldl_newcStep (hino : ino + rest.length < 16 ^ 8)
    (hfit : ∀ entry ∈ rest, ∀ ino, ino < 16 ^ 8 → FieldsFit ino entry) (output : List UInt8) :
    ((rest ++ [trailerEntry]).zipIdx ino).foldl (fun output p => newcStep output p.2 p.1) output =
      output ++ newcTail output.length ino rest := by
  induction rest generalizing ino output with
  | nil => exact newcStep_eq (trailerEntry_fit (by simpa using hino)) output
  | cons entry rest ih =>
    rw [List.length_cons] at hino
    rw [List.cons_append, List.zipIdx_cons, List.foldl_cons]
    simp only
    rw [newcStep_eq (hfit entry List.mem_cons_self ino (by omega)),
      ih (by omega) fun e he => hfit e (List.mem_cons_of_mem entry he)]
    rw [newcTail, List.length_append, List.append_assoc]

/-- The first character of a name is not a slash. -/
theorem slash_ne_head (h : EntryOk entry) {hpos : 0 < entry.name.length} :
    entry.name[0] ≠ slash := by
  have htext : 0 ∉ entry.path := List.not_mem_cons_of_ne_of_not_mem (by decide) h.nul
  obtain ⟨-, hroot | ⟨names, hne, hnames, hpath⟩⟩ := (vfsPathValid_iff htext).1 h.valid
  · exact absurd (List.cons.inj hroot).2 h.nonempty
  · obtain ⟨name, names, rfl⟩ := List.exists_cons_of_ne_nil hne
    have hname := hnames name List.mem_cons_self
    obtain ⟨c, rest, rfl⟩ := List.exists_cons_of_ne_nil hname.nonempty
    have heq : entry.name = c :: (rest ++ joinNames names) := (List.cons.inj hpath).2
    simp only [heq, List.getElem_cons_zero]
    exact (hname.chars c List.mem_cons_self).2.2.1

/-- The paths of the nodes are those of the entries. -/
theorem mem_nodes_path (h : List.Forall₂ Represents done nodes) {node : VfsNode}
    (hnode : node ∈ nodes) :
    ∃ entry ∈ done, Represents entry node := by
  induction h with
  | nil => cases hnode
  | cons hrep _ ih =>
    rcases List.mem_cons.1 hnode with rfl | hnode
    · exact ⟨_, List.mem_cons_self, hrep⟩
    · obtain ⟨entry, hmem, hrest⟩ := ih hnode
      exact ⟨entry, List.mem_cons_of_mem _ hmem, hrest⟩

theorem exists_node (h : List.Forall₂ Represents done nodes) (hentry : entry ∈ done) :
    ∃ node ∈ nodes, Represents entry node := by
  induction h with
  | nil => cases hentry
  | cons hrep _ ih =>
    rcases List.mem_cons.1 hentry with rfl | hentry
    · exact ⟨_, List.mem_cons_self, hrep⟩
    · obtain ⟨node, hmem, hrest⟩ := ih hentry
      exact ⟨node, List.mem_cons_of_mem _ hmem, hrest⟩

theorem path_ne_root (h : EntryOk entry) : entry.path ≠ rootPath := by
  intro heq
  apply h.nonempty
  exact (List.cons.inj heq).2

/-- A path that a node has is found. -/
theorem ramfsLookup_some {fs : Ramfs} {node : VfsNode} (hlimit : fs.nodes.length ≤ vfsNodeLimit)
    (hvalid : vfsPathValid node.path = true) (hnode : node ∈ fs.nodes) :
    ∃ found ∈ fs.nodes, ramfsLookup fs node.path = some found ∧ found.path = node.path := by
  cases hlookup : ramfsLookup fs node.path with
  | none => exact absurd rfl (ramfsLookup_none hlimit hvalid hlookup node hnode)
  | some found =>
    obtain ⟨hmem, hpath⟩ := ramfsLookup_mem hlookup
    exact ⟨found, hmem, rfl, hpath⟩

section Reader

variable (h : EntriesOk entries) (hsplit : entries = done ++ entry :: rest)
  (hnodes : List.Forall₂ Represents done nodes)

include h hsplit

theorem done_ok : ∀ other ∈ done, EntryOk other := by
  intro other hother
  apply h.entry
  rw [hsplit]
  exact List.mem_append_left _ hother

theorem next_ok : EntryOk entry := by
  apply h.entry
  rw [hsplit]
  exact List.mem_append_right _ List.mem_cons_self

theorem length_done : done.length < 127 := by
  have hcount := h.count
  rw [hsplit, List.length_append, List.length_cons] at hcount
  omega

include hnodes

theorem length_nodes : (rootNode :: nodes).length < vfsNodeLimit := by
  have hlength := length_done h hsplit
  have hlimit : vfsNodeLimit = 128 := rfl
  rw [List.length_cons, ← hnodes.length_eq]
  omega

/-- No node has the path of the next entry. -/
theorem next_path_fresh : ramfsLookup ⟨rootNode :: nodes, false⟩ entry.path = none := by
  rw [Option.eq_none_iff_forall_ne_some]
  intro node hlookup
  obtain ⟨hmem, hpath⟩ := ramfsLookup_mem hlookup
  rcases List.mem_cons.1 hmem with rfl | hmem
  · exact path_ne_root (next_ok h hsplit) hpath.symm
  · obtain ⟨other, hother, hrep⟩ := mem_nodes_path hnodes hmem
    rw [hrep.path] at hpath
    have hname : other.name = entry.name := (List.cons.inj hpath).2
    have hdistinct := h.distinct
    rw [hsplit, List.map_append, List.nodup_append] at hdistinct
    refine hdistinct.2.2 other.name (List.mem_map_of_mem hother) entry.name ?_ hname
    exact List.mem_map_of_mem List.mem_cons_self

/-- A directory that was read is found. -/
theorem ramfsLookup_directory {path : Path}
    (hdirectory : path = rootPath ∨
      ∃ directory ∈ done, directory.mode &&& modeTypeMask = modeDirectory ∧ directory.path = path) :
    ∃ node, ramfsLookup ⟨rootNode :: nodes, false⟩ path = some node ∧ node.type = .directory := by
  have hlimit : (rootNode :: nodes).length ≤ vfsNodeLimit :=
    Nat.le_of_lt (length_nodes h hsplit hnodes)
  rcases hdirectory with rfl | ⟨directory, hmem, htype, rfl⟩
  · refine ⟨rootNode, ?_, rfl⟩
    rw [ramfsLookup, if_neg]
    · exact List.find?_cons_of_pos rfl
    · rintro (hlong | hinvalid)
      · exact Nat.not_lt.2 hlimit hlong
      · exact hinvalid (by decide)
  · obtain ⟨node, hnode, hrep⟩ := exists_node hnodes hmem
    have hvalid : vfsPathValid node.path = true := by
      rw [hrep.path]
      exact (done_ok h hsplit directory hmem).valid
    have hin : node ∈ (⟨rootNode :: nodes, false⟩ : Ramfs).nodes := List.mem_cons_of_mem _ hnode
    obtain ⟨found, hfound, hlookup, hpath⟩ := ramfsLookup_some hlimit hvalid hin
    rw [hrep.path] at hlookup hpath
    refine ⟨found, hlookup, ?_⟩
    rcases List.mem_cons.1 hfound with rfl | hfound
    · rfl
    · -- the entry of the node that was found has the same name, so it is the same entry
      obtain ⟨other, hother, hrep'⟩ := mem_nodes_path hnodes hfound
      rw [hrep'.path] at hpath
      have hname : other.name = directory.name := (List.cons.inj hpath).2
      have hdistinct := h.distinct
      rw [hsplit, List.map_append, List.nodup_append] at hdistinct
      have heq : other = directory := List.inj_on_of_nodup_map hdistinct.1 hother hmem hname
      rw [hrep'.type, heq, htype]
      rfl

/-- The directory of the next entry was read. -/
theorem next_parent_found :
    ∃ node, ramfsLookup ⟨rootNode :: nodes, false⟩ (parentPath entry.path) = some node ∧
      node.type = .directory := by
  apply ramfsLookup_directory h hsplit hnodes
  have hlen : done.length < entries.length := by
    rw [hsplit, List.length_append, List.length_cons]
    omega
  have hentry : entries[done.length] = entry := by
    simp only [hsplit, List.getElem_append_right (Nat.le_refl _), Nat.sub_self,
      List.getElem_cons_zero]
  have htake : entries.take done.length = done := by
    rw [hsplit, List.take_left]
  have hparent := h.parent done.length hlen
  rw [hentry, htake] at hparent
  rcases hparent with hroot | ⟨directory, hmem, htype, hparent⟩
  · left
    exact parentPath_eq hroot rfl (by decide)
  · right
    exact ⟨directory, hmem, htype, (parentPath_eq hparent rfl (List.cons_ne_nil _ _)).symm⟩

/-- The reader makes the node of the next entry. -/
theorem parseNode_next_entry {name data : Nat} (hname : Stores image.bytes name (entry.name ++ [0]))
    (hdata : Stores image.bytes data entry.data) :
    ∃ node, Represents entry node ∧
      parseNode image (rootNode :: nodes) entry.mode 1 entry.data.length name
        (entry.name.length + 1) data =
        some (.entry node (alignFour (data + entry.data.length))) := by
  have hok := next_ok h hsplit
  have hpos : 0 < entry.name.length := List.length_pos_iff.2 hok.nonempty
  have hpath : slash :: readBytes image.bytes name (entry.name.length + 1 - 1) = entry.path := by
    rw [(stores_append.1 hname).1.readBytes (Nat.add_sub_cancel ..)]
    rfl
  obtain ⟨directory, hlookup, htype⟩ := next_parent_found h hsplit hnodes
  have hhead : image.bytes name ≠ slash := by
    have hfirst := (stores_append.1 hname).1 0 hpos
    rw [Nat.add_zero] at hfirst
    rw [hfirst]
    exact slash_ne_head hok
  have hlimit := length_nodes h hsplit hnodes
  refine ⟨⟨entry.path, ⟨image.handle, fun i => image.bytes (data + i)⟩, entry.data.length,
    if entry.mode &&& modeTypeMask = modeFile then .file else .directory, entry.mode &&& 0o777⟩,
    ⟨rfl, rfl, rfl, rfl, ?_⟩, ?_⟩
  · intro i hi
    rw [Nat.zero_add]
    exact hdata i hi
  rw [parseNode]
  simp only [hpath]
  rw [if_neg, if_neg, hlookup]
  · simp only [htype, ne_eq, not_true_eq_false, if_false]
  · rw [not_or, not_not, Option.not_isSome_iff_eq_none]
    exact ⟨hok.valid, next_path_fresh h hsplit hnodes⟩
  · rintro (htypes | hdir | hlinks | hlinks | hcount | hslash)
    · rcases hok.type with hfile | hdir
      · exact htypes.1 hfile
      · exact htypes.2 hdir.1
    · rcases hok.type with hfile | hempty
      · rw [hfile] at hdir
        exact absurd hdir.1 (by decide)
      · rw [hempty.2] at hdir
        exact hdir.2 rfl
    · cases hlinks
    · exact hlinks.2 rfl
    · omega
    · exact hhead hslash

end Reader

/-- The reader ends with the trailer. -/
theorem parseEntry_trailer {offset : Nat} (nodes : List VfsNode) (hino : ino < 16 ^ 8)
    (hstored : Stores image.bytes offset (newcBytes offset ino trailerEntry))
    (hsize : offset + (newcBytes offset ino trailerEntry).length = size)
    (hlimit : size ≤ initramfsLimit) :
    offset + 110 ≤ size ∧ parseEntry image size nodes offset = some .trailer := by
  have hlimit' : initramfsLimit = 4194304 := rfl
  have hfits : FieldsFit ino trailerEntry := trailerEntry_fit hino
  have hlength := length_newcBytes hfits (show offset + 0 + 1000 < 2 ^ 64 by omega)
  obtain ⟨-, -, hentry⟩ := parseEntry_newcBytes nodes hfits (by decide) (by decide) hstored
    (Nat.le_of_eq hsize) hlimit
  have hname : trailerEntry.name.length = 10 := rfl
  have hdata : trailerEntry.data.length = 0 := rfl
  -- the archive ends where the contents of the trailer would start
  have hend : alignFour (offset + 110 + (trailerEntry.name.length + 1)) = size := by
    rw [← hsize, hlength, hdata, hname, Nat.add_zero, alignFour_eq (by omega),
      alignFour_eq (by omega)]
    omega
  have hrest : anyRange (alignFour (offset + 110 + (trailerEntry.name.length + 1))) size
      (fun i => decide (image.bytes i ≠ 0)) = false := by
    rw [hend, anyRange_eq_false]
    omega
  constructor
  · rw [← hend]
    have hle := le_alignFour (x := offset + 110 + (trailerEntry.name.length + 1)) (by omega)
    omega
  · rw [hentry, if_pos (show trailerEntry.name = trailerName from rfl), if_neg]
    rintro (hbytes | hzeros)
    · exact hbytes hdata
    · rw [hrest] at hzeros
      cases hzeros

theorem EntryOk.fit (h : EntryOk entry) (hino : ino < 16 ^ 8)
    (hbytes : entry.data.length < 16 ^ 8) : FieldsFit ino entry := by
  have hmode := h.mode
  have hlength : entry.name.length + 1 ≤ 127 := h.length
  exact ⟨hino, by omega, hbytes, by omega⟩

/-- The loop of the reader over what the writer wrote. -/
theorem parseLoop_newcTail (h : EntriesOk entries) (hlimit : size ≤ initramfsLimit)
    (hbytes : ∀ entry ∈ entries, entry.data.length < 16 ^ 8) (hsplit : entries = done ++ rest)
    (hnodes : List.Forall₂ Represents done nodes) {offset rounds : Nat}
    (hstored : Stores image.bytes offset (newcTail offset (done.length + 1) rest))
    (hsize : offset + (newcTail offset (done.length + 1) rest).length = size)
    (hrounds : size / 110 < rounds + offset / 110) :
    ∃ nodes', parseLoop image size rounds (rootNode :: nodes) offset = some (rootNode :: nodes') ∧
      List.Forall₂ Represents entries nodes' := by
  have hcount := h.count
  have hlimit' : initramfsLimit = 4194304 := rfl
  induction rest generalizing done nodes offset rounds with
  | nil =>
    rw [List.append_nil] at hsplit
    rw [hsplit] at hcount
    rw [newcTail] at hstored hsize
    obtain ⟨hle, hentry⟩ := parseEntry_trailer (rootNode :: nodes) (by omega) hstored hsize hlimit
    obtain ⟨rounds, rfl⟩ : ∃ n, rounds = n + 1 := ⟨rounds - 1, by omega⟩
    refine ⟨nodes, ?_, ?_⟩
    · rw [parseLoop, if_neg (by omega), hentry]
    · rw [hsplit]
      exact hnodes
  | cons entry rest ih =>
    have hok := next_ok h hsplit
    have hdone := length_done h hsplit
    have hfits : FieldsFit (done.length + 1) entry := by
      apply hok.fit (by omega)
      apply hbytes
      rw [hsplit]
      exact List.mem_append_right _ List.mem_cons_self
    have hdata := hfits.bytes
    rw [newcTail] at hstored hsize
    rw [stores_append] at hstored
    rw [List.length_append] at hsize
    have hlength :=
      length_newcBytes hfits (show offset + entry.data.length + 1000 < 2 ^ 64 by omega)
    obtain ⟨hname, hcontents, hentry⟩ := parseEntry_newcBytes (rootNode :: nodes) hfits hok.nonempty
      hok.nul hstored.1 (by omega) hlimit
    obtain ⟨node, hrep, hnode⟩ := parseNode_next_entry h hsplit hnodes hname hcontents
    rw [if_neg hok.trailer, hnode, ← hlength] at hentry
    have hnext := parseEntry_next hlimit (by omega) hentry
    obtain ⟨rounds, rfl⟩ : ∃ n, rounds = n + 1 := ⟨rounds - 1, by omega⟩
    have hnodes' : List.Forall₂ Represents (done ++ [entry]) (nodes ++ [node]) :=
      List.rel_append hnodes (List.Forall₂.cons hrep List.Forall₂.nil)
    have hsplit' : entries = (done ++ [entry]) ++ rest := by
      rw [hsplit, List.append_assoc, List.singleton_append]
    have hino : (done ++ [entry]).length + 1 = done.length + 1 + 1 := by
      rw [List.length_append, List.length_singleton]
    have hrounds' : size / 110 <
        rounds + (offset + (newcBytes offset (done.length + 1) entry).length) / 110 := by omega
    rw [← hino] at hstored hsize
    have hrun := ih hsplit' hnodes' hstored.2 (by omega) hrounds'
    rw [parseLoop, if_neg (by omega), hentry]
    exact hrun

end Entries

/-- What the script writes, the kernel reads: the tree has the root and one node for each entry. -/
theorem ramfsImport_newc {entries : List NewcEntry} (h : EntriesOk entries)
    (hlimit : (newc entries).length ≤ initramfsLimit) {image : Buffer} (himage : image.handle ≠ 0)
    (hbytes : Stores image.bytes 0 (newc entries)) :
    ∃ nodes, ramfsImport .zero image (newc entries).length = (⟨rootNode :: nodes, true⟩, true) ∧
      List.Forall₂ Represents entries nodes := by
  have hcount := h.count
  have hlimit' : initramfsLimit = 4194304 := rfl
  have hlength : ∀ entry ∈ entries, entry.data.length < 16 ^ 8 := by
    intro entry hentry
    have hle := length_le_newc hentry
    omega
  have harchive : newc entries = newcTail 0 1 entries := by
    refine foldl_newcStep (by omega) ?_ []
    intro entry hentry ino hino
    exact (h.entry entry hentry).fit hino (hlength entry hentry)
  have hsize : 0 + (newcTail 0 1 entries).length = (newc entries).length := by
    rw [Nat.zero_add, harchive]
  rw [harchive] at hbytes
  have hrounds : (newc entries).length / 110 < (newc entries).length / 110 + 1 + 0 / 110 := by omega
  obtain ⟨nodes, hrun, hnodes⟩ :=
    parseLoop_newcTail h hlimit hlength rfl List.Forall₂.nil hbytes hsize
    hrounds
  refine ⟨nodes, ?_, hnodes⟩
  rw [ramfsImport, if_neg (by decide), if_neg, parse, hrun]
  rintro (hnull | hlong)
  · exact himage hnull
  · omega

/-- A directory and a file in it. -/
def twoEntries : List NewcEntry :=
  [⟨[100], 0o40755, []⟩, ⟨[100, 47, 102], 0o100644, [7, 8, 9]⟩]

theorem twoEntries_ok : EntriesOk twoEntries := by
  have hroot : ParentOf rootPath [47, 100] := ⟨[100], by decide, Or.inr ⟨rfl, rfl⟩⟩
  have hdirectory : ParentOf [47, 100] [47, 100, 47, 102] := ⟨[102], by decide, Or.inl rfl⟩
  refine ⟨by decide, ?_, by decide, ?_⟩
  · intro entry hentry
    rcases List.mem_cons.1 hentry with rfl | hentry
    · exact ⟨by decide, by decide, by decide, by decide +kernel, by decide, by decide,
        Or.inr ⟨by decide, rfl⟩⟩
    · rw [List.mem_singleton.1 hentry]
      exact ⟨by decide, by decide, by decide, by decide +kernel, by decide, by decide,
        Or.inl (by decide)⟩
  · intro i hi
    match i, hi with
    | 0, _ => exact Or.inl hroot
    | 1, _ => exact Or.inr ⟨_, List.mem_cons_self, by decide, hdirectory⟩

theorem ramfsImport_newc_two :
    (newc twoEntries).length = 356 ∧
      ∃ nodes, ramfsImport .zero ⟨1, fun i => (newc twoEntries).getD i 0⟩ (newc twoEntries).length =
          (⟨rootNode :: nodes, true⟩, true) ∧ List.Forall₂ Represents twoEntries nodes := by
  have hlength : (newc twoEntries).length = 356 := by decide +kernel
  refine ⟨hlength, ramfsImport_newc twoEntries_ok ?_ Nat.one_ne_zero (stores_getD _)⟩
  rw [hlength]
  decide

end Utamo.Vfs
