import Utamo.Fat.Core

/-!
# What a volume contains

The reading of a FAT32 volume that an import is measured against. It is stated over the bytes of the
disk, without sectors in a cache, claims or limits: the entries of the active FAT, the chain that
starts at a cluster (`Chain`), the live entries of a directory, and the tree below a directory
(`ReadsDirectory`), in depth-first order.

A volume has at most one such reading (`ReadsDirectory.unique`).
-/

set_option autoImplicit false

namespace Utamo.Fat

open Lib Lib.ByteMemory Vfs

/-- A FAT32 volume that starts at the first byte of a disk. -/
structure Volume where
  disk : ByteMemory
  boot : BootSector

/-- The volume that a disk describes in its first sector. -/
def volumeOf (disk : ByteMemory) : Volume := ⟨disk, bootSector disk⟩

namespace Volume

variable (v : Volume)

/-- The number of bytes of a cluster. -/
def clusterSize : Nat := v.boot.sectorsPerCluster * 512

/-- The first byte of a cluster of the data area. -/
def clusterStart (cluster : Nat) : Nat :=
  (v.boot.overhead + (cluster - 2) * v.boot.sectorsPerCluster) * 512

/-- The clusters of the data area. -/
def InRange (cluster : Nat) : Prop := 2 ≤ cluster ∧ cluster < v.boot.clusters + 2

/-- The bytes of a copy of the FAT from its byte `offset` on. -/
def fatByte (copy offset : Nat) : UInt8 :=
  v.disk ((v.boot.reserved + copy * v.boot.fatSize) * 512 + offset)

/-- The entry of the active FAT for a cluster: its lower 28 bits. -/
def next (cluster : Nat) : Nat :=
  loadLe (v.fatByte v.boot.activeFat) (4 * cluster) 4 % 2 ^ 28

/-- The copies of the FAT agree in the sector with the entry of a cluster, if there are two copies
that are kept equal. -/
def Mirrors (cluster : Nat) : Prop :=
  v.boot.mirrored = true → v.boot.fats = 2 →
    ∀ i < 512, v.fatByte 1 (cluster / 128 * 512 + i) = v.fatByte 0 (cluster / 128 * 512 + i)

/-- The chain of clusters that starts at a cluster and ends in an end-of-chain mark. -/
inductive Chain : Nat → List Nat → Prop
  | last {cluster : Nat} : v.InRange cluster → endOfChain ≤ v.next cluster → Chain cluster [cluster]
  | link {cluster : Nat} {rest : List Nat} : v.InRange cluster → v.next cluster < endOfChain →
      Chain (v.next cluster) rest → Chain cluster (cluster :: rest)

/-- The bytes of a cluster. -/
def clusterBytes (cluster : Nat) : List UInt8 :=
  readBytes v.disk (v.clusterStart cluster) v.clusterSize

/-- The bytes of a chain. -/
def chainBytes (chain : List Nat) : List UInt8 := chain.flatMap v.clusterBytes

/-- The positions of the entries of 32 bytes in a cluster. -/
def clusterEntries (cluster : Nat) : List Nat :=
  (List.range (v.boot.sectorsPerCluster * 16)).map fun k => v.clusterStart cluster + 32 * k

/-- The bytes of an entry. -/
def entryAt (position : Nat) : ByteMemory := fun k => v.disk (position + k)

/-- An entry that is a file or a directory: not deleted, no part of a long name, no volume label and
not one of `.` and `..`. -/
def isLive (position : Nat) : Bool :=
  let e := v.entryAt position
  e 0 ≠ 0xe5 ∧ e 11 ≠ 0x0f ∧ e 11 &&& 8 = 0 ∧ e 0 ≠ dot

/-- The live entries of a directory before its first end marker. -/
def liveEntries (chain : List Nat) : List Nat :=
  ((chain.flatMap v.clusterEntries).takeWhile fun position =>
    v.entryAt position 0 ≠ 0).filter v.isLive

end Volume

/-! ## Names -/

/-- The characters of a field of a short name, without the padding, in upper case. -/
def nameField (e : ByteMemory) (offset length : Nat) : List UInt8 :=
  ((readBytes e offset length).takeWhile fun c => c ≠ space).map upperCase

/-- The name of an entry: the base, and the extension behind a dot if there is one. -/
def entryName (e : ByteMemory) : List UInt8 :=
  let extension := nameField e 8 3
  nameField e 0 8 ++ if extension = [] then [] else dot :: extension

/-! ## Trees -/

/-- A node of the tree with its contents. -/
structure TreeNode where
  path : Path
  type : VfsType
  size : Nat
  data : List UInt8
  deriving DecidableEq, Repr

/-- What a node of an imported tree shows. -/
def nodeView (node : VfsNode) : TreeNode :=
  ⟨node.path, node.type, node.size, readBytes node.data.bytes 0 node.size⟩

/-- A node with the chain of clusters that it occupies. -/
structure TreeItem where
  node : TreeNode
  chain : List Nat
  deriving DecidableEq, Repr

/-- The chain of a file: none if the file is empty. -/
inductive FileChain (v : Volume) : Nat → Nat → List Nat → Prop
  | empty : FileChain v 0 0 []
  | chain {size cluster : Nat} {chain : List Nat} : size ≠ 0 → v.Chain cluster chain →
      FileChain v size cluster chain

mutual

/-- The tree below a directory that starts at a cluster: its chain and its items. -/
inductive ReadsDirectory (v : Volume) : Nat → Path → List Nat → List TreeItem → Prop
  | directory {cluster : Nat} {path : Path} {chain : List Nat} {items : List TreeItem} :
      v.Chain cluster chain → ReadsEntries v path (v.liveEntries chain) items →
      ReadsDirectory v cluster path chain items

/-- The items of a list of live entries of a directory. -/
inductive ReadsEntries (v : Volume) : Path → List Nat → List TreeItem → Prop
  | nil {path : Path} : ReadsEntries v path [] []
  | file {path : Path} {position : Nat} {positions chain : List Nat} {items : List TreeItem} :
      entryIsDirectory (v.entryAt position) = false →
      FileChain v (entrySize (v.entryAt position)) (entryCluster (v.entryAt position)) chain →
      ReadsEntries v path positions items →
      ReadsEntries v path (position :: positions)
        (⟨⟨path ++ slash :: entryName (v.entryAt position), .file, entrySize (v.entryAt position),
          (v.chainBytes chain).take (entrySize (v.entryAt position))⟩, chain⟩ :: items)
  | directory {path : Path} {position : Nat} {positions chain : List Nat}
      {children items : List TreeItem} :
      entryIsDirectory (v.entryAt position) = true →
      ReadsDirectory v (entryCluster (v.entryAt position))
        (path ++ slash :: entryName (v.entryAt position)) chain children →
      ReadsEntries v path positions items →
      ReadsEntries v path (position :: positions)
        (⟨⟨path ++ slash :: entryName (v.entryAt position), .directory,
          entrySize (v.entryAt position), []⟩, chain⟩ :: (children ++ items))

end

/-- The directories on live paths: the root, and the directories among the live entries of one. -/
inductive LiveDirectory (v : Volume) : Nat → Prop
  | root : LiveDirectory v v.boot.rootCluster
  | child {cluster position : Nat} {chain : List Nat} : LiveDirectory v cluster →
      v.Chain cluster chain → position ∈ v.liveEntries chain →
      entryIsDirectory (v.entryAt position) = true →
      LiveDirectory v (entryCluster (v.entryAt position))

/-- The clusters at which a chain of a live path starts: that of a directory, or that of a file that
is not empty. -/
inductive LiveStart (v : Volume) : Nat → Prop
  | directory {cluster : Nat} : LiveDirectory v cluster → LiveStart v cluster
  | file {cluster position : Nat} {chain : List Nat} : LiveDirectory v cluster →
      v.Chain cluster chain → position ∈ v.liveEntries chain →
      entryIsDirectory (v.entryAt position) = false → entrySize (v.entryAt position) ≠ 0 →
      LiveStart v (entryCluster (v.entryAt position))

/-! ## Uniqueness -/

section Unique

variable {v : Volume} {cluster size : Nat} {chain chain' : List Nat}

theorem Volume.Chain.unique (h : v.Chain cluster chain) (h' : v.Chain cluster chain') :
    chain = chain' := by
  induction h generalizing chain' with
  | last _ hend =>
    cases h' with
    | last => rfl
    | link _ hlink => exact absurd hend (Nat.not_le_of_lt hlink)
  | link _ hlink _ ih =>
    cases h' with
    | last _ hend => exact absurd hend (Nat.not_le_of_lt hlink)
    | link _ _ hrest => rw [ih hrest]

theorem FileChain.unique (h : FileChain v size cluster chain)
    (h' : FileChain v size cluster chain') :
    chain = chain' := by
  cases h with
  | empty =>
    cases h' with
    | empty => rfl
    | chain hne => exact absurd rfl hne
  | chain hne hchain =>
    cases h' with
    | empty => exact absurd rfl hne
    | chain _ hchain' => exact hchain.unique hchain'

mutual

/-- A volume has one reading at most. -/
theorem ReadsDirectory.unique {cluster : Nat} {path : Path} {chain chain' : List Nat}
    {items items' : List TreeItem} :
    ReadsDirectory v cluster path chain items → ReadsDirectory v cluster path chain' items' →
      chain = chain' ∧ items = items'
  | .directory hchain hentries, .directory hchain' hentries' => by
      obtain rfl := hchain.unique hchain'
      exact ⟨rfl, hentries.unique hentries'⟩

theorem ReadsEntries.unique {path : Path} {positions : List Nat} {items items' : List TreeItem} :
    ReadsEntries v path positions items → ReadsEntries v path positions items' → items = items'
  | .nil, .nil => rfl
  | .file _ hchain hrest, .file _ hchain' hrest' => by
      rw [hchain.unique hchain', hrest.unique hrest']
  | .file hfile _ _, .directory hdir _ _ => by
      rw [hfile] at hdir
      cases hdir
  | .directory hdir _ _, .file hfile _ _ => by
      rw [hfile] at hdir
      cases hdir
  | .directory _ hchildren hrest, .directory _ hchildren' hrest' => by
      obtain ⟨hchain, hitems⟩ := hchildren.unique hchildren'
      rw [hchain, hitems, hrest.unique hrest']

end

end Unique

/-! ## Chains of a reading -/

section Chains

variable {v : Volume}

theorem Volume.Chain.inRange {cluster : Nat} {chain : List Nat} (h : v.Chain cluster chain) :
    ∀ c ∈ chain, v.InRange c := by
  induction h with
  | last hin _ => exact List.forall_mem_singleton.2 hin
  | link hin _ _ ih => exact List.forall_mem_cons.2 ⟨hin, ih⟩

theorem FileChain.chain_of_ne {size cluster : Nat} {chain : List Nat}
    (h : FileChain v size cluster chain) (hsize : size ≠ 0) : v.Chain cluster chain := by
  cases h with
  | empty => exact absurd rfl hsize
  | chain _ hchain => exact hchain

theorem FileChain.eq_nil {size cluster : Nat} {chain : List Nat}
    (h : FileChain v size cluster chain) (hsize : size = 0) : chain = [] := by
  cases h with
  | empty => rfl
  | chain hne _ => exact absurd hsize hne

theorem ReadsDirectory.chain {cluster : Nat} {path : Path} {chain : List Nat}
    {items : List TreeItem} :
    ReadsDirectory v cluster path chain items → v.Chain cluster chain
  | .directory hchain _ => hchain

theorem ReadsDirectory.entries {cluster : Nat} {path : Path} {chain : List Nat}
    {items : List TreeItem} :
    ReadsDirectory v cluster path chain items → ReadsEntries v path (v.liveEntries chain) items
  | .directory _ hentries => hentries

/-- What a live entry stands for is part of the reading. -/
theorem ReadsEntries.read {path : Path} {positions : List Nat} {items : List TreeItem}
    {position : Nat} :
    ReadsEntries v path positions items → position ∈ positions →
      (entryIsDirectory (v.entryAt position) = false ∧ ∃ chain,
        FileChain v (entrySize (v.entryAt position)) (entryCluster (v.entryAt position)) chain) ∨
      (entryIsDirectory (v.entryAt position) = true ∧ ∃ path chain items,
        ReadsDirectory v (entryCluster (v.entryAt position)) path chain items)
  | .file hfile hchain hrest, hmem => by
      rcases List.mem_cons.1 hmem with rfl | hmem
      · exact Or.inl ⟨hfile, _, hchain⟩
      · exact hrest.read hmem
  | .directory hdir hchildren hrest, hmem => by
      rcases List.mem_cons.1 hmem with rfl | hmem
      · exact Or.inr ⟨hdir, _, _, _, hchildren⟩
      · exact hrest.read hmem

mutual

/-- The chain of an item: a chain of the volume, or none for an empty file. -/
theorem ReadsDirectory.item_chain {cluster : Nat} {path : Path} {chain : List Nat}
    {items : List TreeItem} {item : TreeItem} :
    ReadsDirectory v cluster path chain items → item ∈ items →
      (item.node.type = .file ∧ item.node.size = 0 ∧ item.chain = []) ∨
      ((item.node.type = .file → item.node.size ≠ 0) ∧ ∃ first, v.Chain first item.chain)
  | .directory _ hentries, hmem => hentries.item_chain hmem

theorem ReadsEntries.item_chain {path : Path} {positions : List Nat} {items : List TreeItem}
    {item : TreeItem} :
    ReadsEntries v path positions items → item ∈ items →
      (item.node.type = .file ∧ item.node.size = 0 ∧ item.chain = []) ∨
      ((item.node.type = .file → item.node.size ≠ 0) ∧ ∃ first, v.Chain first item.chain)
  | .file _ hchain hrest, hmem => by
      rcases List.mem_cons.1 hmem with rfl | hmem
      · rcases Nat.eq_zero_or_pos (entrySize _) with hsize | hsize
        · exact Or.inl ⟨rfl, hsize, hchain.eq_nil hsize⟩
        · have hne := Nat.ne_of_gt hsize
          exact Or.inr ⟨fun _ => hne, _, hchain.chain_of_ne hne⟩
      · exact hrest.item_chain hmem
  | .directory _ hchildren hrest, hmem => by
      rcases List.mem_cons.1 hmem with rfl | hmem
      · exact Or.inr ⟨nofun, _, hchildren.chain⟩
      · rcases List.mem_append.1 hmem with hmem | hmem
        · exact hchildren.item_chain hmem
        · exact hrest.item_chain hmem

end

/-- In a volume with a reading, every directory on a live path has one. -/
theorem LiveDirectory.reads {path : Path} {chain : List Nat} {items : List TreeItem}
    (h : ReadsDirectory v v.boot.rootCluster path chain items) {cluster : Nat}
    (hlive : LiveDirectory v cluster) :
    ∃ path chain items, ReadsDirectory v cluster path chain items := by
  induction hlive with
  | root => exact ⟨path, chain, items, h⟩
  | child _ hchain hmem hdir ih =>
    obtain ⟨path', chain', items', hreads⟩ := ih
    rw [hchain.unique hreads.chain] at hmem
    rcases hreads.entries.read hmem with ⟨hfile, -⟩ | ⟨-, hchild⟩
    · rw [hdir] at hfile
      cases hfile
    · exact hchild

/-- In a volume with a reading, every chain on a live path ends. -/
theorem LiveStart.chain {path : Path} {chain : List Nat} {items : List TreeItem}
    (h : ReadsDirectory v v.boot.rootCluster path chain items) {cluster : Nat}
    (hlive : LiveStart v cluster) : ∃ chain, v.Chain cluster chain := by
  cases hlive with
  | directory hlive =>
    obtain ⟨path', chain', items', hreads⟩ := hlive.reads h
    exact ⟨chain', hreads.chain⟩
  | file hlive hchain hmem hfile hsize =>
    obtain ⟨path', chain', items', hreads⟩ := hlive.reads h
    rw [hchain.unique hreads.chain] at hmem
    rcases hreads.entries.read hmem with ⟨-, chain'', hfileChain⟩ | ⟨hdir, -⟩
    · exact ⟨chain'', hfileChain.chain_of_ne hsize⟩
    · rw [hfile] at hdir
      cases hdir

end Chains

end Utamo.Fat
