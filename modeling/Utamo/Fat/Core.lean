import Utamo.Lib.Bitmap
import Utamo.Lib.Fallible
import Utamo.Lib.Word
import Utamo.Vfs.Core

/-!
# The import of a FAT32 volume

`kernel/fs/fat32.c` and `kernel/drivers/block.c`. The import reads a volume once into a tree of
nodes. A function that returns `false` stops the whole import, so the functions are computations
that may stop with `Stop.rejected`; a loop `for (;;)` that does not end within 16385 rounds stops
with `Stop.endless`.

The device has fixed contents, and any of the calls of its driver may fail. The allocator may fail
at any call, and the storage that it returns has any contents. Storage that was allocated is reached
through one pointer only, so the contents stand with the pointer (`Vfs.Buffer`).
-/

set_option autoImplicit false

namespace Utamo.Fat

open Lib Lib.ByteMemory Vfs

/-- `UTAMO_FAT32_CACHE_MAX` -/
def fat32CacheMax : Nat := 4 * 1024 * 1024

/-- `UTAMO_FAT32_FILE_MAX` -/
def fat32FileMax : Nat := 1024 * 1024

/-- `UTAMO_FAT32_CLUSTER_MAX` -/
def fat32ClusterMax : Nat := 1048576

/-- The first value of an entry of the FAT that ends a chain. -/
def endOfChain : Nat := 0x0ffffff8

/-! ## Device and allocator -/

/-- `struct block_device`: the contents behind the driver, and `read`, which is `NULL` or says which
of the calls of the driver succeed. -/
structure BlockDevice where
  sectors : Nat
  sectorSize : Nat
  content : ByteMemory
  read : Option (Nat → Bool)

/-- `struct fat32_alloc`: `alloc` is `NULL` or says what the calls of the allocator return: `NULL`,
or storage with some contents. -/
structure FatAlloc where
  alloc : Option (Nat → Nat → Option ByteMemory)
  free : Bool

/-- What device and allocator have seen: the sectors that were requested, the number of calls for
storage, the storage that was handed out with its size, and the storage that was freed. -/
structure Host where
  lbas : List Nat
  allocCalls : Nat
  allocated : List (Nat × Nat)
  freed : List Nat

/-- `struct fat32` -/
structure Fat32 where
  tree : Ramfs
  device : Option BlockDevice
  memory : FatAlloc
  claimed : Buffer
  clusters : Nat
  fatStart : Nat
  fatSectors : Nat
  dataStart : Nat
  rootCluster : Nat
  cachedSector : Nat
  visited : Nat
  reads : Nat
  cachedBytes : Nat
  sectorsPerCluster : Nat
  fats : Nat
  activeFat : Nat
  mirrored : Bool
  cacheValid : Bool
  fatCache : ByteMemory

/-- A zeroed `struct fat32`. -/
def Fat32.zero : Fat32 where
  tree := ⟨[], false⟩
  device := none
  memory := ⟨none, false⟩
  claimed := .null
  clusters := 0
  fatStart := 0
  fatSectors := 0
  dataStart := 0
  rootCluster := 0
  cachedSector := 0
  visited := 0
  reads := 0
  cachedBytes := 0
  sectorsPerCluster := 0
  fats := 0
  activeFat := 0
  mirrored := false
  cacheValid := false
  fatCache := fun _ => 0

/-- The state of an import. -/
structure Import where
  fs : Fat32
  host : Host

/-- Write `fs->fat_cache`. -/
def Import.setCache (s : Import) (cache : ByteMemory) : Import :=
  { s with fs := { s.fs with fatCache := cache } }

/-- `fs->cache_valid = true; fs->cached_sector = relative;` -/
def Import.markCache (s : Import) (relative : Nat) : Import :=
  { s with fs := { s.fs with cacheValid := true, cachedSector := relative } }

/-- `++fs->visited` -/
def Import.visit (s : Import) : Import := { s with fs := { s.fs with visited := s.fs.visited + 1 } }

/-- Write `fs->claimed`. -/
def Import.setClaimed (s : Import) (claimed : Buffer) : Import :=
  { s with fs := { s.fs with claimed } }

/-- `fs->cached_bytes += size` -/
def Import.charge (s : Import) (size : Nat) : Import :=
  { s with fs := { s.fs with cachedBytes := s.fs.cachedBytes + size } }

/-- Write the nodes of the tree. -/
def Import.setNodes (s : Import) (nodes : List VfsNode) : Import :=
  { s with fs := { s.fs with tree := { s.fs.tree with nodes } } }

/-- Why an import stops. -/
inductive Stop
  | rejected
  | endless
  deriving DecidableEq, Repr

abbrev FatM := EStateM Stop Import

/-- Return `false` unless `p` holds. -/
abbrev require (p : Prop) [Decidable p] : FatM PUnit := ensure .rejected p

/-- What `block_read` checks before it calls the driver. -/
def blockAdmits (device : BlockDevice) (lba count : Nat) : Prop :=
  count ≠ 0 ∧ device.sectorSize ≠ 0 ∧ count ≤ uint64Max / device.sectorSize ∧
    lba < device.sectors ∧ count ≤ device.sectors - lba

instance (device : BlockDevice) (lba count : Nat) : Decidable (blockAdmits device lba count) :=
  inferInstanceAs (Decidable (_ ∧ _))

/-- `block_read`: the host after the call, and the bytes if the driver delivers them. -/
def blockRead (device : Option BlockDevice) (lba count : Nat) (host : Host) :
    Host × Option ByteMemory :=
  match device with
  | none => (host, none)
  | some device =>
    match device.read with
    | none => (host, none)
    | some answers =>
      if blockAdmits device lba count then
        ({ host with lbas := host.lbas ++ [lba] },
          if answers host.lbas.length then
            some fun i => device.content (lba * device.sectorSize + i)
          else none)
      else (host, none)

/-- `fs->memory.alloc(fs->memory.context, bytes)` -/
def alloc (bytes : Nat) : FatM Buffer := fun s =>
  match s.fs.memory.alloc with
  | none => .ok .null s
  | some answers =>
    let call := s.host.allocCalls + 1
    match answers s.host.allocCalls bytes with
    | none => .ok .null { s with host := { s.host with allocCalls := call } }
    | some contents =>
      .ok ⟨call, contents⟩ { s with host := { s.host with
        allocCalls := call, allocated := s.host.allocated ++ [(call, bytes)] } }

/-! ## Sectors and clusters -/

/-- `get16` -/
def get16 (p : ByteMemory) (offset : Nat) : Nat := loadLe p offset 2

/-- `get32` -/
def get32 (p : ByteMemory) (offset : Nat) : Nat := loadLe p offset 4

/-- `memcmp(left, right, count) == 0` -/
def bytesEqual (left right : ByteMemory) (count : Nat) : Bool :=
  readBytes left 0 count = readBytes right 0 count

/-- `sector` -/
def sector (lba : Nat) : FatM ByteMemory := fun s =>
  let fs := { s.fs with reads := s.fs.reads + 1 }
  if 65536 < fs.reads then .error .rejected ⟨fs, s.host⟩
  else
    match blockRead fs.device lba 1 s.host with
    | (host, some block) => .ok block ⟨fs, host⟩
    | (host, none) => .error .rejected ⟨fs, host⟩

/-- The part of `entry` that brings a sector of the FAT into the cache. -/
def loadFat (relative : Nat) : FatM PUnit := do
  let fs := (← get).fs
  let cache ← sector (fs.fatStart + fs.activeFat * fs.fatSectors + relative)
  modify fun s => s.setCache cache
  if fs.mirrored ∧ fs.fats = 2 then
    let mirror ← sector (fs.fatStart + fs.fatSectors + relative)
    require (bytesEqual mirror cache 512 = true)
    modify fun s => s.markCache relative
  else modify fun s => s.markCache relative

/-- The value that `entry` takes from the cache. -/
def cachedEntry (cluster : Nat) : FatM Nat := do
  let fs := (← get).fs
  return get32 fs.fatCache (cluster % 128 * 4) &&& 0x0fffffff

/-- `entry` -/
def entry (cluster : Nat) : FatM Nat := do
  let fs := (← get).fs
  let relative := cluster / 128
  require (relative < fs.fatSectors)
  if ¬ fs.cacheValid ∨ fs.cachedSector ≠ relative then
    loadFat relative
    cachedEntry cluster
  else cachedEntry cluster

/-- `valid_cluster` -/
def validCluster (fs : Fat32) (cluster : Nat) : Prop := 2 ≤ cluster ∧ cluster - 2 < fs.clusters

instance (fs : Fat32) (cluster : Nat) : Decidable (validCluster fs cluster) :=
  inferInstanceAs (Decidable (_ ∧ _))

/-- `claim` -/
def claim (cluster : Nat) : FatM PUnit := do
  let fs := (← get).fs
  require (validCluster fs cluster)
  modify Import.visit
  require (fs.visited + 1 ≤ 16384)
  let index := cluster - 2
  require (Bitmap.test fs.claimed.bytes 0 index = false)
  modify fun s => s.setClaimed ⟨fs.claimed.handle, Bitmap.set fs.claimed.bytes 0 index true⟩

/-- `cluster_lba` -/
def clusterLba (fs : Fat32) (cluster : Nat) : Nat :=
  fs.dataStart + (cluster - 2) * fs.sectorsPerCluster

/-! ## Short names -/

/-- `' '` -/
def space : UInt8 := 32

/-- The characters that `short_name` refuses although they are printable. -/
def forbidden : List UInt8 :=
  [0x22, 0x2a, 0x2b, 0x2c, 0x2e, 0x2f, 0x3a, 0x3b, 0x3c, 0x3d, 0x3e, 0x3f, 0x5b, 0x5c, 0x5d, 0x7c]

/-- `c >= 'a' && c <= 'z' ? c - ('a' - 'A') : c` -/
def upperCase (c : UInt8) : UInt8 := if 97 ≤ c ∧ c ≤ 122 then c - 32 else c

/-- The variables of `short_name` within a part of the name. -/
structure NameScan where
  out : List UInt8
  padding : Bool
  wrote : Bool

/-- The body of the inner loop of `short_name`. -/
def shortNameChar (raw : ByteMemory) (part i : Nat) (scan : NameScan) : Option NameScan :=
  let c := raw i
  if c = space then some { scan with padding := true }
  else if scan.padding ∨ c < 33 ∨ 126 < c ∨ c ∈ forbidden then none
  else
    let out := if part = 1 ∧ ¬ scan.wrote then scan.out ++ [dot] else scan.out
    some { scan with out := out ++ [upperCase c], wrote := true }

/-- The body of the outer loop of `short_name`. -/
def shortNamePart (raw : ByteMemory) (part first last : Nat) (out : List UInt8) :
    Option (List UInt8) := do
  let scan ← forRangeM first last (shortNameChar raw part) ⟨out, false, false⟩
  if part = 0 ∧ ¬ scan.wrote then none else some scan.out

/-- `short_name` -/
def shortName (raw : ByteMemory) : Option (List UInt8) := do
  let out ← shortNamePart raw 0 0 8 []
  shortNamePart raw 1 8 11 out

/-! ## Files -/

/-- Write the pointer `data` of a node. -/
def Import.setData (s : Import) (index : Nat) (data : Buffer) : Import :=
  s.setNodes (s.fs.tree.nodes.modify index fun node => { node with data })

/-- The loop of `read_file` over the sectors of a cluster from sector `i` on: the variable `copied`
and the contents of `data`. -/
def readSectors (size lba : Nat) : Nat → Nat → Nat → ByteMemory → FatM (Nat × ByteMemory)
  | 0, _, copied, data => return (copied, data)
  | left + 1, i, copied, data =>
    if copied < size then do
      let block ← sector (lba + i)
      let bytes := min (size - copied) 512
      let data := writeBytes data copied (readBytes block 0 bytes)
      readSectors size lba left (i + 1) (copied + bytes) data
    else return (copied, data)

/-- The loop of `read_file` over the clusters: the contents of `data`. -/
def readClusters (size : Nat) : Nat → Nat → Nat → ByteMemory → FatM ByteMemory
  | 0, _, _, _ => throw .endless
  | fuel + 1, cluster, copied, data => do
      claim cluster
      let fs := (← get).fs
      let (copied, data) ← readSectors size (clusterLba fs cluster)
        fs.sectorsPerCluster 0 copied data
      let next ← entry cluster
      if copied = size then do
        require (endOfChain ≤ next)
        return data
      else do
        require (validCluster fs next)
        readClusters size fuel next copied data

/-- The number of rounds that the loops over clusters get. No cluster is claimed twice and at most
16384 are claimed at all. -/
def chainRounds : Nat := 16385

/-- `read_file` for the node at `index`. The storage belongs to the node as soon as it is allocated;
what the loop has written stands there when it returns. -/
def readFile (index size cluster : Nat) : FatM PUnit := do
  if size = 0 then require (cluster = 0)
  else do
    let fs := (← get).fs
    require (size ≤ fat32FileMax ∧ size ≤ fat32CacheMax - fs.cachedBytes)
    let data ← alloc size
    require (data.handle ≠ 0)
    modify fun s => (s.setData index data).charge size
    let bytes ← readClusters size chainRounds cluster 0 data.bytes
    modify fun s => s.setData index ⟨data.handle, bytes⟩

/-! ## Directories -/

/-- The name `.` of a directory entry. -/
def dotName : List UInt8 := dot :: List.replicate 10 space

/-- The name `..` of a directory entry. -/
def dotdotName : List UInt8 := dot :: dot :: List.replicate 9 space

/-- `(uint32_t)get16(e + 26u) | ((uint32_t)get16(e + 20u) << 16u)` -/
def entryCluster (e : ByteMemory) : Nat := get16 e 26 ||| get16 e 20 <<< 16

/-- `get32(e + 28u)` -/
def entrySize (e : ByteMemory) : Nat := get32 e 28

/-- `(e[11] & 16u) != 0u` -/
def entryIsDirectory (e : ByteMemory) : Bool := e 11 &&& 16 ≠ 0

/-- The entries `.` and `..`. -/
def dotEntry (first parent : Nat) (e : ByteMemory) : FatM PUnit := do
  let isDot := readBytes e 0 11 = dotName
  let isDotdot := readBytes e 0 11 = dotdotName
  let expected := if isDot then first else parent
  require ((isDot ∨ isDotdot) ∧ entryIsDirectory e ∧ entrySize e = 0 ∧ entryCluster e = expected)

/-- The node of an entry, before its data is read. -/
def entryNode (path : Path) (name : List UInt8) (e : ByteMemory) : VfsNode where
  path := path ++ slash :: name
  data := .null
  size := entrySize e
  type := if entryIsDirectory e then .directory else .file
  mode := if entryIsDirectory e then 0o40555 else 0o100444

/-- The part of `directory` behind the new node; `descend` is the recursive call. -/
def readNode (descend : Nat → Nat → Path → FatM PUnit) (parent index : Nat) (node : VfsNode)
    (e : ByteMemory) : FatM PUnit :=
  if entryIsDirectory e then descend (entryCluster e) parent node.path
  else readFile index node.size (entryCluster e)

/-- The part of `directory` that adds a node for an entry with its name. -/
def addEntry (descend : Nat → Nat → Path → FatM PUnit) (first : Nat) (path : Path)
    (name : List UInt8) (e : ByteMemory) : FatM PUnit := do
  let fs := (← get).fs
  require (fs.tree.nodes.length ≠ vfsNodeLimit ∧ ¬ (entryIsDirectory e ∧ entrySize e ≠ 0))
  require (path.length + 1 + name.length < vfsPathMax)
  require (vfsPathValid (entryNode path name e).path ∧
    (ramfsLookup fs.tree (entryNode path name e).path).isNone)
  modify fun s => s.setNodes (s.fs.tree.nodes ++ [entryNode path name e])
  readNode descend (if first = fs.rootCluster then 0 else first) fs.tree.nodes.length
    (entryNode path name e) e

/-- The part of `directory` for an entry that is neither a label nor one of `.` and `..`. -/
def namedEntry (descend : Nat → Nat → Path → FatM PUnit) (first : Nat) (path : Path)
    (e : ByteMemory) : FatM PUnit :=
  match shortName e with
  | none => throw .rejected
  | some name => addEntry descend first path name e

/-- The body of the innermost loop of `directory` for an entry that is not the end marker. -/
def directoryEntry (descend : Nat → Nat → Path → FatM PUnit) (first parent : Nat) (path : Path)
    (e : ByteMemory) : FatM PUnit := do
  if e 0 = 0xe5 ∨ e 11 = 0x0f then return
  else do
    require (e 11 &&& 0xc0 = 0)
    -- A volume label is not a file.
    if e 11 &&& 8 ≠ 0 then require (e 11 &&& 16 = 0)
    else if e 0 = dot then dotEntry first parent e
    else namedEntry descend first path e

/-- The loop of `directory` over the entries of a sector from the byte `i` on: whether the end
marker was met. -/
def directoryEntries (descend : Nat → Nat → Path → FatM PUnit) (first parent : Nat) (path : Path)
    (data : ByteMemory) : Nat → Nat → FatM Bool
  | 0, _ => return false
  | left + 1, i =>
    let e : ByteMemory := fun k => data (i + k)
    if e 0 = 0 then return true
    else do
      directoryEntry descend first parent path e
      directoryEntries descend first parent path data left (i + 32)

/-- The loop of `directory` over the sectors of a cluster from sector `i` on. -/
def directorySectors (descend : Nat → Nat → Path → FatM PUnit) (first parent : Nat) (path : Path)
    (lba : Nat) : Nat → Nat → FatM Bool
  | 0, _ => return false
  | left + 1, i => do
      let data ← sector (lba + i)
      let ended ← directoryEntries descend first parent path data 16 0
      if ended then return true
      else directorySectors descend first parent path lba left (i + 1)

/-- The part of `directory` that reads a cluster unless the end marker was met before: whether it
has been met now. -/
def directoryCluster (descend : Nat → Nat → Path → FatM PUnit) (first parent : Nat) (path : Path)
    (fs : Fat32) (cluster : Nat) (ended : Bool) : FatM Bool :=
  if ended then pure true
  else directorySectors descend first parent path (clusterLba fs cluster) fs.sectorsPerCluster 0

/-- The loop of `directory` over the clusters. -/
def directoryClusters (descend : Nat → Nat → Path → FatM PUnit) (first parent : Nat) (path : Path) :
    Nat → Nat → Bool → FatM PUnit
  | 0, _, _ => throw .endless
  | fuel + 1, cluster, ended => do
      claim cluster
      let fs := (← get).fs
      let ended ← directoryCluster descend first parent path fs cluster ended
      let next ← entry cluster
      if endOfChain ≤ next then return
      else do
        require (validCluster fs next)
        directoryClusters descend first parent path fuel next ended

/-- `directory`; instead of `depth` it counts the levels that are left, 9 at depth 0. -/
def directory : Nat → Nat → Nat → Path → FatM PUnit
  | 0, _, _, _ => throw .rejected
  | levels + 1, cluster, parent, path =>
    directoryClusters (directory levels) cluster parent path chainRounds cluster false

/-! ## The volume -/

/-- The fields of the boot sector that the import uses. -/
structure BootSector where
  bytesPerSector : Nat
  sectorsPerCluster : Nat
  reserved : Nat
  fats : Nat
  media : Nat
  total : Nat
  fatSize : Nat
  flags : Nat
  rootCluster : Nat

/-- The boot sector in a block. -/
def bootSector (boot : ByteMemory) : BootSector where
  bytesPerSector := get16 boot 11
  sectorsPerCluster := (boot 13).toNat
  reserved := get16 boot 14
  fats := (boot 16).toNat
  media := (boot 21).toNat
  total := get32 boot 32
  fatSize := get32 boot 36
  flags := get16 boot 40
  rootCluster := get32 boot 44

/-- `overhead` of `fat32_import` -/
def BootSector.overhead (b : BootSector) : Nat := b.reserved + b.fats * b.fatSize

/-- The number of clusters. -/
def BootSector.clusters (b : BootSector) : Nat := (b.total - b.overhead) / b.sectorsPerCluster

/-- `(flags & 0x80u) == 0u` -/
def BootSector.mirrored (b : BootSector) : Bool := b.flags &&& 0x80 = 0

/-- The FAT that is read. -/
def BootSector.activeFat (b : BootSector) : Nat := if b.mirrored then 0 else b.flags &&& 15

/-- The checks of `fat32_import` on the boot sector. -/
def bootAccepted (boot : ByteMemory) (sectors : Nat) : Prop :=
  let b := bootSector boot
  boot 510 = 0x55 ∧ boot 511 = 0xaa ∧ b.bytesPerSector = 512 ∧
    b.sectorsPerCluster ≠ 0 ∧ b.sectorsPerCluster ≤ 128 ∧
    b.sectorsPerCluster &&& (b.sectorsPerCluster - 1) = 0 ∧ b.reserved ≠ 0 ∧
    (b.fats = 1 ∨ b.fats = 2) ∧ get16 boot 17 = 0 ∧ get16 boot 19 = 0 ∧ get16 boot 22 = 0 ∧
    get16 boot 42 = 0 ∧ get32 boot 28 = 0 ∧ 0xf0 ≤ b.media ∧ b.fatSize ≠ 0 ∧
    b.overhead < b.total ∧ b.total ≤ sectors ∧ b.flags &&& 0xff70 = 0 ∧
    65525 ≤ b.clusters ∧ b.clusters ≤ fat32ClusterMax ∧ b.clusters + 2 ≤ b.fatSize * 128 ∧
    b.activeFat < b.fats

instance (boot : ByteMemory) (sectors : Nat) : Decidable (bootAccepted boot sectors) :=
  inferInstanceAs (Decidable (_ ∧ _))

/-- The fields that `fat32_import` takes from the boot sector. -/
def adoptVolume (b : BootSector) (s : Import) : Import :=
  { s with fs := { s.fs with
      clusters := b.clusters, mirrored := b.mirrored, activeFat := b.activeFat
      fatStart := b.reserved, fatSectors := b.fatSize, dataStart := b.overhead
      sectorsPerCluster := b.sectorsPerCluster, fats := b.fats, rootCluster := b.rootCluster } }

/-- `"/disk"` -/
def diskPath : Path := [47, 100, 105, 115, 107]

/-- Node 0 of the tree. -/
def diskNode : VfsNode := ⟨diskPath, .null, 0, .directory, 0o40555⟩

/-- The part of `fat32_import` that prepares the bitmap and the tree. -/
def prepareTree : FatM PUnit := do
  let fs := (← get).fs
  let bitmap := (fs.clusters + 7) / 8
  let claimed ← alloc bitmap
  modify fun s => s.setClaimed claimed
  require (claimed.handle ≠ 0)
  modify fun s => (s.setClaimed ⟨claimed.handle, memset claimed.bytes 0 0 bitmap⟩).setNodes
    [diskNode]

/-- The end of `fat32_import`: the bitmap is freed and the tree is ready. -/
def publishTree (s : Import) : Import :=
  { fs := { s.fs with claimed := .null, tree := { s.fs.tree with ready := true } }
    host := { s.host with freed := s.host.freed ++ [s.fs.claimed.handle] } }

/-- The part of `fat32_import` behind its first checks, up to `fail`. -/
def importVolume (device : BlockDevice) : FatM PUnit := do
  let boot ← sector 0
  require (bootAccepted boot device.sectors)
  let b := bootSector boot
  modify (adoptVolume b)
  let fs := (← get).fs
  require (validCluster fs b.rootCluster)
  let first ← entry 0
  let second ← entry 1
  require (first = 0x0fffff00 ||| b.media ∧ endOfChain ≤ second)
  prepareTree
  directory 9 b.rootCluster 0 diskPath
  modify publishTree

/-- `fat32_discard` -/
def fat32Discard (s : Import) : Import :=
  let freed :=
    if s.fs.memory.free then
      (s.fs.tree.nodes.map fun node => node.data.handle).filter (· ≠ 0) ++
        if s.fs.claimed.handle ≠ 0 then [s.fs.claimed.handle] else []
    else []
  { fs := .zero, host := { s.host with freed := s.host.freed ++ freed } }

/-- `fat32_import`: the state and the result; `none` if it does not return. -/
def fat32Import (s : Import) (device : Option BlockDevice) (memory : Option FatAlloc) :
    Option (Import × Bool) :=
  match device, memory with
  | some device, some memory =>
    if s.fs.tree.nodes.length ≠ 0 ∨ s.fs.tree.ready ∨ s.fs.device.isSome ∨
        device.sectorSize ≠ 512 ∨ memory.alloc.isNone ∨ ¬ memory.free then
      some (s, false)
    else
      match importVolume device { s with fs := { s.fs with device := some device, memory } } with
      | .ok _ s => some (s, true)
      | .error .rejected s => some (fat32Discard s, false)
      | .error .endless _ => none
  | _, _ => some (s, false)

end Utamo.Fat
