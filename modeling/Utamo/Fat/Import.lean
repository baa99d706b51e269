import Utamo.Fat.Tree

/-!
# Imported volumes

`fat32_import` on a zeroed structure. It always returns; and if it succeeds, the tree is the reading
of the volume (`fat32_import_sound`), in which no cluster belongs to two chains and every chain is
finite and as long as its file needs (`fat32_import_allocation`).
-/

set_option autoImplicit false

namespace Utamo.Fat

open Lib Lib.ByteMemory Vfs

/-! ## The import up to its end -/

section Volume

variable {v : Volume} {s : Import}

/-- The volume of a disk with a boot sector that passed the checks has sane sizes. -/
theorem sane_of_accepted {disk : ByteMemory} {sectors : Nat} (h : bootAccepted disk sectors) :
    (volumeOf disk).Sane := by
  obtain ⟨-, -, -, hspc, -, -, -, -, -, -, -, -, -, -, -, -, -, -, -, hclusters, -⟩ := h
  exact ⟨hspc, hclusters⟩

/-- The bitmap and node 0. -/
theorem prepareTree_ends (h : Mounted v s) :
    Ends (prepareTree s) (fun _ s' => Mounted v s' ∧ s'.fs.tree.nodes = [diskNode]) Rejects := by
  rw [prepareTree]
  refine .read (.seq (alloc_ends _) ?_)
  rintro claimed ⟨_, host⟩ rfl
  refine .write (.check (fun _ => ?_) fun _ => rfl)
  exact .ok ⟨⟨h.layout, h.visited, h.cache⟩, rfl⟩

/-- What a successful import has found. -/
structure Imported (v : Volume) (s : Import) (chain : List Nat) (items : List TreeItem) : Prop where
  reads : ReadsDirectory v v.boot.rootCluster diskPath chain items
  nodes : s.fs.tree.nodes.map nodeView = nodeView diskNode :: items.map TreeItem.node
  nodup : (chain ++ chainsOf items).Nodup
  mirrors : ∀ cluster ∈ chain ++ chainsOf items, v.Mirrors cluster
  header : v.Mirrors 0
  clusterSize_pos : 0 < v.clusterSize
  covers : ∀ item ∈ items, item.node.type = .file → item.node.size ≠ 0 →
    Covers v item.chain item.node.size

theorem importVolume_ends {device : BlockDevice} (hdevice : s.fs.device = some device)
    (hsize : device.sectorSize = 512) (hvisited : s.fs.visited = 0)
    (hcache : s.fs.cacheValid = false) :
    Ends (importVolume device s) (fun _ s' => ∃ chain items,
      Imported (volumeOf device.content) s' chain items) Rejects := by
  rw [importVolume]
  refine .seq (sector_of_device hdevice hsize 0) ?_
  rintro boot s₁ ⟨hboot, hreads₁⟩
  have hboot' : boot = device.content := by
    rw [hboot]
    funext i
    rw [Nat.zero_mul, Nat.zero_add]
  subst hboot'
  clear hboot
  refine .check (fun haccepted => ?_) fun _ => rfl
  have hv := sane_of_accepted haccepted
  have h₂ : Mounted (volumeOf device.content) (adoptVolume (bootSector device.content) s₁) := by
    have hdevice₁ : s₁.fs.device = s.fs.device := congrArg Layout.device hreads₁.layout
    refine ⟨⟨⟨device, hdevice₁.trans hdevice, hsize, rfl⟩, rfl, rfl, rfl, rfl, rfl, rfl, rfl, rfl,
      rfl⟩, ?_, fun hvalid => ?_⟩
    · exact (hreads₁.visited.trans hvisited).trans_le (Nat.zero_le _)
    · have hinvalid := hreads₁.cacheValid.trans hcache
      cases (Eq.symm hvalid).trans hinvalid
  refine .write (.read (.check (fun _ => ?_) fun _ => rfl))
  refine .seq (entry_ends h₂ 0) ?_
  rintro first s₃ ⟨-, hheader, h₃, -⟩
  refine .seq (entry_ends h₃ 1) ?_
  rintro second s₄ ⟨-, -, h₄, -⟩
  refine .check (fun _ => ?_) fun _ => rfl
  refine .seq (prepareTree_ends h₄) ?_
  rintro _ s₅ ⟨h₅, hnodes₅⟩
  refine .seq (directory_ends hv 9 _ _ _ _ h₅) ?_
  rintro _ s₆ ⟨chain, items, hreads, hgrows⟩
  have hnodes := hgrows.nodes
  rw [hnodes₅] at hnodes
  exact .ok ⟨chain, items, hreads, hnodes, hgrows.progress.nodup, hgrows.progress.mirrors, hheader,
    hv.clusterSize_pos, hgrows.covers⟩

end Volume

/-! ## Whole imports -/

section Import

variable {s s' : Import} {device : BlockDevice} {memory : FatAlloc}

/-- A successful import has found the tree of the volume, and every import returns. -/
theorem fat32Import_spec (hzero : s.fs = .zero) (device : Option BlockDevice)
    (memory : Option FatAlloc) :
    ∃ s' ok, fat32Import s device memory = some (s', ok) ∧ (ok = true → ∃ disk chain items,
      device.map BlockDevice.content = some disk ∧ Imported (volumeOf disk) s' chain items) := by
  cases device with
  | none => exact ⟨s, false, rfl, nofun⟩
  | some device =>
    cases memory with
    | none => exact ⟨s, false, rfl, nofun⟩
    | some memory =>
      rw [fat32Import]
      split
      · exact ⟨s, false, rfl, nofun⟩
      · rename_i hguard
        have hsize : device.sectorSize = 512 := by
          by_contra hne
          exact hguard (Or.inr (Or.inr (Or.inr (Or.inl hne))))
        have hends := importVolume_ends
          (s := { s with fs := { s.fs with device := some device, memory } }) rfl hsize
          (by rw [hzero]; rfl) (by rw [hzero]; rfl)
        generalize importVolume device
          { s with fs := { s.fs with device := some device, memory } } =
          result at hends
        cases hends with
        | ok h =>
          obtain ⟨chain, items, himported⟩ := h
          exact ⟨_, true, rfl, fun _ => ⟨_, chain, items, rfl, himported⟩⟩
        | error h =>
          rw [h]
          exact ⟨_, false, rfl, nofun⟩

/-- A chain that covers a number of bytes has as many clusters as they need. -/
theorem Covers.length_eq {v : Volume} (hv : 0 < v.clusterSize) {chain : List Nat} {bytes : Nat}
    (h : Covers v chain bytes) : chain.length = (bytes + v.clusterSize - 1) / v.clusterSize := by
  obtain ⟨hle, hlt⟩ := h
  refine (Nat.div_eq_of_lt_le ?_ ?_).symm
  · omega
  · rw [Nat.succ_mul]
    omega

/-! ## A small volume -/

/-- The boot sector, one directory entry and a file of two bytes. -/
def tinyDisk : List (Nat × UInt8) :=
  [(12, 2), (13, 1), (14, 1), (16, 2), (21, 0xf8), (32, 0xf6), (33, 0x03), (34, 0x01), (37, 2),
    (44, 2), (510, 0x55), (511, 0xaa), (524800, 97), (524801, 32), (524802, 32), (524803, 32),
    (524804, 32), (524805, 32), (524806, 32), (524807, 32), (524808, 116), (524809, 32),
    (524810, 32), (524811, 0x20), (524826, 3), (524828, 2), (525312, 104), (525313, 105)]

/-- The first entries of both copies of the FAT. -/
def tinyFat : List UInt8 :=
  [0xf8, 0xff, 0xff, 0x0f, 0xff, 0xff, 0xff, 0x0f, 0xff, 0xff, 0xff, 0x0f, 0xff, 0xff, 0xff, 0x0f]

/-- A device with two mirrored copies of the FAT and 65525 clusters of one sector. -/
def tinyDevice : BlockDevice where
  sectors := 66550
  sectorSize := 512
  content := fun a =>
    if 512 ≤ a ∧ a < 524800 then tinyFat.getD (a % 512) 0 else (tinyDisk.lookup a).getD 0
  read := some fun _ => true

def tinyMemory : FatAlloc := ⟨some fun _ _ => some fun _ => 0, true⟩

def tinyImport : Import := ⟨.zero, ⟨[], 0, [], []⟩⟩

theorem tinyImport_nodes : ∃ s', fat32Import tinyImport (some tinyDevice) (some tinyMemory) =
      some (s', true) ∧ s'.fs.tree.nodes.map nodeView = [⟨diskPath, .directory, 0, []⟩,
        ⟨diskPath ++ [47, 65, 46, 84], .file, 2, [104, 105]⟩] := by
  have hvalues : (fat32Import tinyImport (some tinyDevice) (some tinyMemory)).map
      (fun r => (r.2, r.1.fs.tree.nodes.map nodeView)) = some (true, [⟨diskPath, .directory, 0, []⟩,
        ⟨diskPath ++ [47, 65, 46, 84], .file, 2, [104, 105]⟩]) := by decide +kernel
  obtain ⟨⟨s', ok⟩, himport, hvalue⟩ := Option.map_eq_some_iff.1 hvalues
  rw [Prod.mk.injEq] at hvalue
  obtain ⟨rfl, hnodes⟩ := hvalue
  exact ⟨s', himport, hnodes⟩

/-! ## Soundness and allocation -/

/-- A successful import is a sound reading: node 0 is `/disk`, the other nodes are the items of the
volume in depth-first order, with their paths, types, sizes and contents; the copies of the FAT
agree in every sector that was consulted; and the volume has no other reading. -/
theorem fat32_import_sound (hzero : s.fs = .zero)
    (h : fat32Import s (some device) (some memory) = some (s', true)) :
    ∃ chain items,
      ReadsDirectory (volumeOf device.content) (volumeOf device.content).boot.rootCluster diskPath
        chain items ∧
      s'.fs.tree.nodes.map nodeView = ⟨diskPath, .directory, 0, []⟩ :: items.map TreeItem.node ∧
      (∀ cluster ∈ 0 :: (chain ++ chainsOf items), (volumeOf device.content).Mirrors cluster) ∧
      ∀ chain' items', ReadsDirectory (volumeOf device.content)
        (volumeOf device.content).boot.rootCluster diskPath chain' items' →
        chain' = chain ∧ items' = items := by
  obtain ⟨s₁, ok, himport, hspec⟩ := fat32Import_spec hzero (some device) (some memory)
  rw [h] at himport
  cases himport
  obtain ⟨_, chain, items, hdisk, himported⟩ := hspec rfl
  cases hdisk
  refine ⟨chain, items, himported.reads, himported.nodes, fun cluster hmem => ?_,
    fun chain' items' hreads => hreads.unique himported.reads⟩
  rcases List.mem_cons.1 hmem with rfl | hmem
  · exact himported.header
  · exact himported.mirrors cluster hmem

/-- The small volume holds the file `/disk/A.T` and nothing else. -/
theorem fat32_import_sound_tiny : ∃ s' item,
    fat32Import tinyImport (some tinyDevice) (some tinyMemory) = some (s', true) ∧
    (∃ chain, ReadsDirectory (volumeOf tinyDevice.content)
      (volumeOf tinyDevice.content).boot.rootCluster diskPath chain [item]) ∧
    item.node = ⟨diskPath ++ [47, 65, 46, 84], .file, 2, [104, 105]⟩ := by
  obtain ⟨s', himport, hvalue⟩ := tinyImport_nodes
  obtain ⟨chain, items, hreads, hnodes, -, -⟩ := fat32_import_sound rfl himport
  rw [hvalue, List.cons.injEq] at hnodes
  obtain ⟨item, rest, rfl, hitem, hrest⟩ := List.map_eq_cons_iff.1 hnodes.2.symm
  rw [List.map_eq_nil_iff.1 hrest] at hreads
  exact ⟨s', item, himport, ⟨chain, hreads⟩, hitem⟩

/-- Every import returns. After a successful one, the chains of the directories and files are
disjoint, each consists of distinct clusters of the data area and ends in an end-of-chain mark, and
a file has as many clusters as its size needs; and every chain on a live path of the volume ends. -/
theorem fat32_import_allocation (hzero : s.fs = .zero) (device : Option BlockDevice)
    (memory : Option FatAlloc) :
    ∃ s' ok, fat32Import s device memory = some (s', ok) ∧ (ok = true → ∃ disk chain items,
      device.map BlockDevice.content = some disk ∧
      ReadsDirectory (volumeOf disk) (volumeOf disk).boot.rootCluster diskPath chain items ∧
      s'.fs.tree.nodes.map nodeView = nodeView diskNode :: items.map TreeItem.node ∧
      (chain :: items.map TreeItem.chain).flatten.Nodup ∧
      (∀ own ∈ chain :: items.map TreeItem.chain, ∀ cluster ∈ own,
        (volumeOf disk).InRange cluster) ∧
      (volumeOf disk).Chain (volumeOf disk).boot.rootCluster chain ∧
      (∀ item ∈ items, (item.node.type = .file ∧ item.node.size = 0 ∧ item.chain = []) ∨
        ∃ first, (volumeOf disk).Chain first item.chain) ∧
      (∀ item ∈ items, item.node.type = .file → item.node.size ≠ 0 → item.chain.length =
        (item.node.size + (volumeOf disk).clusterSize - 1) / (volumeOf disk).clusterSize) ∧
      ∀ cluster, LiveStart (volumeOf disk) cluster →
        ∃ chain, (volumeOf disk).Chain cluster chain) := by
  obtain ⟨s', ok, himport, hspec⟩ := fat32Import_spec hzero device memory
  refine ⟨s', ok, himport, fun hok => ?_⟩
  obtain ⟨disk, chain, items, hdisk, himported⟩ := hspec hok
  have hreads := himported.reads
  refine ⟨disk, chain, items, hdisk, hreads, himported.nodes, ?_, ?_, hreads.chain, ?_, ?_,
    fun cluster hlive => hlive.chain hreads⟩
  · rw [List.flatten_cons, ← List.flatMap_def]
    exact himported.nodup
  · intro own hown cluster hmem
    rcases List.mem_cons.1 hown with rfl | hown
    · exact hreads.chain.inRange cluster hmem
    · obtain ⟨item, hitem, rfl⟩ := List.mem_map.1 hown
      rcases hreads.item_chain hitem with ⟨-, -, hempty⟩ | ⟨-, first, hchain⟩
      · rw [hempty] at hmem
        cases hmem
      · exact hchain.inRange cluster hmem
  · intro item hitem
    exact (hreads.item_chain hitem).imp id And.right
  · intro item hitem hfile hsize
    exact (himported.covers item hitem hfile hsize).length_eq himported.clusterSize_pos

/-- The file of the small volume has one cluster, and the root directory does not share it. -/
theorem fat32_import_allocation_tiny : ∃ (s' : Import) (chain : List Nat) (item : TreeItem),
    fat32Import tinyImport (some tinyDevice) (some tinyMemory) = some (s', true) ∧
    item.node = ⟨diskPath ++ [47, 65, 46, 84], .file, 2, [104, 105]⟩ ∧
    [chain, item.chain].flatten.Nodup ∧ item.chain.length = 1 := by
  obtain ⟨s', himport, hvalue⟩ := tinyImport_nodes
  obtain ⟨s₁, ok, himport', hspec⟩ :=
    fat32_import_allocation (s := tinyImport) rfl (some tinyDevice) (some tinyMemory)
  rw [himport] at himport'
  cases himport'
  obtain ⟨_, chain, items, hdisk, -, hnodes, hnodup, -, -, -, hlength, -⟩ := hspec rfl
  cases hdisk
  rw [hvalue, List.cons.injEq] at hnodes
  obtain ⟨item, rest, rfl, hitem, hrest⟩ := List.map_eq_cons_iff.1 hnodes.2.symm
  rw [List.map_eq_nil_iff.1 hrest] at hnodup
  have hone := hlength item List.mem_cons_self (by rw [hitem]) (by rw [hitem]; decide)
  refine ⟨s', chain, item, himport, hitem, hnodup, ?_⟩
  rw [hone, hitem]
  decide

end Import

end Utamo.Fat
