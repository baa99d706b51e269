import Utamo.Fat.Volume

/-!
# The import reads the volume

Each function of the import is specified by `Ends`: what it returns is what the volume contains, and
it stops in no other way than by rejecting. `Mounted` says that the fields of the import describe
the volume and that the sector in the cache is a sector of its FAT; `Progress` says which clusters
were claimed. The specification of `directory` is by recursion on the levels, and within a level by
induction on the clusters, sectors and entries.
-/

set_option autoImplicit false

namespace Utamo.Fat

open Lib Lib.ByteMemory Vfs

variable {cluster copied : Nat}

/-! ## Sizes -/

/-- The sizes of a volume that passed the checks. -/
structure Volume.Sane (v : Volume) : Prop where
  sectorsPerCluster : v.boot.sectorsPerCluster ≠ 0
  clusters : v.boot.clusters ≤ fat32ClusterMax

section Sizes

variable {v : Volume}

theorem Volume.Sane.clusterSize_pos (h : v.Sane) : 0 < v.clusterSize := by
  have hspc := h.sectorsPerCluster
  rw [Volume.clusterSize]
  omega

/-- No cluster of the data area is an end-of-chain mark. -/
theorem Volume.Sane.inRange_lt (h : v.Sane) (hin : v.InRange cluster) :
    cluster < endOfChain := by
  have hclusters := h.clusters
  have hlt := hin.2
  rw [fat32ClusterMax] at hclusters
  rw [endOfChain]
  omega

end Sizes

/-! ## The fields of an import -/

/-- The fields that describe the volume. -/
structure Layout where
  device : Option BlockDevice
  clusters : Nat
  fatStart : Nat
  fatSectors : Nat
  dataStart : Nat
  rootCluster : Nat
  sectorsPerCluster : Nat
  fats : Nat
  activeFat : Nat
  mirrored : Bool

/-- The description of the volume in an import. -/
def Fat32.layout (fs : Fat32) : Layout :=
  ⟨fs.device, fs.clusters, fs.fatStart, fs.fatSectors, fs.dataStart, fs.rootCluster,
    fs.sectorsPerCluster, fs.fats, fs.activeFat, fs.mirrored⟩

/-- A description that is right. -/
structure Describes (v : Volume) (l : Layout) : Prop where
  device : ∃ device, l.device = some device ∧ device.sectorSize = 512 ∧ device.content = v.disk
  clusters : l.clusters = v.boot.clusters
  fatStart : l.fatStart = v.boot.reserved
  fatSectors : l.fatSectors = v.boot.fatSize
  dataStart : l.dataStart = v.boot.overhead
  rootCluster : l.rootCluster = v.boot.rootCluster
  sectorsPerCluster : l.sectorsPerCluster = v.boot.sectorsPerCluster
  fats : l.fats = v.boot.fats
  activeFat : l.activeFat = v.boot.activeFat
  mirrored : l.mirrored = v.boot.mirrored

/-- A sector of the FAT in a block, with its mirror. -/
structure FatSector (v : Volume) (relative : Nat) (block : ByteMemory) : Prop where
  bytes : ∀ i < 512, block i = v.fatByte v.boot.activeFat (relative * 512 + i)
  mirrors : v.boot.mirrored = true → v.boot.fats = 2 →
    ∀ i < 512, v.fatByte 1 (relative * 512 + i) = v.fatByte 0 (relative * 512 + i)

/-- The fields of an import between two steps. -/
structure Mounted (v : Volume) (s : Import) : Prop where
  layout : Describes v s.fs.layout
  visited : s.fs.visited ≤ 16384
  cache : s.fs.cacheValid = true → FatSector v s.fs.cachedSector s.fs.fatCache

/-- What the steps that only read leave alone. -/
structure Kept (s s' : Import) : Prop where
  tree : s'.fs.tree = s.fs.tree
  claimed : s'.fs.claimed = s.fs.claimed
  visited : s'.fs.visited = s.fs.visited

theorem Kept.refl (s : Import) : Kept s s := ⟨rfl, rfl, rfl⟩

theorem Kept.trans {s s' s'' : Import} (h : Kept s s') (h' : Kept s' s'') : Kept s s'' :=
  ⟨h'.tree.trans h.tree, h'.claimed.trans h.claimed, h'.visited.trans h.visited⟩

/-- A step that reads a sector. -/
structure Reads (s s' : Import) : Prop extends Kept s s' where
  layout : s'.fs.layout = s.fs.layout
  cacheValid : s'.fs.cacheValid = s.fs.cacheValid
  cachedSector : s'.fs.cachedSector = s.fs.cachedSector
  fatCache : s'.fs.fatCache = s.fs.fatCache

/-- The only way in which the functions of the import stop. -/
def Rejects (e : Stop) (_ : Import) : Prop := e = .rejected

/-! ## Sectors -/

section Sectors

variable {v : Volume} {s s' : Import}

theorem bytesEqual_iff {left right : ByteMemory} {count : Nat} :
    bytesEqual left right count = true ↔ ∀ i < count, left i = right i := by
  rw [bytesEqual, decide_eq_true_eq, readBytes, readBytes, List.map_inj_left]
  simp only [List.mem_range, Nat.zero_add]

/-- `block_read` of one sector delivers its bytes or nothing. -/
theorem blockRead_eq {device : BlockDevice} {lba : Nat} {host host' : Host} {block : ByteMemory}
    (h : blockRead (some device) lba 1 host = (host', some block)) :
    block = fun i => device.content (lba * device.sectorSize + i) := by
  rw [blockRead] at h
  split at h
  · cases h
  · split at h
    · split at h
      · cases h
        rfl
      · cases h
    · cases h

theorem sector_of_device {device : BlockDevice} (hdevice : s.fs.device = some device)
    (hsize : device.sectorSize = 512) (lba : Nat) :
    Ends (sector lba s) (fun block s' => block = (fun i => device.content (lba * 512 + i)) ∧
      Reads s s') Rejects := by
  rw [sector]
  dsimp only
  split
  · exact .error rfl
  · split
    · rename_i host block hread
      rw [hdevice] at hread
      refine .ok ⟨?_, ⟨rfl, rfl, rfl⟩, rfl, rfl, rfl, rfl⟩
      rw [blockRead_eq hread, hsize]
    · exact .error rfl

theorem sector_ends (h : Describes v s.fs.layout) (lba : Nat) :
    Ends (sector lba s) (fun block s' => block = (fun i => v.disk (lba * 512 + i)) ∧ Reads s s')
      Rejects := by
  obtain ⟨device, hdevice, hsize, hcontent⟩ := h.device
  rw [← hcontent]
  exact sector_of_device hdevice hsize lba

theorem Mounted.reads (h : Mounted v s) (hreads : Reads s s') : Mounted v s' ∧ Kept s s' := by
  refine ⟨⟨?_, ?_, fun hvalid => ?_⟩, hreads.tree, hreads.claimed, hreads.visited⟩
  · rw [hreads.layout]
    exact h.layout
  · rw [hreads.visited]
    exact h.visited
  · rw [hreads.cachedSector, hreads.fatCache]
    rw [hreads.cacheValid] at hvalid
    exact h.cache hvalid

/-- Reading a sector between two steps. -/
theorem Mounted.sector_ends (h : Mounted v s) (lba : Nat) :
    Ends (sector lba s) (fun block s' => block = (fun i => v.disk (lba * 512 + i)) ∧
      Mounted v s' ∧ Kept s s') Rejects := by
  refine (Utamo.Fat.sector_ends h.layout lba).mono ?_ fun _ _ he => he
  rintro block s' ⟨hblock, hreads⟩
  exact ⟨hblock, h.reads hreads⟩

/-- The sector of the FAT with its mirror, as `entry` brings it into the cache. -/
theorem loadFat_ends (h : Mounted v s) (relative : Nat) :
    Ends (loadFat relative s) (fun _ s' => Mounted v s' ∧ Kept s s' ∧ s'.fs.cacheValid = true ∧
      s'.fs.cachedSector = relative) Rejects := by
  have hstart : s.fs.fatStart = v.boot.reserved := h.layout.fatStart
  have hsectors : s.fs.fatSectors = v.boot.fatSize := h.layout.fatSectors
  have hactive : s.fs.activeFat = v.boot.activeFat := h.layout.activeFat
  have hmirrored : s.fs.mirrored = v.boot.mirrored := h.layout.mirrored
  have hfats : s.fs.fats = v.boot.fats := h.layout.fats
  rw [loadFat]
  refine .read ?_
  refine .seq (sector_ends h.layout _) ?_
  rintro cache s₁ ⟨hcache, h₁⟩
  refine .write ?_
  have hlayout₁ : Describes v (s₁.setCache cache).fs.layout := by
    have hsame : (s₁.setCache cache).fs.layout = s.fs.layout := h₁.layout
    rw [hsame]
    exact h.layout
  have hbytes : ∀ i < 512, cache i = v.fatByte v.boot.activeFat (relative * 512 + i) := by
    intro i _
    have hat : (s.fs.fatStart + s.fs.activeFat * s.fs.fatSectors + relative) * 512 + i =
        (v.boot.reserved + v.boot.activeFat * v.boot.fatSize) * 512 + (relative * 512 + i) := by
      rw [hstart, hactive, hsectors]
      ring
    rw [hcache]
    exact congrArg v.disk hat
  split
  · refine .seq (sector_ends hlayout₁ _) ?_
    rintro mirror s₂ ⟨hmirror, h₂⟩
    refine .check (fun hequal => ?_) fun _ => rfl
    have hsector : FatSector v relative cache := by
      refine ⟨hbytes, fun hmir _ i hi => ?_⟩
      -- A volume with mirrored copies reads copy 0.
      have hzero : v.boot.activeFat = 0 := by
        rw [BootSector.activeFat, if_pos hmir]
      have hat : (s.fs.fatStart + s.fs.fatSectors + relative) * 512 + i =
          (v.boot.reserved + 1 * v.boot.fatSize) * 512 + (relative * 512 + i) := by
        rw [hstart, hsectors]
        ring
      have hcopy : mirror i = v.fatByte 1 (relative * 512 + i) := by
        rw [hmirror]
        exact congrArg v.disk hat
      rw [← hcopy, (bytesEqual_iff.1 hequal) i hi, hbytes i hi, hzero]
    have hlayout : Describes v s₂.fs.layout := by
      rw [h₂.layout]
      exact hlayout₁
    have hvisited : s₂.fs.visited = s.fs.visited := h₂.visited.trans h₁.visited
    refine .ok ⟨⟨hlayout, hvisited.trans_le h.visited, fun _ => ?_⟩, ⟨?_, ?_, hvisited⟩, rfl, rfl⟩
    · have hcached : (s₂.markCache relative).fs.fatCache = cache := h₂.fatCache
      rw [hcached]
      exact hsector
    · exact h₂.tree.trans h₁.tree
    · exact h₂.claimed.trans h₁.claimed
  · rename_i hnot
    refine .ok ⟨⟨hlayout₁, h₁.visited.trans_le h.visited, fun _ => ⟨hbytes, fun hmir hfat => ?_⟩⟩,
      ⟨h₁.tree, h₁.claimed, h₁.visited⟩, rfl, rfl⟩
    · rw [hmirrored, hfats] at hnot
      exact absurd ⟨hmir, hfat⟩ hnot

/-- The entry of a cluster in a block with its sector of the FAT. -/
theorem FatSector.entry {block : ByteMemory} (h : FatSector v (cluster / 128) block) :
    get32 block (cluster % 128 * 4) &&& 0x0fffffff = v.next cluster ∧ v.Mirrors cluster := by
  refine ⟨?_, h.mirrors⟩
  have hmask : (0x0fffffff : Nat) = 2 ^ 28 - 1 := by decide
  rw [Volume.next, hmask, Nat.and_two_pow_sub_one_eq_mod]
  refine congrArg (· % 2 ^ 28) (loadLe_eq_of fun i hi => ?_)
  have hin : cluster % 128 * 4 + i < 512 := by omega
  have hat : cluster / 128 * 512 + (cluster % 128 * 4 + i) = 4 * cluster + i := by omega
  rw [h.bytes _ hin, hat]

/-- `entry` returns the entry of the active FAT. -/
theorem entry_ends (h : Mounted v s) (cluster : Nat) :
    Ends (entry cluster s) (fun next s' => next = v.next cluster ∧ v.Mirrors cluster ∧
      Mounted v s' ∧ Kept s s') Rejects := by
  have hcached : ∀ t, Mounted v t → Kept s t → t.fs.cacheValid = true →
      t.fs.cachedSector = cluster / 128 →
      Ends (cachedEntry cluster t) (fun next s' => next = v.next cluster ∧ v.Mirrors cluster ∧
        Mounted v s' ∧ Kept s s') Rejects := by
    intro t ht hkept hvalid hsector
    have hblock := ht.cache hvalid
    rw [hsector] at hblock
    obtain ⟨hnext, hmirrors⟩ := hblock.entry
    exact .read (.pure ⟨hnext, hmirrors, ht, hkept⟩)
  rw [entry]
  refine .read (.check (fun _ => ?_) fun _ => rfl)
  split
  · refine .seq (loadFat_ends h _) ?_
    rintro _ s₁ ⟨h₁, hkept, hvalid, hsector⟩
    exact hcached s₁ h₁ hkept hvalid hsector
  · rename_i hhit
    rw [not_or, not_not, not_not] at hhit
    exact hcached s h (.refl s) hhit.1 hhit.2

end Sectors

/-! ## Claims -/

section Claims

variable {v : Volume} {s s' s'' : Import} {claims claims' : List Nat}

/-- The clusters that were claimed. -/
def claimedSet (s : Import) : Set Nat :=
  {cluster | 2 ≤ cluster ∧ Bitmap.test s.fs.claimed.bytes 0 (cluster - 2) = true}

theorem inRange_iff (h : Mounted v s) :
    validCluster s.fs cluster ↔ v.InRange cluster := by
  have hclusters : s.fs.clusters = v.boot.clusters := h.layout.clusters
  rw [validCluster, Volume.InRange, hclusters]
  omega

/-- A cluster of the data area that nobody had taken is taken. -/
structure Claimed (v : Volume) (s s' : Import) (cluster : Nat) : Prop where
  inRange : v.InRange cluster
  fresh : cluster ∉ claimedSet s
  claimed : claimedSet s' = insert cluster (claimedSet s)
  visited : s'.fs.visited = s.fs.visited + 1
  tree : s'.fs.tree = s.fs.tree
  mounted : Mounted v s'

theorem claim_ends (h : Mounted v s) (cluster : Nat) :
    Ends (claim cluster s) (fun _ s' => Claimed v s s' cluster) Rejects := by
  rw [claim]
  refine .read (.check (fun hvalid => ?_) fun _ => rfl)
  refine .write (.check (fun hvisited => ?_) fun _ => rfl)
  refine .check (fun hfree => ?_) fun _ => rfl
  refine .ok ⟨(inRange_iff h).1 hvalid, fun hmem => ?_, ?_, rfl, rfl, h.layout, hvisited, h.cache⟩
  · rw [hmem.2] at hfree
    cases hfree
  · ext c
    change (2 ≤ c ∧ Bitmap.test (Bitmap.set s.fs.claimed.bytes 0 (cluster - 2) true) 0 (c - 2) =
      true) ↔
      c = cluster ∨ c ∈ claimedSet s
    by_cases hc : c = cluster
    · rw [hc, Bitmap.test_set_self]
      exact ⟨fun _ => Or.inl rfl, fun _ => ⟨hvalid.1, rfl⟩⟩
    · refine ⟨fun hmem => Or.inr ⟨hmem.1, ?_⟩, fun hmem => ?_⟩
      · have hne : cluster - 2 ≠ c - 2 := by
          have hle := hvalid.1
          have hle' := hmem.1
          omega
        rw [← hmem.2, Bitmap.test_set_of_ne hne]
      · obtain ⟨hle', htest⟩ := hmem.resolve_left hc
        have hne : cluster - 2 ≠ c - 2 := by
          have hle := hvalid.1
          omega
        exact ⟨hle', by rw [Bitmap.test_set_of_ne hne]; exact htest⟩

/-- The clusters that a part of the import claims, in some order: all of them were free, all are in
the data area, and the FAT was consulted for each of them. -/
structure Progress (v : Volume) (s s' : Import) (claims : List Nat) : Prop where
  mounted : Mounted v s'
  nodup : claims.Nodup
  fresh : ∀ c ∈ claims, c ∉ claimedSet s
  claimed : claimedSet s' = claimedSet s ∪ {c | c ∈ claims}
  visited : s'.fs.visited = s.fs.visited + claims.length
  mirrors : ∀ c ∈ claims, v.Mirrors c

theorem Progress.nil (h : Mounted v s') (hclaimed : s'.fs.claimed = s.fs.claimed)
    (hvisited : s'.fs.visited = s.fs.visited) : Progress v s s' [] := by
  refine ⟨h, List.nodup_nil, nofun, ?_, hvisited, nofun⟩
  rw [claimedSet, claimedSet, hclaimed]
  simp

theorem Progress.kept (h : Mounted v s') (hkept : Kept s s') : Progress v s s' [] :=
  .nil h hkept.claimed hkept.visited

theorem Progress.trans (h : Progress v s s' claims) (h' : Progress v s' s'' claims') :
    Progress v s s'' (claims ++ claims') := by
  refine ⟨h'.mounted, ?_, ?_, ?_, ?_, ?_⟩
  · refine List.nodup_append.2 ⟨h.nodup, h'.nodup, ?_⟩
    rintro c hc _ hc' rfl
    refine h'.fresh c hc' ?_
    rw [h.claimed]
    exact Or.inr hc
  · refine List.forall_mem_append.2 ⟨h.fresh, fun c hc hmem => h'.fresh c hc ?_⟩
    rw [h.claimed]
    exact Or.inl hmem
  · rw [h'.claimed, h.claimed, Set.union_assoc]
    refine congrArg (claimedSet s ∪ ·) (Set.ext fun c => ?_)
    exact List.mem_append.symm
  · rw [h'.visited, h.visited, List.length_append, Nat.add_assoc]
  · exact List.forall_mem_append.2 ⟨h.mirrors, h'.mirrors⟩

/-- A claim, and what happens up to the look into the FAT. -/
theorem Claimed.progress (h : Claimed v s s' cluster)
    (h' : Progress v s' s'' claims) (hmirrors : v.Mirrors cluster) :
    Progress v s s'' (cluster :: claims) := by
  refine ⟨h'.mounted, List.nodup_cons.2 ⟨fun hmem => ?_, h'.nodup⟩, ?_, ?_, ?_, ?_⟩
  · refine h'.fresh cluster hmem ?_
    rw [h.claimed]
    exact Set.mem_insert _ _
  · refine List.forall_mem_cons.2 ⟨h.fresh, fun c hc hmem => h'.fresh c hc ?_⟩
    rw [h.claimed]
    exact Set.mem_insert_of_mem _ hmem
  · rw [h'.claimed, h.claimed, Set.insert_union, ← Set.union_insert]
    refine congrArg (claimedSet s ∪ ·) (Set.ext fun c => ?_)
    exact List.mem_cons.symm
  · rw [h'.visited, h.visited, List.length_cons]
    omega
  · exact List.forall_mem_cons.2 ⟨hmirrors, h'.mirrors⟩

theorem Progress.perm (h : Progress v s s' claims) (hperm : claims.Perm claims') :
    Progress v s s' claims' := by
  refine ⟨h.mounted, hperm.nodup_iff.1 h.nodup, fun c hc => h.fresh c (hperm.mem_iff.2 hc), ?_, ?_,
    fun c hc => h.mirrors c (hperm.mem_iff.2 hc)⟩
  · rw [h.claimed]
    refine congrArg (claimedSet s ∪ ·) (Set.ext fun c => ?_)
    exact hperm.mem_iff
  · rw [h.visited, hperm.length_eq]

end Claims

/-! ## Files -/

section Files

variable {v : Volume} {s : Import}

/-- A write behind the first bytes. -/
theorem readBytes_append {data disk : ByteMemory} {start bytes : Nat} :
    readBytes (writeBytes data copied (readBytes disk start bytes)) 0 (copied + bytes) =
      readBytes data 0 copied ++ readBytes disk start bytes := by
  rw [readBytes_add]
  refine congrArg₂ (· ++ ·) (readBytes_eq_of fun i hi => ?_) ?_
  · exact writeBytes_of_outside (Or.inl (by omega))
  · have hback := readBytes_writeBytes data copied (readBytes disk start bytes)
    rw [length_readBytes] at hback
    rw [Nat.zero_add]
    exact hback

/-- The loop over the sectors of a cluster appends the bytes of the disk. -/
theorem readSectors_ends (h : Mounted v s) {size : Nat} (lba left i : Nat)
    (data : ByteMemory) (hle : copied ≤ size) :
    Ends (readSectors size lba left i copied data s) (fun r s' =>
      r.1 = min size (copied + left * 512) ∧
      readBytes r.2 0 r.1 =
        readBytes data 0 copied ++ readBytes v.disk ((lba + i) * 512) (r.1 - copied) ∧
      Mounted v s' ∧ Kept s s') Rejects := by
  induction left generalizing i copied data s with
  | zero =>
    refine .pure ⟨?_, ?_, h, .refl s⟩
    · omega
    · rw [Nat.sub_self]
      exact (List.append_nil _).symm
  | succ left ih =>
    rw [readSectors]
    split
    · rename_i hlt
      refine .seq (h.sector_ends _) ?_
      rintro block s₁ ⟨hblock, h₁, hkept₁⟩
      refine (ih h₁ (i + 1) _ (by omega)).mono ?_ fun _ _ he => he
      rintro r s₂ ⟨hcopied, hdata, h₂, hkept₂⟩
      refine ⟨by omega, ?_, h₂, hkept₁.trans hkept₂⟩
      generalize hbytes : min (size - copied) 512 = bytes at hcopied hdata
      have hread : readBytes block 0 bytes = readBytes v.disk ((lba + i) * 512) bytes := by
        rw [hblock]
        exact readBytes_eq_of fun k _ => by rw [Nat.zero_add]
      rw [hdata, hread, readBytes_append, List.append_assoc]
      refine congrArg (readBytes data 0 copied ++ ·) ?_
      -- Either the sector is full and the next one follows, or the file ends in it.
      rcases Nat.lt_or_ge (size - copied) 512 with hshort | hfull
      · have hend : r.1 - (copied + bytes) = 0 := by omega
        have hall : r.1 - copied = bytes := by omega
        rw [hend, hall]
        exact List.append_nil _
      · have hfull' : bytes = 512 := by omega
        have hnext : (lba + (i + 1)) * 512 = (lba + i) * 512 + 512 := by ring
        have hsplit : r.1 - copied = 512 + (r.1 - (copied + bytes)) := by omega
        rw [hsplit, readBytes_add, hfull', hnext]
    · have hsize : copied = size := by omega
      refine .pure ⟨by omega, ?_, h, .refl s⟩
      rw [Nat.sub_self]
      exact (List.append_nil _).symm

/-- The number of clusters of a chain is what a number of bytes needs. -/
def Covers (v : Volume) (chain : List Nat) (bytes : Nat) : Prop :=
  bytes ≤ chain.length * v.clusterSize ∧ chain.length * v.clusterSize < bytes + v.clusterSize

theorem length_clusterBytes (cluster : Nat) : (v.clusterBytes cluster).length = v.clusterSize :=
  length_readBytes _ _ _

/-- The bytes that the loop over the sectors of a cluster appends. -/
theorem cluster_bytes (h : Mounted v s) (cluster : Nat) {bytes : Nat}
    (hle : bytes ≤ v.clusterSize) :
    readBytes v.disk ((clusterLba s.fs cluster + 0) * 512) bytes =
      (v.clusterBytes cluster).take bytes := by
  have hdata : s.fs.dataStart = v.boot.overhead := h.layout.dataStart
  have hspc : s.fs.sectorsPerCluster = v.boot.sectorsPerCluster := h.layout.sectorsPerCluster
  rw [Volume.clusterBytes, take_readBytes, Nat.min_eq_left hle, Volume.clusterStart, clusterLba,
    hdata, hspc, Nat.add_zero]

/-- The loop over the clusters reads the chain, which is as long as the file needs. -/
theorem readClusters_ends (hv : v.Sane) {size : Nat} (h : Mounted v s) (fuel cluster : Nat)
    (data : ByteMemory) (hlt : copied < size) (hfuel : 16384 < fuel + s.fs.visited) :
    Ends (readClusters size fuel cluster copied data s) (fun data' s' => ∃ chain,
      v.Chain cluster chain ∧ Progress v s s' chain ∧ s'.fs.tree = s.fs.tree ∧
      Covers v chain (size - copied) ∧
      readBytes data' 0 size =
        readBytes data 0 copied ++ (v.chainBytes chain).take (size - copied)) Rejects := by
  induction fuel generalizing s cluster copied data with
  | zero =>
    have hvisited := h.visited
    omega
  | succ fuel ih =>
    rw [readClusters]
    refine .seq (claim_ends h cluster) ?_
    intro _ s₁ hclaim
    refine .read ?_
    refine .seq (readSectors_ends hclaim.mounted _ _ 0 data (Nat.le_of_lt hlt)) ?_
    rintro ⟨copied', data'⟩ s₂ ⟨hcopied, hdata, h₂, hkept₂⟩
    refine .seq (entry_ends h₂ cluster) ?_
    rintro next s₃ ⟨hnext, hmirrors, h₃, hkept₃⟩
    have hprogress : Progress v s s₃ [cluster] :=
      hclaim.progress (.kept h₃ (hkept₂.trans hkept₃)) hmirrors
    have htree : s₃.fs.tree = s.fs.tree := (hkept₂.trans hkept₃).tree.trans hclaim.tree
    have hspc : s₁.fs.sectorsPerCluster = v.boot.sectorsPerCluster :=
      hclaim.mounted.layout.sectorsPerCluster
    have hcopied' : copied' = min size (copied + v.clusterSize) := by
      rw [Volume.clusterSize, ← hspc]
      exact hcopied
    have hcs := hv.clusterSize_pos
    have hdata' : readBytes data' 0 copied' =
        readBytes data 0 copied ++ (v.clusterBytes cluster).take (copied' - copied) := by
      rw [← cluster_bytes hclaim.mounted cluster (by omega)]
      exact hdata
    split
    · rename_i hdone
      rw [hdone] at hcopied' hdata'
      refine .check (fun hend => .pure ?_) fun _ => rfl
      rw [hnext] at hend
      refine ⟨[cluster], .last hclaim.inRange hend, hprogress, htree, ⟨?_, ?_⟩, ?_⟩
      · rw [List.length_singleton]
        omega
      · rw [List.length_singleton]
        omega
      · rw [hdata', Volume.chainBytes, List.flatMap_singleton]
    · rename_i hmore
      refine .check (fun hvalid => ?_) fun _ => rfl
      rw [inRange_iff hclaim.mounted] at hvalid
      have hvisited₃ := hprogress.visited
      rw [List.length_singleton] at hvisited₃
      have hlink : v.next cluster < endOfChain := by
        rw [← hnext]
        exact hv.inRange_lt hvalid
      refine (ih h₃ next data' (by omega) (by omega)).mono ?_ fun _ _ he => he
      rintro data'' s₄ ⟨chain, hchain, hprogress', htree', hcovers, hdata''⟩
      rw [hnext] at hchain
      have hfull : copied' = copied + v.clusterSize := by omega
      have hlength := length_clusterBytes (v := v) cluster
      refine ⟨cluster :: chain, .link hclaim.inRange hlink hchain, hprogress.trans hprogress',
        htree'.trans htree, ⟨?_, ?_⟩, ?_⟩
      · have hle := hcovers.1
        rw [List.length_cons, Nat.succ_mul]
        omega
      · have hlt' := hcovers.2
        rw [List.length_cons, Nat.succ_mul]
        omega
      · have hhead : (v.clusterBytes cluster).take (copied' - copied) = v.clusterBytes cluster := by
          apply List.take_of_length_le
          omega
        have hall : (v.clusterBytes cluster).take (size - copied) = v.clusterBytes cluster := by
          apply List.take_of_length_le
          omega
        have hrest : size - copied - v.clusterSize = size - copied' := by omega
        rw [hdata'', hdata', hhead, Volume.chainBytes, Volume.chainBytes, List.flatMap_cons,
          List.take_append, hall, hlength, hrest, List.append_assoc]

theorem alloc_ends (bytes : Nat) :
    Ends (alloc bytes s) (fun _ s' => s'.fs = s.fs) Rejects := by
  rw [alloc]
  split
  · exact .ok rfl
  · split
    · exact .ok rfl
    · exact .ok rfl

theorem modify_last {α : Type} (l : List α) (a : α) (f : α → α) :
    (l ++ [a]).modify l.length f = l ++ [f a] := by
  induction l with
  | nil => rfl
  | cons b l ih => exact congrArg (b :: ·) ih

/-- `read_file` for the last node of the tree. -/
theorem readFile_ends (hv : v.Sane) (h : Mounted v s) {nodes : List VfsNode} {node : VfsNode}
    (hnodes : s.fs.tree.nodes = nodes ++ [node]) (cluster : Nat) :
    Ends (readFile nodes.length node.size cluster s) (fun _ s' => ∃ chain data,
      FileChain v node.size cluster chain ∧ (node.size ≠ 0 → Covers v chain node.size) ∧
      Progress v s s' chain ∧ s'.fs.tree.nodes = nodes ++ [{ node with data }] ∧
      readBytes data.bytes 0 node.size = (v.chainBytes chain).take node.size) Rejects := by
  rw [readFile]
  split
  · rename_i hempty
    refine .ensure (fun hcluster => ?_) fun _ => rfl
    refine ⟨[], node.data, ?_, fun hne => absurd hempty hne, .kept h (.refl s), hnodes, ?_⟩
    · rw [hempty, hcluster]
      exact .empty
    · rw [hempty]
      rfl
  · rename_i hsize
    refine .read (.check (fun _ => ?_) fun _ => rfl)
    refine .seq (alloc_ends _) ?_
    rintro data ⟨_, host⟩ rfl
    refine .check (fun _ => ?_) fun _ => rfl
    refine .write ?_
    have h₁ : Mounted v (((⟨s.fs, host⟩ : Import).setData nodes.length data).charge node.size) :=
      ⟨h.layout, h.visited, h.cache⟩
    have hnodes₁ : s.fs.tree.nodes.modify nodes.length (fun node => { node with data }) =
        nodes ++ [{ node with data }] := by
      rw [hnodes, modify_last]
    have hfuel : 16384 < chainRounds + s.fs.visited := Nat.lt_add_right _ (by decide)
    refine .seq (readClusters_ends hv h₁ chainRounds cluster data.bytes (Nat.pos_of_ne_zero hsize)
      hfuel) ?_
    rintro bytes s₂ ⟨chain, hchain, hprogress, htree, hcovers, hbytes⟩
    have hstart : Progress v s
        (((⟨s.fs, host⟩ : Import).setData nodes.length data).charge node.size) [] :=
      .nil h₁ rfl rfl
    have hend : Progress v s₂ (s₂.setData nodes.length ⟨data.handle, bytes⟩) [] :=
      .nil ⟨hprogress.mounted.layout, hprogress.mounted.visited, hprogress.mounted.cache⟩ rfl rfl
    have hall := (hstart.trans hprogress).trans hend
    rw [List.nil_append, List.append_nil] at hall
    refine .ok ⟨chain, ⟨data.handle, bytes⟩, .chain hsize hchain, fun _ => hcovers,
      hall, ?_, hbytes⟩
    have hnodes₂ : s₂.fs.tree.nodes = nodes ++ [{ node with data }] := by
      rw [htree]
      exact hnodes₁
    change s₂.fs.tree.nodes.modify nodes.length _ = _
    rw [hnodes₂, modify_last]

end Files

end Utamo.Fat
