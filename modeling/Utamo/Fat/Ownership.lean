import Utamo.Fat.Import

/-!
# Who owns the storage of an import

The allocator is asked once for the bitmap of claimed clusters and once for every file that is not
empty. The storage belongs to the import: `fs->claimed` and the pointers `data` of the nodes are the
only way to it. `Owned` says so of every state in which the import may stop, since each pointer is
stored before anything else can fail; that is why `fat32_discard` frees all of it, once.

Most of the import neither asks for storage nor moves a pointer (`Quiet`).
-/

set_option autoImplicit false

namespace Utamo.Fat

open Lib Lib.ByteMemory Vfs

variable {α β : Type} {node : VfsNode}

/-! ## Ownership -/

/-- Storage with its size. -/
abbrev Block := Nat × Nat

/-- The storage of a node. -/
def nodeBlock (node : VfsNode) : Block := (node.data.handle, node.size)

/-- The storage that the nodes of a tree own. -/
def nodeBlocks (nodes : List VfsNode) : List Block :=
  (nodes.filter fun node => node.data.handle ≠ 0).map nodeBlock

/-- The storage of the bitmap of claimed clusters. -/
def bitmapBlock (fs : Fat32) : List Block :=
  if fs.claimed.handle ≠ 0 then [(fs.claimed.handle, (fs.clusters + 7) / 8)] else []

/-- The storage that an import owns, in the order in which it was allocated. -/
def blocks (fs : Fat32) : List Block := bitmapBlock fs ++ nodeBlocks fs.tree.nodes

/-- An import that started with the host `base` owns what was allocated since, and has
freed nothing. -/
structure Owned (base : Host) (s : Import) : Prop where
  free : s.fs.memory.free = true
  freed : s.host.freed = base.freed
  calls : base.allocCalls ≤ s.host.allocCalls
  allocated : s.host.allocated = base.allocated ++ blocks s.fs
  fresh : ((blocks s.fs).map Prod.fst).Pairwise (· < ·)
  range : ∀ block ∈ blocks s.fs, base.allocCalls < block.1 ∧ block.1 ≤ s.host.allocCalls

/-- A node owns storage if it is a file that is not empty. -/
def NodeSettled (node : VfsNode) : Prop := node.data.handle ≠ 0 ↔ node.type = .file ∧ node.size ≠ 0

/-- The bitmap is there and nothing is half done. -/
structure Settled (base : Host) (s : Import) : Prop extends Owned base s where
  bitmap : s.fs.claimed.handle ≠ 0
  nodes : ∀ node ∈ s.fs.tree.nodes, NodeSettled node

/-- A step that neither asks for storage nor moves a pointer. -/
structure Quiet (s s' : Import) : Prop where
  tree : s'.fs.tree = s.fs.tree
  claimed : s'.fs.claimed.handle = s.fs.claimed.handle
  clusters : s'.fs.clusters = s.fs.clusters
  memory : s'.fs.memory = s.fs.memory
  calls : s'.host.allocCalls = s.host.allocCalls
  allocated : s'.host.allocated = s.host.allocated
  freed : s'.host.freed = s.host.freed

section Ownership

variable {base : Host} {s s' s'' : Import}

theorem Quiet.refl (s : Import) : Quiet s s := ⟨rfl, rfl, rfl, rfl, rfl, rfl, rfl⟩

theorem Quiet.trans (h : Quiet s s') (h' : Quiet s' s'') : Quiet s s'' :=
  ⟨h'.tree.trans h.tree, h'.claimed.trans h.claimed, h'.clusters.trans h.clusters,
    h'.memory.trans h.memory, h'.calls.trans h.calls, h'.allocated.trans h.allocated,
    h'.freed.trans h.freed⟩

theorem Quiet.blocks (h : Quiet s s') : blocks s'.fs = blocks s.fs := by
  rw [Fat.blocks, Fat.blocks, bitmapBlock, bitmapBlock, h.claimed, h.clusters, h.tree]

theorem Owned.quiet (h : Owned base s) (hq : Quiet s s') : Owned base s' := by
  refine ⟨?_, hq.freed.trans h.freed, ?_, ?_, ?_, ?_⟩
  · rw [hq.memory]
    exact h.free
  · rw [hq.calls]
    exact h.calls
  · rw [hq.allocated, hq.blocks]
    exact h.allocated
  · rw [hq.blocks]
    exact h.fresh
  · rw [hq.blocks, hq.calls]
    exact h.range

theorem Settled.quiet (h : Settled base s) (hq : Quiet s s') : Settled base s' := by
  refine ⟨h.toOwned.quiet hq, ?_, ?_⟩
  · rw [hq.claimed]
    exact h.bitmap
  · rw [hq.tree]
    exact h.nodes

/-- A quiet part in the middle of an import. -/
theorem settled_seq {x : FatM α} {f : α → FatM β} {ok : β → Import → Prop}
    (h : Settled base s) (hx : EndsIn Quiet x)
    (hf : ∀ a t, Settled base t → Quiet s t → Ends (f a t) ok fun _ t => Owned base t) :
    Ends ((x >>= f) s) ok fun _ t => Owned base t := by
  refine .bind ((hx s).mono (fun a t ht => ?_) fun _ t ht => ?_)
  · exact hf a t (h.quiet ht) ht
  · exact h.toOwned.quiet ht

end Ownership

/-! ## The quiet parts -/

section QuietParts

theorem blockRead_ledger (device : Option BlockDevice) (lba count : Nat) (host : Host) :
    (blockRead device lba count host).1.allocCalls = host.allocCalls ∧
      (blockRead device lba count host).1.allocated = host.allocated ∧
      (blockRead device lba count host).1.freed = host.freed := by
  rw [blockRead.eq_def]
  cases device with
  | none => exact ⟨rfl, rfl, rfl⟩
  | some device =>
    dsimp only
    split
    · exact ⟨rfl, rfl, rfl⟩
    · split
      · exact ⟨rfl, rfl, rfl⟩
      · exact ⟨rfl, rfl, rfl⟩

theorem sector_quiet (lba : Nat) : EndsIn Quiet (sector lba) := by
  intro s
  rw [sector]
  simp only
  split
  · exact .error ⟨rfl, rfl, rfl, rfl, rfl, rfl, rfl⟩
  · obtain ⟨hcalls, hallocated, hfreed⟩ := blockRead_ledger s.fs.device lba 1 s.host
    cases hread : blockRead s.fs.device lba 1 s.host with
    | mk host block =>
      rw [hread] at hcalls hallocated hfreed
      cases block with
      | none => exact .error ⟨rfl, rfl, rfl, rfl, hcalls, hallocated, hfreed⟩
      | some block => exact .ok ⟨rfl, rfl, rfl, rfl, hcalls, hallocated, hfreed⟩

theorem quiet_bind {x : FatM α} {f : α → FatM β} (hx : EndsIn Quiet x)
    (hf : ∀ a, EndsIn Quiet (f a)) : EndsIn Quiet (x >>= f) :=
  EndsIn.bind (fun _ _ _ => Quiet.trans) hx hf

theorem quiet_require (p : Prop) [Decidable p] : EndsIn Quiet (require p) :=
  EndsIn.ensure Quiet.refl Stop.rejected p

theorem loadFat_quiet (relative : Nat) : EndsIn Quiet (loadFat relative) := by
  have hmark : EndsIn Quiet (modify fun s => s.markCache relative : FatM PUnit) :=
    EndsIn.modify fun _ => ⟨rfl, rfl, rfl, rfl, rfl, rfl, rfl⟩
  rw [loadFat]
  refine quiet_bind (EndsIn.get Quiet.refl) fun s => quiet_bind (sector_quiet _) fun cache => ?_
  refine quiet_bind (EndsIn.modify fun _ => ⟨rfl, rfl, rfl, rfl, rfl, rfl, rfl⟩) fun _ => ?_
  refine EndsIn.ite (fun _ => ?_) fun _ => hmark
  exact quiet_bind (sector_quiet _) fun mirror => quiet_bind (quiet_require _) fun _ => hmark

theorem cachedEntry_quiet (cluster : Nat) : EndsIn Quiet (cachedEntry cluster) := by
  rw [cachedEntry]
  exact quiet_bind (EndsIn.get Quiet.refl) fun _ => EndsIn.pure Quiet.refl _

theorem entry_quiet (cluster : Nat) : EndsIn Quiet (entry cluster) := by
  rw [entry]
  refine quiet_bind (EndsIn.get Quiet.refl) fun s => quiet_bind (quiet_require _) fun _ => ?_
  refine EndsIn.ite (fun _ => ?_) fun _ => cachedEntry_quiet cluster
  exact quiet_bind (loadFat_quiet _) fun _ => cachedEntry_quiet cluster

/-- `claim` writes the bitmap, but not the pointer to it. -/
theorem claim_quiet (cluster : Nat) : EndsIn Quiet (claim cluster) := by
  intro s
  rw [claim]
  refine .read (.check (fun _ => ?_) fun _ => .refl s)
  have hvisit : Quiet s s.visit := ⟨rfl, rfl, rfl, rfl, rfl, rfl, rfl⟩
  refine .write (.check (fun _ => ?_) fun _ => hvisit)
  refine .check (fun _ => ?_) fun _ => hvisit
  exact .ok ⟨rfl, rfl, rfl, rfl, rfl, rfl, rfl⟩

theorem readSectors_quiet (size lba left : Nat) : ∀ (i copied : Nat) (data : ByteMemory),
    EndsIn Quiet (readSectors size lba left i copied data) := by
  induction left with
  | zero => exact fun i copied data => EndsIn.pure Quiet.refl _
  | succ left ih =>
    intro i copied data
    rw [readSectors]
    refine EndsIn.ite (fun _ => ?_) fun _ => EndsIn.pure Quiet.refl _
    exact quiet_bind (sector_quiet _) fun block => ih _ _ _

theorem readClusters_quiet (size fuel : Nat) : ∀ (cluster copied : Nat) (data : ByteMemory),
    EndsIn Quiet (readClusters size fuel cluster copied data) := by
  induction fuel with
  | zero => exact fun cluster copied data => EndsIn.throw Quiet.refl _
  | succ fuel ih =>
    intro cluster copied data
    rw [readClusters]
    refine quiet_bind (claim_quiet _) fun _ => quiet_bind (EndsIn.get Quiet.refl) fun s => ?_
    refine quiet_bind (readSectors_quiet _ _ _ _ _ _) fun result => ?_
    refine quiet_bind (entry_quiet _) fun next => EndsIn.ite (fun _ => ?_) fun _ => ?_
    · exact quiet_bind (quiet_require _) fun _ => EndsIn.pure Quiet.refl _
    · exact quiet_bind (quiet_require _) fun _ => ih _ _ _

theorem dotEntry_quiet (first parent : Nat) (e : ByteMemory) :
    EndsIn Quiet (dotEntry first parent e) := by
  rw [dotEntry]
  exact quiet_require _

end QuietParts

/-! ## Files -/

section Files

variable {base : Host} {s : Import}

/-- The allocator fails, or its storage is new. -/
theorem alloc_cases (bytes : Nat) (s : Import) :
    (∃ contents calls, alloc bytes s =
        .ok ⟨0, contents⟩ { s with host := { s.host with allocCalls := calls } } ∧
      s.host.allocCalls ≤ calls) ∨
    ∃ contents, alloc bytes s =
      .ok ⟨s.host.allocCalls + 1, contents⟩ { s with host := { s.host with
        allocCalls := s.host.allocCalls + 1
        allocated := s.host.allocated ++ [(s.host.allocCalls + 1, bytes)] } } := by
  rw [alloc]
  split
  · exact Or.inl ⟨_, s.host.allocCalls, rfl, Nat.le_refl _⟩
  · simp only
    split
    · exact Or.inl ⟨_, _, rfl, Nat.le_succ _⟩
    · exact Or.inr ⟨_, rfl⟩

theorem Owned.calls_mono (h : Owned base s) {calls : Nat} (hle : s.host.allocCalls ≤ calls) :
    Owned base { s with host := { s.host with allocCalls := calls } } :=
  ⟨h.free, h.freed, h.calls.trans hle, h.allocated, h.fresh,
    fun block hblock => ⟨(h.range block hblock).1, (h.range block hblock).2.trans hle⟩⟩

/-- New storage that has its owner. -/
theorem Owned.grow (h : Owned base s) {bytes : Nat} {fs : Fat32} (hfree : fs.memory.free = true)
    (hblocks : blocks fs = blocks s.fs ++ [(s.host.allocCalls + 1, bytes)]) :
    Owned base ⟨fs, { s.host with
      allocCalls := s.host.allocCalls + 1
      allocated := s.host.allocated ++ [(s.host.allocCalls + 1, bytes)] }⟩ := by
  refine ⟨hfree, h.freed, Nat.le_succ_of_le h.calls, ?_, ?_, ?_⟩
  · rw [hblocks, h.allocated, List.append_assoc]
  · rw [hblocks, List.map_append, List.pairwise_append]
    refine ⟨h.fresh, List.pairwise_singleton _ _, fun a ha b hb => ?_⟩
    obtain ⟨block, hblock, rfl⟩ := List.mem_map.1 ha
    rw [List.map_singleton, List.mem_singleton] at hb
    rw [hb]
    exact Nat.lt_succ_of_le (h.range block hblock).2
  · rw [hblocks]
    refine List.forall_mem_append.2 ⟨fun block hblock => ?_, List.forall_mem_singleton.2 ?_⟩
    · exact ⟨(h.range block hblock).1, Nat.le_succ_of_le (h.range block hblock).2⟩
    · exact ⟨Nat.lt_succ_of_le h.calls, Nat.le_refl _⟩

theorem nodeBlocks_append (nodes nodes' : List VfsNode) :
    nodeBlocks (nodes ++ nodes') = nodeBlocks nodes ++ nodeBlocks nodes' := by
  rw [nodeBlocks, List.filter_append, List.map_append]
  rfl

theorem nodeBlocks_null (h : node.data.handle = 0) : nodeBlocks [node] = [] := by
  rw [nodeBlocks, List.filter_cons_of_neg (by simp [h])]
  rfl

theorem nodeBlocks_owner (h : node.data.handle ≠ 0) :
    nodeBlocks [node] = [nodeBlock node] := by
  rw [nodeBlocks, List.filter_cons_of_pos (by simp [h])]
  rfl

/-- `read_file` for the last node of the tree: the node owns the storage before
anything can fail. -/
theorem readFile_owned {nodes : List VfsNode} (h : Owned base s)
    (hbitmap : s.fs.claimed.handle ≠ 0) (hnodes : s.fs.tree.nodes = nodes ++ [node])
    (hsettled : ∀ other ∈ nodes, NodeSettled other)
    (hnull : node.data.handle = 0) (hfile : node.type = .file) (cluster : Nat) :
    Ends (readFile nodes.length node.size cluster s) (fun _ t => Settled base t)
      fun _ t => Owned base t := by
  rw [readFile]
  split
  · rename_i hempty
    refine .ensure (fun _ => ⟨h, hbitmap, ?_⟩) fun _ => h
    rw [hnodes]
    refine List.forall_mem_append.2 ⟨hsettled, List.forall_mem_singleton.2 ?_⟩
    exact iff_of_false (not_not.2 hnull) fun hne => hne.2 hempty
  · rename_i hsize
    refine .read (.check (fun _ => ?_) fun _ => h)
    apply Ends.bind
    rcases alloc_cases node.size s with ⟨contents, calls, halloc, hle⟩ | ⟨contents, halloc⟩
    · -- Without storage there is no new owner.
      rw [halloc]
      exact .ok (.check (fun hne => absurd rfl hne) fun _ => h.calls_mono hle)
    · rw [halloc]
      refine .ok (.check (fun _ => .write ?_) fun hne => absurd (Nat.succ_ne_zero _) hne)
      -- The node with any contents of its storage.
      have howner : ∀ bytes : ByteMemory, NodeSettled
          { node with data := ⟨s.host.allocCalls + 1, bytes⟩ } :=
        fun bytes => iff_of_true (Nat.succ_ne_zero _) ⟨hfile, hsize⟩
      have hall : ∀ bytes : ByteMemory, ∀ other ∈
          nodes ++ [{ node with data := ⟨s.host.allocCalls + 1, bytes⟩ }], NodeSettled other := by
        intro bytes other hother
        rcases List.mem_append.1 hother with hother | hother
        · exact hsettled other hother
        · rw [List.mem_singleton] at hother
          rw [hother]
          exact howner bytes
      generalize hs₁ : ((({ s with host := { s.host with
          allocCalls := s.host.allocCalls + 1
          allocated := s.host.allocated ++ [(s.host.allocCalls + 1, node.size)] } } : Import)
        |>.setData nodes.length ⟨s.host.allocCalls + 1, contents⟩).charge node.size) = s₁
      have hnodes₁ : s₁.fs.tree.nodes =
          nodes ++ [{ node with data := ⟨s.host.allocCalls + 1, contents⟩ }] := by
        rw [← hs₁]
        show s.fs.tree.nodes.modify nodes.length _ = _
        rw [hnodes, modify_last]
      have h₁ : Settled base s₁ := by
        refine ⟨?_, ?_, ?_⟩
        · have hblocks : blocks s₁.fs = blocks s.fs ++ [(s.host.allocCalls + 1, node.size)] := by
            have hbitmap : bitmapBlock s₁.fs = bitmapBlock s.fs := by
              rw [← hs₁]
              rfl
            rw [blocks, blocks, hbitmap, hnodes₁, hnodes, nodeBlocks_append, nodeBlocks_append,
              nodeBlocks_null hnull, List.append_nil, nodeBlocks_owner (Nat.succ_ne_zero _),
              List.append_assoc]
            rfl
          have hfree : s₁.fs.memory.free = true := by
            rw [← hs₁]
            exact h.free
          have hgrow := h.grow hfree hblocks
          rw [← hs₁] at hgrow ⊢
          exact hgrow
        · rw [← hs₁]
          exact hbitmap
        · rw [hnodes₁]
          exact hall contents
      refine settled_seq h₁ (readClusters_quiet _ _ _ _ _) fun bytes t ht hquiet => .ok ?_
      -- The pointer stays; only what it leads to is written.
      have hnodes₂ : t.fs.tree.nodes.modify nodes.length
          (fun node => { node with data := ⟨s.host.allocCalls + 1, bytes⟩ }) =
          nodes ++ [{ node with data := ⟨s.host.allocCalls + 1, bytes⟩ }] := by
        rw [hquiet.tree, hnodes₁, modify_last]
      have hblocks :
          blocks (t.setData nodes.length ⟨s.host.allocCalls + 1, bytes⟩).fs = blocks t.fs := by
        show bitmapBlock t.fs ++ nodeBlocks (t.fs.tree.nodes.modify nodes.length _) = _
        rw [hnodes₂, blocks, hquiet.tree, hnodes₁, nodeBlocks_append, nodeBlocks_append,
          nodeBlocks_owner (Nat.succ_ne_zero _), nodeBlocks_owner (Nat.succ_ne_zero _)]
        rfl
      refine ⟨⟨ht.free, ht.freed, ht.calls, ?_, ?_, ?_⟩, ht.bitmap, ?_⟩
      · rw [hblocks]
        exact ht.allocated
      · rw [hblocks]
        exact ht.fresh
      · rw [hblocks]
        exact ht.range
      · show ∀ other ∈ t.fs.tree.nodes.modify nodes.length _, NodeSettled other
        rw [hnodes₂]
        exact hall bytes

end Files

/-! ## Directories -/

/-- What a directory leaves behind. -/
def Settles (base : Host) (x : FatM PUnit) : Prop :=
  ∀ s, Settled base s → Ends (x s) (fun _ t => Settled base t) fun _ t => Owned base t

section Directories

variable {base : Host} {descend : Nat → Nat → Path → FatM PUnit}
  (hdescend : ∀ cluster parent path, Settles base (descend cluster parent path))

include hdescend

/-- A node enters the tree without storage, and is read at once. -/
theorem addEntry_settles (first : Nat) (path : Path) (name : List UInt8) (e : ByteMemory) :
    Settles base (addEntry descend first path name e) := by
  intro s hs
  rw [addEntry]
  refine .read (.check (fun _ => ?_) fun _ => hs.toOwned)
  refine .check (fun _ => ?_) fun _ => hs.toOwned
  refine .check (fun _ => ?_) fun _ => hs.toOwned
  refine .write ?_
  have howned : Owned base (s.setNodes (s.fs.tree.nodes ++ [entryNode path name e])) := by
    have hblocks :
        blocks (s.setNodes (s.fs.tree.nodes ++ [entryNode path name e])).fs = blocks s.fs := by
      show bitmapBlock s.fs ++ nodeBlocks (s.fs.tree.nodes ++ [entryNode path name e]) = blocks s.fs
      have hnull : nodeBlocks [entryNode path name e] = [] := nodeBlocks_null rfl
      rw [nodeBlocks_append, hnull, List.append_nil]
      rfl
    refine ⟨hs.free, hs.freed, hs.calls, ?_, ?_, ?_⟩
    · rw [hblocks]
      exact hs.allocated
    · rw [hblocks]
      exact hs.fresh
    · rw [hblocks]
      exact hs.range
  rw [readNode]
  split
  · rename_i hdir
    refine hdescend _ _ _ _ ⟨howned, hs.bitmap, ?_⟩
    refine List.forall_mem_append.2 ⟨hs.nodes, List.forall_mem_singleton.2 ?_⟩
    refine iff_of_false (not_not.2 rfl) fun hfile => ?_
    have htype : (entryNode path name e).type = .directory := if_pos hdir
    rw [htype] at hfile
    cases hfile.1
  · rename_i hfile
    exact readFile_owned howned hs.bitmap rfl hs.nodes rfl (if_neg hfile) _

theorem directoryEntry_settles (first parent : Nat) (path : Path) (e : ByteMemory) :
    Settles base (directoryEntry descend first parent path e) := by
  intro s hs
  have hquiet : ∀ {x : FatM PUnit}, EndsIn Quiet x →
      Ends (x s) (fun _ t => Settled base t) fun _ t => Owned base t :=
    fun hx => (hx s).mono (fun _ _ ht => hs.quiet ht) fun _ _ ht => hs.toOwned.quiet ht
  rw [directoryEntry]
  split
  · exact .pure hs
  · refine .check (fun _ => ?_) fun _ => hs.toOwned
    split
    · exact hquiet (quiet_require _)
    · split
      · exact hquiet (dotEntry_quiet _ _ _)
      · rw [namedEntry]
        cases shortName e with
        | none => exact .throw hs.toOwned
        | some name => exact addEntry_settles hdescend _ _ _ _ s hs

theorem directoryEntries_settles (first parent : Nat) (path : Path) (data : ByteMemory)
    (left : Nat) :
    ∀ (i : Nat) (s : Import), Settled base s →
      Ends (directoryEntries descend first parent path data left i s) (fun _ t => Settled base t)
        fun _ t => Owned base t := by
  induction left with
  | zero => exact fun i s hs => .pure hs
  | succ left ih =>
    intro i s hs
    rw [directoryEntries]
    simp only
    split
    · exact .pure hs
    · exact .seq (directoryEntry_settles hdescend _ _ _ _ s hs) fun _ t ht => ih _ t ht

theorem directorySectors_settles (first parent : Nat) (path : Path) (lba left : Nat) :
    ∀ (i : Nat) (s : Import), Settled base s →
      Ends (directorySectors descend first parent path lba left i s) (fun _ t => Settled base t)
        fun _ t => Owned base t := by
  induction left with
  | zero => exact fun i s hs => .pure hs
  | succ left ih =>
    intro i s hs
    rw [directorySectors]
    refine settled_seq hs (sector_quiet _) fun data t ht _ => ?_
    refine .seq (directoryEntries_settles hdescend _ _ _ _ _ _ t ht) fun ended u hu => ?_
    split
    · exact .pure hu
    · exact ih _ u hu

theorem directoryClusters_settles (first parent : Nat) (path : Path) (fuel : Nat) :
    ∀ (cluster : Nat) (ended : Bool),
      Settles base (directoryClusters descend first parent path fuel cluster ended) := by
  induction fuel with
  | zero => exact fun cluster ended s hs => .throw hs.toOwned
  | succ fuel ih =>
    intro cluster ended s hs
    rw [directoryClusters]
    refine settled_seq hs (claim_quiet _) fun _ t ht _ => .read ?_
    have hcluster : Ends (directoryCluster descend first parent path t.fs cluster ended t)
        (fun _ u => Settled base u) fun _ u => Owned base u := by
      rw [directoryCluster]
      split
      · exact .pure ht
      · exact directorySectors_settles hdescend _ _ _ _ _ _ t ht
    refine .seq hcluster fun ended u hu => ?_
    refine settled_seq hu (entry_quiet _) fun next w hw _ => ?_
    split
    · exact .pure hw
    · exact .check (fun _ => ih _ _ w hw) fun _ => hw.toOwned

end Directories

theorem directory_settles (base : Host) (levels : Nat) : ∀ (cluster parent : Nat) (path : Path),
    Settles base (directory levels cluster parent path) := by
  induction levels with
  | zero => exact fun cluster parent path s hs => .throw hs.toOwned
  | succ levels ih =>
    intro cluster parent path
    rw [directory]
    exact directoryClusters_settles ih _ _ _ _ _ _

/-! ## Whole imports -/

/-- An import that has asked for no storage yet. -/
structure Bare (base : Host) (s : Import) : Prop where
  nodes : s.fs.tree.nodes = []
  claimed : s.fs.claimed.handle = 0
  free : s.fs.memory.free = true
  calls : s.host.allocCalls = base.allocCalls
  allocated : s.host.allocated = base.allocated
  freed : s.host.freed = base.freed

section Import

variable {base : Host} {s s' : Import}

theorem Bare.quiet (h : Bare base s) (hq : Quiet s s') : Bare base s' := by
  refine ⟨?_, hq.claimed.trans h.claimed, ?_, hq.calls.trans h.calls,
    hq.allocated.trans h.allocated, hq.freed.trans h.freed⟩
  · rw [hq.tree]
    exact h.nodes
  · rw [hq.memory]
    exact h.free

theorem Bare.blocks (h : Bare base s) : blocks s.fs = [] := by
  rw [Fat.blocks, bitmapBlock, if_neg (not_not.2 h.claimed), h.nodes]
  rfl

theorem Bare.owned (h : Bare base s) : Owned base s := by
  refine ⟨h.free, h.freed, h.calls.ge, ?_, ?_, ?_⟩
  · rw [h.blocks, List.append_nil]
    exact h.allocated
  · rw [h.blocks]
    exact .nil
  · rw [h.blocks]
    exact nofun

theorem bare_seq {x : FatM α} {f : α → FatM β} {ok : β → Import → Prop}
    (h : Bare base s) (hx : EndsIn Quiet x)
    (hf : ∀ a t, Bare base t → Ends (f a t) ok fun _ t => Owned base t) :
    Ends ((x >>= f) s) ok fun _ t => Owned base t :=
  .bind ((hx s).mono (fun a t ht => hf a t (h.quiet ht)) fun _ _ ht => (h.quiet ht).owned)

/-- The bitmap is the first storage of an import. -/
theorem prepareTree_settles (h : Bare base s) :
    Ends (prepareTree s) (fun _ t => Settled base t) fun _ t => Owned base t := by
  rw [prepareTree]
  refine .read (.bind ?_)
  rcases alloc_cases ((s.fs.clusters + 7) / 8) s with ⟨contents, calls, halloc, hle⟩ |
    ⟨contents, halloc⟩
  · rw [halloc]
    refine .ok (.write (.check (fun hne => absurd rfl hne) fun _ => ?_))
    have hbare : Bare base (s.setClaimed ⟨0, contents⟩) :=
      ⟨h.nodes, rfl, h.free, h.calls, h.allocated, h.freed⟩
    exact hbare.owned.calls_mono hle
  · rw [halloc]
    refine .ok (.write (.check (fun _ => .ok ?_) fun hne => absurd (Nat.succ_ne_zero _) hne))
    refine ⟨h.owned.grow h.free ?_, Nat.succ_ne_zero _, ?_⟩
    · have hnull : nodeBlocks [diskNode] = [] := nodeBlocks_null rfl
      rw [h.blocks]
      exact congrArg (bitmapBlock _ ++ ·) hnull
    · intro node hnode
      have hdisk : node = diskNode := List.mem_singleton.1 hnode
      rw [hdisk]
      exact iff_of_false (not_not.2 rfl) (by rintro ⟨⟨⟩, _⟩)

/-- The import stops with everything it has allocated in its hands, or ends with the
bitmap freed. -/
theorem importVolume_owned (h : Bare base s) (device : BlockDevice) :
    Ends (importVolume device s) (fun _ t => ∃ u, Settled base u ∧ t = publishTree u)
      fun _ t => Owned base t := by
  rw [importVolume]
  refine bare_seq h (sector_quiet 0) fun boot s₁ h₁ => .check (fun _ => ?_) fun _ => h₁.owned
  have h₂ : Bare base (adoptVolume (bootSector boot) s₁) :=
    ⟨h₁.nodes, h₁.claimed, h₁.free, h₁.calls, h₁.allocated, h₁.freed⟩
  refine .write (.read (.check (fun _ => ?_) fun _ => h₂.owned))
  refine bare_seq h₂ (entry_quiet 0) fun first s₃ h₃ => ?_
  refine bare_seq h₃ (entry_quiet 1) fun second s₄ h₄ => .check (fun _ => ?_) fun _ => h₄.owned
  refine .seq (prepareTree_settles h₄) fun _ s₅ h₅ => ?_
  refine .seq (directory_settles base 9 _ _ _ s₅ h₅) fun _ u hu => ?_
  exact .ok ⟨u, hu, rfl⟩

/-- `fat32_discard` frees what the nodes own and the bitmap. -/
theorem fat32Discard_freed (hfree : s.fs.memory.free = true) :
    (fat32Discard s).host.freed = s.host.freed ++
      ((nodeBlocks s.fs.tree.nodes).map Prod.fst ++ (bitmapBlock s.fs).map Prod.fst) := by
  have hnodes : (s.fs.tree.nodes.map fun node => node.data.handle).filter (· ≠ 0) =
      (nodeBlocks s.fs.tree.nodes).map Prod.fst := by
    rw [nodeBlocks, List.map_map, List.filter_map]
    rfl
  have hbitmap : (if s.fs.claimed.handle ≠ 0 then [s.fs.claimed.handle] else []) =
      (bitmapBlock s.fs).map Prod.fst := by
    rw [bitmapBlock]
    split
    · rfl
    · rfl
  rw [fat32Discard]
  simp only
  rw [if_pos hfree, hnodes, hbitmap]

/-- The storage of the nodes of a finished tree: one block for each file that is not empty. -/
theorem nodeBlocks_settled {nodes : List VfsNode} (h : ∀ node ∈ nodes, NodeSettled node) :
    nodeBlocks nodes =
      (nodes.filter fun node => node.type = .file ∧ node.size ≠ 0).map nodeBlock := by
  rw [nodeBlocks]
  congr 1
  refine List.filter_congr fun node hnode => ?_
  rw [decide_eq_decide]
  exact h node hnode

theorem nodup_of_fresh {handles : List Nat} (h : handles.Pairwise (· < ·)) : handles.Nodup :=
  h.imp fun hlt => Nat.ne_of_lt hlt

/-- What an import has done with storage since the host was `host`: the blocks it has allocated and
those it has freed. If it has failed, all blocks are freed, each of them once. If it has succeeded,
the blocks that are not freed are those of the files that are not empty, with the size of the file,
and `fat32_discard` frees each of them once. -/
structure Accounted (host : Host) (s : Import) (ok : Bool) (allocated : List Block)
    (freed : List Nat) :
    Prop where
  allocated_eq : s.host.allocated = host.allocated ++ allocated
  freed_eq : s.host.freed = host.freed ++ freed
  nodup : (allocated.map Prod.fst).Nodup
  fresh : ∀ block ∈ allocated, host.allocCalls < block.1
  failed : ok = false → s.fs = .zero ∧ freed.Perm (allocated.map Prod.fst)
  owners : ok = true → ∀ node ∈ s.fs.tree.nodes,
    node.data.handle ≠ 0 ↔ node.type = .file ∧ node.size ≠ 0
  live : ok = true → (allocated.filter fun block => block.1 ∉ freed) =
    (s.fs.tree.nodes.filter fun node => node.type = .file ∧ node.size ≠ 0).map
      fun node => (node.data.handle, node.size)
  discard : ok = true → (fat32Discard s).fs = .zero ∧
    ∃ rest, (fat32Discard s).host.freed = s.host.freed ++ rest ∧
      (freed ++ rest).Perm (allocated.map Prod.fst)

theorem Owned.accounted (h : Owned base s) :
    ∃ freed, Accounted base (fat32Discard s) false (blocks s.fs) freed := by
  refine ⟨(nodeBlocks s.fs.tree.nodes).map Prod.fst ++ (bitmapBlock s.fs).map Prod.fst, h.allocated,
    ?_, nodup_of_fresh h.fresh, fun block hblock => (h.range block hblock).1, fun _ => ⟨rfl, ?_⟩,
    nofun, nofun, nofun⟩
  · rw [fat32Discard_freed h.free, h.freed]
  · rw [blocks, List.map_append]
    exact List.perm_append_comm

theorem Settled.accounted (h : Settled base s) :
    Accounted base (publishTree s) true (blocks s.fs) [s.fs.claimed.handle] := by
  have hblocks : blocks s.fs =
      (s.fs.claimed.handle, (s.fs.clusters + 7) / 8) :: nodeBlocks s.fs.tree.nodes := by
    rw [blocks, bitmapBlock, if_pos h.bitmap]
    rfl
  have hfresh := h.fresh
  rw [hblocks, List.map_cons, List.pairwise_cons] at hfresh
  have hlater : ∀ block ∈ nodeBlocks s.fs.tree.nodes, s.fs.claimed.handle < block.1 :=
    fun block hblock => hfresh.1 block.1 (List.mem_map_of_mem hblock)
  refine ⟨h.allocated, ?_, nodup_of_fresh h.fresh, fun block hblock => (h.range block hblock).1,
    nofun, fun _ => h.nodes, fun _ => ?_,
    fun _ => ⟨rfl, (nodeBlocks s.fs.tree.nodes).map Prod.fst, ?_, ?_⟩⟩
  · show s.host.freed ++ [s.fs.claimed.handle] = _
    rw [h.freed]
  · -- Of the blocks only the bitmap has been freed.
    rw [hblocks, List.filter_cons_of_neg (by simp), List.filter_eq_self.2]
    · exact nodeBlocks_settled h.nodes
    · intro block hblock
      rw [decide_eq_true_eq, List.mem_singleton]
      exact Nat.ne_of_gt (hlater block hblock)
  · have hfree : (publishTree s).fs.memory.free = true := h.free
    rw [fat32Discard_freed hfree]
    exact congrArg ((publishTree s).host.freed ++ ·) (List.append_nil _)
  · rw [hblocks]
    exact .refl _

/-- An import, with any contents of the device and any failures of the device and of the allocator,
returns and accounts for its storage. -/
theorem fat32_import_ownership (host : Host) (device : Option BlockDevice)
    (memory : Option FatAlloc) :
    ∃ s ok allocated freed, fat32Import ⟨.zero, host⟩ device memory = some (s, ok) ∧
      Accounted host s ok allocated freed := by
  have hnothing : Accounted host ⟨.zero, host⟩ false [] [] :=
    ⟨(List.append_nil _).symm, (List.append_nil _).symm, .nil, nofun, fun _ => ⟨rfl, .nil⟩, nofun,
      nofun, nofun⟩
  cases device with
  | none => exact ⟨_, false, [], [], rfl, hnothing⟩
  | some device =>
    cases memory with
    | none => exact ⟨_, false, [], [], rfl, hnothing⟩
    | some memory =>
      rw [fat32Import]
      split
      · exact ⟨_, false, [], [], rfl, hnothing⟩
      rename_i hguard
      simp only [not_or, not_not] at hguard
      obtain ⟨-, -, -, hsize, -, hfree⟩ := hguard
      have hstart : Bare host { fs := { Fat32.zero with device := some device, memory }, host } :=
        ⟨rfl, rfl, hfree, rfl, rfl, rfl⟩
      have hends := (importVolume_owned hstart device).and (importVolume_ends rfl hsize rfl rfl)
      generalize importVolume device
        { fs := { Fat32.zero with device := some device, memory }, host } = result at hends
      cases hends with
      | ok h =>
        obtain ⟨⟨u, hu, rfl⟩, -⟩ := h
        exact ⟨_, true, _, _, rfl, hu.accounted⟩
      | error h =>
        obtain ⟨howned, hrejected⟩ := h
        rw [hrejected]
        obtain ⟨freed, haccounted⟩ := howned.accounted
        exact ⟨_, false, _, freed, rfl, haccounted⟩

end Import

end Utamo.Fat
