import Utamo.Lib.Transition
import Utamo.Vfs.Initramfs

/-!
# The mounted trees

`vfs_mount_root` and `vfs_mount_subtree` of `kernel/fs/vfs.c` publish trees of files. The first tree
is the initial file system, the others are directories beside it; trees are never removed, and a
lookup asks them in the order in which they were mounted.

The checks of `vfs_mount_subtree` make the union of the trees one tree (`Mounts.Inv`): a path is in
one node at most and has its directory in the union. Since trees are only added behind the others, a
lookup that found a node finds the same one later.
-/

set_option autoImplicit false

namespace Utamo.Vfs

open Lib

variable {i : Nat} {node : VfsNode}

/-! ## Model -/

/-- `root`, `mounts` and `mount_count`. -/
structure Mounts where
  root : Option Ramfs
  mounts : List Ramfs

/-- The state before the first mount. -/
def Mounts.empty : Mounts := ⟨none, []⟩

/-- The nodes of all mounted trees. -/
def Mounts.nodes (m : Mounts) : List VfsNode := m.mounts.flatMap Ramfs.nodes

/-- `vfs_lookup` -/
def vfsLookup (m : Mounts) (path : Path) : Option VfsNode :=
  m.mounts.findSome? fun fs => ramfsLookup fs path

/-- `vfs_mount_root`; `none` is a null pointer. -/
def vfsMountRoot (m : Mounts) : Option Ramfs → Mounts × Bool
  | none => (m, false)
  | some fs =>
    if m.root.isSome ∨ ¬ fs.ready ∨ fs.nodes.length = 0 ∨ vfsNodeLimit < fs.nodes.length then
    (m, false) else (⟨some fs, m.mounts ++ [fs]⟩, true)

/-- The path of the directory of a node, as `vfs_mount_subtree` computes it. -/
def subtreeParent (path : Path) : Path := path.take (lastSlash path path.length)

/-- The checks of `vfs_mount_subtree` for the node number `i` of a tree, in the order of
the source. -/
def subtreeNode (m : Mounts) (fs : Ramfs) (base : Path) (node : VfsNode) (i : Nat) : Bool :=
  if ¬ vfsPathValid node.path ∨ (vfsLookup m node.path).isSome ∨
      (node.type ≠ .directory ∧ node.type ≠ .file) ∨
      (node.type = .file ∧ node.size ≠ 0 ∧ node.data.handle = 0) ∨
      -- `strncmp(node->path, base, prefix)`
      node.path.take base.length ≠ base ∨
      (i ≠ 0 ∧ charAt node.path base.length ≠ slash) then
    false
  else if (fs.nodes.take i).any fun other => node.path = other.path then false
  else if i ≠ 0 then
    match ramfsLookup fs (subtreeParent node.path) with
    | none => false
    | some directory => directory.type = .directory
  else true

/-- `vfs_mount_subtree` -/
def vfsMountSubtree (m : Mounts) : Option Ramfs → Mounts × Bool
  | none => (m, false)
  | some fs =>
    match fs.nodes with
    | [] => (m, false)
    | first :: _ =>
      if m.root.isNone ∨ ¬ fs.ready ∨ vfsNodeLimit < fs.nodes.length ∨ m.mounts.length = 4 ∨
          first.type ≠ .directory ∨ ¬ vfsPathValid first.path ∨ charAt first.path 1 = 0 then
        (m, false)
      else
        let base := first.path
        if anyRange 1 base.length fun i => charAt base i = slash then (m, false)
        else if fs.nodes.zipIdx.all fun p => subtreeNode m fs base p.1 p.2 then
          (⟨m.root, m.mounts ++ [fs]⟩, true)
        else (m, false)

/-! ## The directory of a path -/

/-- `directory` is the path of the directory that `path` names an entry of. -/
def ParentOf (directory path : Path) : Prop :=
  ∃ name, slash ∉ name ∧
    (path = directory ++ slash :: name ∨ directory = rootPath ∧ path = slash :: name)

section Paths

variable {path : Path}

theorem lastSlash_le (path : Path) (i : Nat) : lastSlash path i ≤ i := by
  induction i with
  | zero => exact Nat.le_refl 0
  | succ i ih =>
    rw [lastSlash]
    split
    · exact Nat.le_refl _
    · exact Nat.le_succ_of_le ih

/-- The character at the result is a slash, if the first one is. -/
theorem charAt_lastSlash (h : charAt path 0 = slash) (i : Nat) :
    charAt path (lastSlash path i) = slash := by
  induction i with
  | zero => exact h
  | succ i ih =>
    rw [lastSlash]
    split
    · assumption
    · exact ih

/-- There is no slash behind the result. -/
theorem charAt_of_lastSlash_lt {j : Nat} (hlow : lastSlash path i < j) (hhigh : j ≤ i) :
    charAt path j ≠ slash := by
  induction i with
  | zero =>
    rw [lastSlash] at hlow
    omega
  | succ i ih =>
    rw [lastSlash] at hlow
    split at hlow
    · omega
    · rename_i hne
      by_cases hj : j = i + 1
      · rw [hj]
        exact hne
      · exact ih hlow (by omega)

theorem length_pos_of_charAt {c : UInt8} (hc : c ≠ 0) (h : charAt path i = c) :
    i < path.length := by
  by_contra hlong
  rw [charAt, List.getD_eq_default _ _ (by omega)] at h
  exact hc h.symm

/-- A path ends with a slash and a name without one. -/
theorem split_lastSlash (h : charAt path 0 = slash) :
    ∃ name, slash ∉ name ∧
      path = path.take (lastSlash path (path.length - 1)) ++ slash :: name := by
  have hpos : 0 < path.length := length_pos_of_charAt (by decide) h
  have hle := lastSlash_le path (path.length - 1)
  have hchar := charAt_lastSlash h (path.length - 1)
  have hbehind : ∀ j, lastSlash path (path.length - 1) < j → j ≤ path.length - 1 →
      charAt path j ≠ slash := fun j => charAt_of_lastSlash_lt
  generalize lastSlash path (path.length - 1) = i at hle hchar hbehind
  have hi : i < path.length := by omega
  rw [charAt, List.getD_eq_getElem _ _ hi] at hchar
  refine ⟨path.drop (i + 1), ?_, ?_⟩
  · intro hmem
    obtain ⟨k, hk, hslash⟩ := List.getElem_of_mem hmem
    rw [List.length_drop] at hk
    rw [List.getElem_drop] at hslash
    apply hbehind (i + 1 + k) (by omega) (by omega)
    rw [charAt, List.getD_eq_getElem _ _ (by omega)]
    exact hslash
  · rw [← hchar, List.cons_getElem_drop_succ, List.take_append_drop]

theorem take_one (h : charAt path 0 = slash) : path.take 1 = rootPath := by
  cases path with
  | nil => exact absurd h (by decide)
  | cons c path =>
    have hc : c = slash := h
    rw [hc]
    rfl

/-- What `parse` computes is the directory of the path. -/
theorem parentPath_parentOf (h : charAt path 0 = slash) : ParentOf (parentPath path) path := by
  obtain ⟨name, hname, hsplit⟩ := split_lastSlash h
  refine ⟨name, hname, ?_⟩
  rw [parentPath]
  split
  · rename_i hzero
    rw [hzero, List.take_zero, List.nil_append] at hsplit
    exact Or.inr ⟨take_one h, hsplit⟩
  · exact Or.inl hsplit

/-- What `vfs_mount_subtree` computes is the directory of the path. -/
theorem subtreeParent_parentOf (h : charAt path 0 = slash) :
    ParentOf (subtreeParent path) path := by
  obtain ⟨name, hname, hsplit⟩ := split_lastSlash h
  refine ⟨name, hname, Or.inl ?_⟩
  have hpos : 0 < path.length := length_pos_of_charAt (by decide) h
  -- the search starts at the final NUL, which is not a slash
  have hnul : charAt path path.length ≠ slash := by
    rw [charAt, List.getD_eq_default _ _ (Nat.le_refl _)]
    decide
  have hstart : lastSlash path path.length = lastSlash path (path.length - 1) := by
    obtain ⟨n, hn⟩ : ∃ n, path.length = n + 1 := ⟨path.length - 1, by omega⟩
    rw [hn] at hnul ⊢
    rw [lastSlash, if_neg hnul, Nat.add_sub_cancel]
  rw [subtreeParent, hstart]
  exact hsplit

/-- A path has one directory: what `parse` computes. -/
theorem parentPath_eq {directory : Path} (h : ParentOf directory path)
    (hslash : charAt path 0 = slash) (hne : directory ≠ []) : parentPath path = directory := by
  obtain ⟨name, hname, hcase⟩ := h
  -- the last slash stands before the name
  have hlast : ∀ front : Path, path = front ++ slash :: name →
      lastSlash path (path.length - 1) = front.length := by
    intro front hpath
    have hlen : path.length = front.length + (name.length + 1) := by
      rw [hpath, List.length_append, List.length_cons]
    have hchar : charAt path front.length = slash := by
      rw [hpath, charAt, List.getD_append_right _ _ _ _ (Nat.le_refl _), Nat.sub_self]
      rfl
    have hle := lastSlash_le path (path.length - 1)
    rcases Nat.lt_trichotomy (lastSlash path (path.length - 1)) front.length with hlt | heq | hgt
    · exact absurd hchar (charAt_of_lastSlash_lt hlt (by omega))
    · exact heq
    · have hlater := charAt_lastSlash hslash (path.length - 1)
      generalize lastSlash path (path.length - 1) = i at hle hgt hlater
      rw [hpath, charAt, List.getD_append_right _ _ _ _ (by omega)] at hlater
      obtain ⟨k, hk⟩ : ∃ k, i - front.length = k + 1 := ⟨i - front.length - 1, by omega⟩
      rw [hk, List.getD_cons_succ, List.getD_eq_getElem _ _ (by omega)] at hlater
      exact absurd (hlater ▸ List.getElem_mem _) hname
  rw [parentPath]
  rcases hcase with hpath | ⟨hroot, hpath⟩
  · have hpos : 0 < directory.length := List.length_pos_iff.2 hne
    simp only [hlast directory hpath]
    rw [if_neg (by omega), hpath, List.take_left]
  · simp only [hlast [] hpath, List.length_nil, if_true]
    rw [hroot, take_one hslash]

theorem slash_of_valid (h : vfsPathValid path = true) : charAt path 0 = slash := by
  rw [vfsPathValid] at h
  by_contra hne
  rw [if_pos hne] at h
  cases h

/-- A path without a second slash is in the root directory. -/
theorem root_parentOf (h : charAt path 0 = slash)
    (hplain : ∀ i, 1 ≤ i → i < path.length → charAt path i ≠ slash) : ParentOf rootPath path := by
  obtain ⟨name, hname, hsplit⟩ := split_lastSlash h
  have hpos : 0 < path.length := length_pos_of_charAt (by decide) h
  have hle := lastSlash_le path (path.length - 1)
  have hzero : lastSlash path (path.length - 1) = 0 := by
    by_contra hne
    have hchar := charAt_lastSlash h (path.length - 1)
    exact hplain (lastSlash path (path.length - 1)) (by omega) (by omega) hchar
  rw [hzero, List.take_zero, List.nil_append] at hsplit
  exact ⟨name, hname, Or.inr ⟨rfl, hsplit⟩⟩

end Paths

/-! ## The union of the trees -/

/-- The union of the mounted trees is a tree. -/
structure Mounts.Inv (m : Mounts) : Prop where
  limit : ∀ fs ∈ m.mounts, fs.nodes.length ≤ vfsNodeLimit
  valid : ∀ node ∈ m.nodes, vfsPathValid node.path = true
  unique : (m.nodes.map VfsNode.path).Nodup
  parent : ∀ node ∈ m.nodes, node.path ≠ rootPath →
    ∃ directory ∈ m.nodes, ParentOf directory.path node.path ∧ directory.type = .directory
  root : m.root.isSome → ∃ node ∈ m.nodes, node.path = rootPath ∧ node.type = .directory
  empty : m.root.isNone → m.mounts = []

section Union

variable {m : Mounts} {fs : Ramfs}

theorem mounts_nodes_snoc (root : Option Ramfs) (mounts : List Ramfs) (fs : Ramfs) :
    (⟨root, mounts ++ [fs]⟩ : Mounts).nodes = (⟨root, mounts⟩ : Mounts).nodes ++ fs.nodes := by
  rw [Mounts.nodes, List.flatMap_append, List.flatMap_singleton, Mounts.nodes]

theorem mem_mounts_nodes : node ∈ m.nodes ↔ ∃ fs ∈ m.mounts, node ∈ fs.nodes :=
  List.mem_flatMap

/-- A path that is not found is in no mounted tree. -/
theorem vfsLookup_none (h : m.Inv) {path : Path} (hvalid : vfsPathValid path = true)
    (hlookup : vfsLookup m path = none) : ∀ node ∈ m.nodes, node.path ≠ path := by
  intro node hnode
  obtain ⟨fs, hfs, hmem⟩ := mem_mounts_nodes.1 hnode
  have hnone := List.findSome?_eq_none_iff.1 hlookup fs hfs
  exact ramfsLookup_none (h.limit fs hfs) hvalid hnone node hmem

/-- What `vfs_mount_subtree` requires of every node of a tree. -/
structure SubtreeChecked (m : Mounts) (fs : Ramfs) : Prop where
  root : m.root.isSome
  limit : fs.nodes.length ≤ vfsNodeLimit
  valid : ∀ node ∈ fs.nodes, vfsPathValid node.path = true
  new : ∀ node ∈ fs.nodes, vfsLookup m node.path = none
  unique : fs.nodes.Pairwise fun node other => other.path ≠ node.path
  parent : ∀ node ∈ fs.nodes, ParentOf rootPath node.path ∨
    ∃ directory ∈ fs.nodes, ParentOf directory.path node.path ∧ directory.type = .directory

theorem subtreeNode_true {base : Path}
    (h : subtreeNode m fs base node i = true) :
    vfsPathValid node.path = true ∧ vfsLookup m node.path = none ∧
      (∀ other ∈ fs.nodes.take i, node.path ≠ other.path) ∧
      (i ≠ 0 → ∃ directory ∈ fs.nodes, ParentOf directory.path node.path ∧
        directory.type = .directory) := by
  rw [subtreeNode] at h
  split at h
  · cases h
  rename_i hchecks
  rw [not_or, not_not, not_or, Option.not_isSome_iff_eq_none] at hchecks
  split at h
  · cases h
  rename_i hother
  simp only [List.any_eq_true, decide_eq_true_eq, not_exists, not_and] at hother
  refine ⟨hchecks.1, hchecks.2.1, hother, ?_⟩
  intro hi
  rw [if_pos hi] at h
  split at h
  · cases h
  · rename_i directory hdirectory
    obtain ⟨hmem, hpath⟩ := ramfsLookup_mem hdirectory
    refine ⟨directory, hmem, ?_, of_decide_eq_true h⟩
    rw [hpath]
    exact subtreeParent_parentOf (slash_of_valid hchecks.1)

/-- The result of `vfs_mount_subtree`. -/
theorem vfsMountSubtree_cases (m : Mounts) (tree : Option Ramfs) :
    vfsMountSubtree m tree = (m, false) ∨
      ∃ fs, tree = some fs ∧ SubtreeChecked m fs ∧
        vfsMountSubtree m tree = (⟨m.root, m.mounts ++ [fs]⟩, true) := by
  cases tree with
  | none => exact Or.inl rfl
  | some fs =>
    rw [vfsMountSubtree]
    split
    · exact Or.inl rfl
    rename_i first rest hnodes
    simp only
    split
    · exact Or.inl rfl
    rename_i hchecks
    simp only [not_or, Bool.not_eq_true, Bool.not_eq_false, Option.isNone_eq_false_iff, Nat.not_lt,
      not_not] at hchecks
    split
    · exact Or.inl rfl
    rename_i hplain
    rw [Bool.not_eq_true] at hplain
    split
    swap
    · exact Or.inl rfl
    rename_i hall
    refine Or.inr ⟨fs, rfl, ?_, rfl⟩
    -- every node passed its checks, with its own number
    have hnode : ∀ i (hi : i < fs.nodes.length),
        subtreeNode m fs first.path fs.nodes[i] i = true := by
      intro i hi
      have hmem : (fs.nodes[i], i) ∈ fs.nodes.zipIdx := by
        rw [List.mk_mem_zipIdx_iff_getElem?]
        exact List.getElem?_eq_getElem hi
      exact List.all_eq_true.1 hall _ hmem
    have hmem : ∀ node ∈ fs.nodes, ∃ i, ∃ hi : i < fs.nodes.length, node = fs.nodes[i] := by
      intro node hmem
      obtain ⟨i, hi, heq⟩ := List.getElem_of_mem hmem
      exact ⟨i, hi, heq.symm⟩
    refine ⟨hchecks.1, hchecks.2.2.1, ?_, ?_, ?_, ?_⟩
    · intro node hin
      obtain ⟨i, hi, rfl⟩ := hmem node hin
      exact (subtreeNode_true (hnode i hi)).1
    · intro node hin
      obtain ⟨i, hi, rfl⟩ := hmem node hin
      exact (subtreeNode_true (hnode i hi)).2.1
    · rw [List.pairwise_iff_getElem]
      intro j i hj hi hlt
      apply (subtreeNode_true (hnode i hi)).2.2.1
      exact List.mem_take_iff_getElem.2 ⟨j, by omega, rfl⟩
    · intro node hin
      obtain ⟨i, hi, rfl⟩ := hmem node hin
      by_cases hzero : i = 0
      · left
        have hfirst : fs.nodes[i] = first := by
          subst hzero
          simp only [hnodes, List.getElem_cons_zero]
        rw [hfirst]
        apply root_parentOf (slash_of_valid hchecks.2.2.2.2.2.1)
        intro j hlow hhigh
        exact of_decide_eq_false (anyRange_eq_false.1 hplain j hlow hhigh)
      · exact Or.inr ((subtreeNode_true (hnode i hi)).2.2.2 hzero)

/-- The result of `vfs_mount_root`. -/
theorem vfsMountRoot_cases (m : Mounts) (tree : Option Ramfs) :
    vfsMountRoot m tree = (m, false) ∨
      ∃ fs, tree = some fs ∧ m.root.isNone ∧ fs.ready = true ∧
        vfsMountRoot m tree = (⟨some fs, m.mounts ++ [fs]⟩, true) := by
  cases tree with
  | none => exact Or.inl rfl
  | some fs =>
    rw [vfsMountRoot]
    split
    · exact Or.inl rfl
    · rename_i hchecks
      simp only [not_or, Bool.not_eq_true, Bool.not_eq_false, Option.isSome_eq_false_iff] at hchecks
      exact Or.inr ⟨fs, rfl, hchecks.1, hchecks.2.1, rfl⟩

/-- A tree in order that is the only one. -/
theorem Mounts.Inv.of_tree (h : TreeSound fs.nodes) : (⟨some fs, [fs]⟩ : Mounts).Inv := by
  have hnodes : (⟨some fs, [fs]⟩ : Mounts).nodes = fs.nodes := List.flatMap_singleton ..
  refine ⟨?_, ?_, ?_, ?_, ?_, ?_⟩
  · intro fs' hfs'
    rw [List.mem_singleton] at hfs'
    rw [hfs']
    exact h.limit
  · rw [hnodes]
    exact h.valid
  · rw [hnodes]
    exact h.unique
  · rw [hnodes]
    intro node hnode hne
    obtain ⟨directory, hmem, hpath, htype⟩ := h.parent node hnode hne
    refine ⟨directory, hmem, ?_, htype⟩
    rw [hpath]
    exact parentPath_parentOf (slash_of_valid (h.valid node hnode))
  · rw [hnodes]
    intro _
    exact h.root
  · intro hnone
    cases hnone

/-- A checked subtree keeps the union in order. -/
theorem Mounts.Inv.subtree (h : m.Inv) (hfs : SubtreeChecked m fs) :
    (⟨m.root, m.mounts ++ [fs]⟩ : Mounts).Inv := by
  obtain ⟨root, hroot, hrootpath, hroottype⟩ := h.root hfs.root
  refine ⟨?_, ?_, ?_, ?_, ?_, ?_⟩
  · exact List.forall_mem_append.2 ⟨h.limit, List.forall_mem_singleton.2 hfs.limit⟩
  · rw [mounts_nodes_snoc]
    exact List.forall_mem_append.2 ⟨h.valid, hfs.valid⟩
  · rw [mounts_nodes_snoc, List.map_append, List.nodup_append]
    refine ⟨h.unique, ?_, ?_⟩
    · rw [List.Nodup, List.pairwise_map]
      exact hfs.unique.imp fun hne => hne.symm
    · intro path hpath path' hpath' heq
      obtain ⟨old, hold, rfl⟩ := List.mem_map.1 hpath
      obtain ⟨node, hnode, rfl⟩ := List.mem_map.1 hpath'
      exact vfsLookup_none h (hfs.valid node hnode) (hfs.new node hnode) old hold heq
  · rw [mounts_nodes_snoc]
    intro node hnode hne
    rcases List.mem_append.1 hnode with hnode | hnode
    · obtain ⟨directory, hmem, hrest⟩ := h.parent node hnode hne
      exact ⟨directory, List.mem_append_left _ hmem, hrest⟩
    · rcases hfs.parent node hnode with hparent | ⟨directory, hmem, hrest⟩
      · rw [← hrootpath] at hparent
        exact ⟨root, List.mem_append_left _ hroot, hparent, hroottype⟩
      · exact ⟨directory, List.mem_append_right _ hmem, hrest⟩
  · rw [mounts_nodes_snoc]
    intro _
    exact ⟨root, List.mem_append_left _ hroot, hrootpath, hroottype⟩
  · intro hnone
    have hsome : m.root.isSome := hfs.root
    rw [Option.isNone_iff_eq_none.1 hnone] at hsome
    cases hsome

/-- A tree behind the others hides nothing. -/
theorem vfsLookup_snoc {root : Option Ramfs} {path : Path}
    (h : vfsLookup m path = some node) : vfsLookup ⟨root, m.mounts ++ [fs]⟩ path = some node := by
  have hfind : m.mounts.findSome? (fun fs => ramfsLookup fs path) = some node := h
  rw [vfsLookup, List.findSome?_append, hfind]
  rfl

end Union

/-! ## Runs -/

/-- A call that mounts a tree. -/
inductive MountEvent
  | root (fs : Option Ramfs)
  | subtree (fs : Option Ramfs)

/-- The effect of a call and its result. -/
def mountCall (m : Mounts) : MountEvent → Mounts × Bool
  | .root fs => vfsMountRoot m fs
  | .subtree fs => vfsMountSubtree m fs

def mountExec (m : Mounts) (event : MountEvent) : Option Mounts := some (mountCall m event).1

/-- The root is a tree that `ramfs_import` made of a cleared one; a subtree is any tree. -/
def mountEnabled (_ : Mounts) : MountEvent → Prop
  | .root (some fs) => ∃ image size, fs = (ramfsImport .zero image size).1
  | _ => True

/-- The states of the table of mounted trees. -/
def MountReachable : Mounts → Prop :=
  Reachable (· = .empty) mountEnabled mountExec

section Runs

variable {m : Mounts} {event : MountEvent}

/-- A call fails without an effect, or adds a tree behind the others. -/
theorem mountCall_cases (m : Mounts) (event : MountEvent) :
    mountCall m event = (m, false) ∨
      ∃ root fs, mountCall m event = (⟨root, m.mounts ++ [fs]⟩, true) := by
  cases event with
  | root tree =>
    rcases vfsMountRoot_cases m tree with hfail | ⟨fs, -, -, -, hdone⟩
    · exact Or.inl hfail
    · exact Or.inr ⟨some fs, fs, hdone⟩
  | subtree tree =>
    rcases vfsMountSubtree_cases m tree with hfail | ⟨fs, -, -, hdone⟩
    · exact Or.inl hfail
    · exact Or.inr ⟨m.root, fs, hdone⟩

theorem ramfsImport_ready {image : Buffer} {size : Nat}
    (h : (ramfsImport .zero image size).1.ready = true) :
    TreeSound (ramfsImport .zero image size).1.nodes := by
  generalize hres : ramfsImport .zero image size = result at h
  obtain ⟨tree, ok⟩ := result
  cases ok with
  | true => exact (ramfsImport_sound hres).2
  | false =>
    -- a failure leaves a tree that is not ready
    rw [ramfsImport] at hres
    split at hres
    · cases hres
      cases h
    split at hres
    · cases hres
      cases h
    split at hres
    · cases hres
      cases h
    · cases hres

theorem mountCall_inv (h : m.Inv) (hen : mountEnabled m event) : (mountCall m event).1.Inv := by
  cases event with
  | root tree =>
    rcases vfsMountRoot_cases m tree with hfail | ⟨fs, rfl, hnone, hready, hdone⟩
    · rw [mountCall, hfail]
      exact h
    · obtain ⟨image, size, hfs⟩ := hen
      rw [hfs] at hready
      rw [mountCall, hdone, h.empty hnone, List.nil_append]
      apply Mounts.Inv.of_tree
      rw [hfs]
      exact ramfsImport_ready hready
  | subtree tree =>
    rcases vfsMountSubtree_cases m tree with hfail | ⟨fs, rfl, hchecked, hdone⟩
    · rw [mountCall, hfail]
      exact h
    · rw [mountCall, hdone]
      exact h.subtree hchecked

theorem Mounts.empty_inv : Mounts.empty.Inv := by
  refine ⟨?_, ?_, List.nodup_nil, ?_, ?_, fun _ => rfl⟩
  · intro fs hfs
    cases hfs
  · intro node hnode
    cases hnode
  · intro node hnode
    cases hnode
  · intro hsome
    cases hsome

theorem MountReachable.inv (h : MountReachable m) : m.Inv := by
  refine Reachable.invariant ?_ ?_ h
  · rintro _ rfl
    exact Mounts.empty_inv
  · intro m event m' hm hen hexec
    cases hexec
    exact mountCall_inv hm hen

/-- In every state of the table a path is in one node of the mounted trees at most, and every node
but the root has its directory among them. A call that is rejected changes nothing; one that
succeeds does not change what a path leads to. -/
theorem vfs_namespace_integrity (h : MountReachable m) :
    (m.nodes.map VfsNode.path).Nodup ∧
      (∀ node ∈ m.nodes, node.path ≠ rootPath →
        ∃ directory ∈ m.nodes, ParentOf directory.path node.path ∧ directory.type = .directory) ∧
      (∀ event, (mountCall m event).2 = false → (mountCall m event).1 = m) ∧
      (∀ event path node, vfsLookup m path = some node →
        vfsLookup (mountCall m event).1 path = some node) := by
  refine ⟨h.inv.unique, h.inv.parent, ?_, ?_⟩
  · intro event hresult
    rcases mountCall_cases m event with hfail | ⟨root, fs, hdone⟩
    · rw [hfail]
    · rw [hdone] at hresult
      cases hresult
  · intro event path node hfound
    rcases mountCall_cases m event with hfail | ⟨root, fs, hdone⟩
    · rw [hfail]
      exact hfound
    · rw [hdone]
      exact vfsLookup_snoc hfound

end Runs

/-- An archive that has nothing but its trailer. -/
def bareArchive : Buffer :=
  ⟨1, fun i => (cpioMagic ++ List.replicate 95 48 ++ [98] ++ List.replicate 8 48 ++
    trailerName).getD i 0⟩

/-- The subtree `/d` with a file of three bytes. -/
def oneFileTree : Ramfs :=
  ⟨[⟨[47, 100], .null, 0, .directory, 0o755⟩,
    ⟨[47, 100, 47, 102], ⟨2, fun _ => 7⟩, 3, .file, 0o644⟩], true⟩

/-- The table after the root and a subtree were mounted. -/
def mountedTable : Mounts :=
  (mountCall (mountCall .empty (.root (some (ramfsImport .zero bareArchive 124).1))).1
    (.subtree (some oneFileTree))).1

theorem mountedTable_reachable : MountReachable mountedTable := by
  have hstart : MountReachable .empty := Reachable.start rfl
  have hroot := hstart.step
    (show mountEnabled .empty (.root (some (ramfsImport .zero bareArchive 124).1)) from
      ⟨bareArchive, 124, rfl⟩) rfl
  exact hroot.step (a := .subtree (some oneFileTree)) trivial rfl

theorem vfs_namespace_integrity_mounted :
    mountedTable.nodes.map VfsNode.path = [[47], [47, 100], [47, 100, 47, 102]] ∧
      (mountedTable.nodes.map VfsNode.path).Nodup :=
  ⟨by decide +kernel, (vfs_namespace_integrity mountedTable_reachable).1⟩

end Utamo.Vfs
