import Utamo.Fat.Names
import Utamo.Fat.Reading

/-!
# Directories

The tree that the import builds is that of the volume. A directory is read entry by entry; the
specification of a run of entries says which items of the tree they stand for (`Grows`), and runs
compose as the positions of the entries do.
-/

set_option autoImplicit false

namespace Utamo.Fat

open Lib Lib.ByteMemory Vfs

/-! ## Growing trees -/

/-- The clusters of the items of a tree. -/
def chainsOf (items : List TreeItem) : List Nat := items.flatMap TreeItem.chain

/-- The part of a directory that was read: it added the nodes of the items, and it claimed the
clusters `own` of the directory and those of the items. -/
structure Grows (v : Volume) (s s' : Import) (own : List Nat) (items : List TreeItem) : Prop where
  progress : Progress v s s' (own ++ chainsOf items)
  nodes : s'.fs.tree.nodes.map nodeView = s.fs.tree.nodes.map nodeView ++ items.map TreeItem.node
  covers : ∀ item ∈ items, item.node.type = .file → item.node.size ≠ 0 →
    Covers v item.chain item.node.size

section Growth

variable {v : Volume} {s s' s'' : Import} {own own' : List Nat} {items items' : List TreeItem}

/-- A step that leaves the tree alone. -/
theorem Grows.quiet (h : Progress v s s' own) (htree : s'.fs.tree = s.fs.tree) :
    Grows v s s' own [] := by
  refine ⟨?_, ?_, nofun⟩
  · rw [chainsOf, List.flatMap_nil, List.append_nil]
    exact h
  · rw [htree, List.map_nil, List.append_nil]

theorem perm_append_four (a b c d : List Nat) :
    ((a ++ b) ++ (c ++ d)).Perm ((a ++ c) ++ (b ++ d)) := by
  rw [List.append_assoc, List.append_assoc]
  refine List.Perm.append_left a ?_
  rw [← List.append_assoc, ← List.append_assoc]
  exact List.Perm.append_right d List.perm_append_comm

theorem Grows.trans (h : Grows v s s' own items) (h' : Grows v s' s'' own' items') :
    Grows v s s'' (own ++ own') (items ++ items') := by
  refine ⟨(h.progress.trans h'.progress).perm ?_, ?_, fun item hitem => ?_⟩
  · rw [chainsOf, chainsOf, chainsOf, List.flatMap_append]
    exact perm_append_four _ _ _ _
  · rw [h'.nodes, h.nodes, List.map_append, List.append_assoc]
  · exact (List.mem_append.1 hitem).elim (h.covers item) (h'.covers item)

/-- A claim of the directory before a part of it is read. -/
theorem Claimed.grows {cluster : Nat} (h : Claimed v s s' cluster) (h' : Grows v s' s'' own items)
    (hmirrors : v.Mirrors cluster) : Grows v s s'' (cluster :: own) items := by
  refine ⟨h.progress h'.progress hmirrors, ?_, h'.covers⟩
  rw [h'.nodes, h.tree]

end Growth

/-! ## Entries of a directory -/

/-- The live entries at a list of positions, up to the first end marker. -/
def Volume.liveOf (v : Volume) (positions : List Nat) : List Nat :=
  (positions.takeWhile fun position => v.entryAt position 0 ≠ 0).filter v.isLive

/-- Whether one of the positions holds an end marker. -/
def Volume.endsIn (v : Volume) (positions : List Nat) : Bool :=
  positions.any fun position => v.entryAt position 0 = 0

section Entries

variable {v : Volume} {path : Path} {positions positions' : List Nat} {items items' : List TreeItem}

theorem liveOf_cons {position : Nat} (h : v.entryAt position 0 ≠ 0) :
    v.liveOf (position :: positions) = [position].filter v.isLive ++ v.liveOf positions := by
  rw [Volume.liveOf, List.takeWhile_cons_of_pos]
  · exact List.filter_append [position] _
  · simpa using h

theorem liveOf_cons_end {position : Nat} (h : v.entryAt position 0 = 0) :
    v.liveOf (position :: positions) = [] := by
  rw [Volume.liveOf, List.takeWhile_cons_of_neg]
  · rfl
  · simpa using h

/-- Behind an end marker nothing is live. -/
theorem liveOf_append : v.liveOf (positions ++ positions') =
    v.liveOf positions ++ if v.endsIn positions then [] else v.liveOf positions' := by
  induction positions with
  | nil => rfl
  | cons position positions ih =>
    by_cases hend : v.entryAt position 0 = 0
    · have hany : v.endsIn (position :: positions) = true := by
        simp [Volume.endsIn, hend]
      rw [List.cons_append, liveOf_cons_end hend, liveOf_cons_end hend, hany]
      rfl
    · have hany : v.endsIn (position :: positions) = v.endsIn positions := by
        simp [Volume.endsIn, hend]
      rw [List.cons_append, liveOf_cons hend, liveOf_cons hend, hany, ih, List.append_assoc]

theorem endsIn_append :
    v.endsIn (positions ++ positions') = (v.endsIn positions || v.endsIn positions') :=
  List.any_append

theorem ReadsEntries.append {path : Path} {positions positions' : List Nat}
    {items items' : List TreeItem} :
    ReadsEntries v path positions items → ReadsEntries v path positions' items' →
      ReadsEntries v path (positions ++ positions') (items ++ items')
  | .nil, h' => h'
  | .file hfile hchain hrest, h' => .file hfile hchain (hrest.append h')
  | .directory hdir hchildren hrest, h' => by
      rw [List.cons_append, List.cons_append, List.append_assoc]
      exact .directory hdir hchildren (hrest.append h')

end Entries

/-! ## Directories -/

section Directories

variable {v : Volume} {descend : Nat → Nat → Path → FatM PUnit}

/-- What a call that reads a directory guarantees. -/
def ReadsBelow (v : Volume) (descend : Nat → Nat → Path → FatM PUnit) : Prop :=
  ∀ s cluster parent path, Mounted v s → Ends (descend cluster parent path s) (fun _ s' =>
    ∃ chain items, ReadsDirectory v cluster path chain items ∧ Grows v s s' chain items) Rejects

/-- The positions of the entries in the sectors of a cluster from sector `i` on. -/
def sectorEntries (lba left i : Nat) : List Nat :=
  (List.range (left * 16)).map fun k => (lba + i) * 512 + 32 * k

theorem sectorEntries_succ (lba left i : Nat) : sectorEntries lba (left + 1) i =
    (List.range 16).map (fun k => (lba + i) * 512 + 0 + 32 * k) ++
      sectorEntries lba left (i + 1) := by
  rw [sectorEntries, Nat.succ_mul, Nat.add_comm (left * 16) 16, List.range_add, List.map_append,
    List.map_map]
  refine congrArg₂ (· ++ ·) (List.map_congr_left fun k _ => ?_) (List.map_congr_left fun k _ => ?_)
  · rw [Nat.add_zero]
  · change (lba + i) * 512 + 32 * (16 + k) = _
    omega

theorem sectorEntries_cluster {s : Import} (h : Mounted v s) (cluster : Nat) :
    sectorEntries (clusterLba s.fs cluster) s.fs.sectorsPerCluster 0 =
      v.clusterEntries cluster := by
  have hdata : s.fs.dataStart = v.boot.overhead := h.layout.dataStart
  have hspc : s.fs.sectorsPerCluster = v.boot.sectorsPerCluster := h.layout.sectorsPerCluster
  rw [sectorEntries, Volume.clusterEntries, Volume.clusterStart, clusterLba, hdata,
    hspc, Nat.add_zero]

section Below

variable (hv : v.Sane) (hdescend : ReadsBelow v descend) {s : Import} (h : Mounted v s)

include hv hdescend h

/-- An entry becomes a node, and what is below it is read. -/
theorem addEntry_ends (first : Nat) (path : Path) (position : Nat) :
    Ends (addEntry descend first path (entryName (v.entryAt position)) (v.entryAt position) s)
      (fun _ s' => ∃ items, ReadsEntries v path [position] items ∧ Grows v s s' [] items)
      Rejects := by
  rw [addEntry]
  refine .read (.check (fun hlimits => ?_) fun _ => rfl)
  refine .check (fun _ => ?_) fun _ => rfl
  refine .check (fun _ => ?_) fun _ => rfl
  refine .write ?_
  generalize hnode : entryNode path (entryName (v.entryAt position)) (v.entryAt position) = node
  have h₁ : Mounted v (s.setNodes (s.fs.tree.nodes ++ [node])) := ⟨h.layout, h.visited, h.cache⟩
  have hstart : Progress v s (s.setNodes (s.fs.tree.nodes ++ [node])) [] := .nil h₁ rfl rfl
  have hnil : ReadsEntries v path [] [] := .nil
  rw [readNode]
  split
  · rename_i hdir
    refine (hdescend _ _ _ _ h₁).mono ?_ fun _ _ he => he
    rintro _ s₂ ⟨chain, children, hreads, hgrows⟩
    have hpath : node.path = path ++ slash :: entryName (v.entryAt position) := by rw [← hnode]; rfl
    rw [hpath] at hreads
    have hsize : entrySize (v.entryAt position) = 0 := not_not.1 fun hne => hlimits.2 ⟨hdir, hne⟩
    have hview : nodeView node = ⟨path ++ slash :: entryName (v.entryAt position), .directory,
        entrySize (v.entryAt position), []⟩ := by
      rw [← hnode, nodeView, entryNode]
      simp only [hsize, hdir, if_true]
      rfl
    refine ⟨_, .directory hdir hreads hnil, ?_, ?_, ?_⟩
    · have hall := hstart.trans hgrows.progress
      rw [chainsOf, List.flatMap_cons, List.append_nil]
      exact hall
    · rw [hgrows.nodes, List.append_nil, List.map_cons, ← hview]
      change (s.fs.tree.nodes ++ [node]).map nodeView ++ _ = _
      rw [List.map_append, List.append_assoc]
      rfl
    · intro item hitem hfile
      rw [List.append_nil] at hitem
      rcases List.mem_cons.1 hitem with rfl | hitem
      · cases hfile
      · exact hgrows.covers item hitem hfile
  · rename_i hfile
    rw [Bool.not_eq_true] at hfile
    refine (readFile_ends hv h₁ rfl _).mono ?_ fun _ _ he => he
    rintro _ s₂ ⟨chain, data, hchain, hcovers, hprogress, hnodes, hdata⟩
    have hsize : node.size = entrySize (v.entryAt position) := by rw [← hnode]; rfl
    rw [hsize] at hchain hcovers hdata
    have hview : nodeView { node with data } = ⟨path ++ slash :: entryName (v.entryAt position),
        .file, entrySize (v.entryAt position),
        (v.chainBytes chain).take (entrySize (v.entryAt position))⟩ := by
      rw [nodeView]
      simp only [hsize, hdata]
      rw [← hnode, entryNode]
      simp only [hfile, Bool.false_eq_true, if_false]
    refine ⟨_, .file hfile hchain hnil, ?_, ?_, ?_⟩
    · have hall := hstart.trans hprogress
      rw [chainsOf, List.flatMap_cons, List.flatMap_nil, List.append_nil]
      exact hall
    · rw [hnodes, List.map_append, List.map_singleton, List.map_singleton, hview]
    · intro item hitem _ hne
      rw [List.mem_singleton.1 hitem] at hne ⊢
      exact hcovers hne

theorem namedEntry_ends (first : Nat) (path : Path) (position : Nat) :
    Ends (namedEntry descend first path (v.entryAt position) s)
      (fun _ s' => ∃ items, ReadsEntries v path [position] items ∧ Grows v s s' [] items)
      Rejects := by
  rw [namedEntry]
  cases hname : shortName (v.entryAt position) with
  | none => exact .throw rfl
  | some name =>
    rw [(shortName_eq hname).1]
    exact addEntry_ends hv hdescend h first path position

/-- An entry of a directory: a node if it is live, and nothing otherwise. -/
theorem directoryEntry_ends (first parent : Nat) (path : Path) (position : Nat) :
    Ends (directoryEntry descend first parent path (v.entryAt position) s)
      (fun _ s' => ∃ items, ReadsEntries v path ([position].filter v.isLive) items ∧
        Grows v s s' [] items) Rejects := by
  -- The steps that skip an entry.
  have hskip : v.isLive position = false → ∃ items,
      ReadsEntries v path ([position].filter v.isLive) items ∧ Grows v s s [] items := by
    intro hdead
    refine ⟨[], ?_, .quiet (.kept h (.refl s)) rfl⟩
    rw [List.filter_cons, hdead]
    exact .nil
  rw [directoryEntry]
  split
  · rename_i hdeleted
    refine .pure (hskip ?_)
    rw [Volume.isLive, decide_eq_false_iff_not]
    exact fun hlive => hdeleted.elim hlive.1 hlive.2.1
  · rename_i hpresent
    rw [not_or] at hpresent
    refine .check (fun _ => ?_) fun _ => rfl
    split
    · rename_i hlabel
      refine .ensure (fun _ => hskip ?_) fun _ => rfl
      rw [Volume.isLive, decide_eq_false_iff_not]
      exact fun hlive => hlabel hlive.2.2.1
    · rename_i hlabel
      rw [not_not] at hlabel
      split
      · rename_i hdot
        refine .ensure (fun _ => hskip ?_) fun _ => rfl
        rw [Volume.isLive, decide_eq_false_iff_not]
        exact fun hlive => hlive.2.2.2 hdot
      · rename_i hdot
        have hlive : v.isLive position = true := by
          rw [Volume.isLive, decide_eq_true_eq]
          exact ⟨hpresent.1, hpresent.2, hlabel, hdot⟩
        rw [List.filter_cons, hlive]
        exact namedEntry_ends hv hdescend h first path position

/-- The loop over the entries of a sector. -/
theorem directoryEntries_ends (first parent : Nat) (path : Path) (start left i : Nat) :
    Ends (directoryEntries descend first parent path (fun k => v.disk (start + k)) left i s)
      (fun ended s' => ∃ items,
        ReadsEntries v path (v.liveOf ((List.range left).map fun k => start + i + 32 * k)) items ∧
        Grows v s s' [] items ∧
        ended = v.endsIn ((List.range left).map fun k => start + i + 32 * k)) Rejects := by
  induction left generalizing i s with
  | zero => exact .pure ⟨[], .nil, .quiet (.kept h (.refl s)) rfl, rfl⟩
  | succ left ih =>
    have hentry : (fun k => v.disk (start + (i + k))) = v.entryAt (start + i) := by
      funext k
      rw [Volume.entryAt, Nat.add_assoc]
    have hpositions : (List.range (left + 1)).map (fun k => start + i + 32 * k) =
        (start + i) :: (List.range left).map fun k => start + (i + 32) + 32 * k := by
      rw [List.range_succ_eq_map, List.map_cons, List.map_map]
      refine congrArg₂ (· :: ·) (by omega) (List.map_congr_left fun k _ => ?_)
      change start + i + 32 * (k + 1) = _
      omega
    rw [directoryEntries, hpositions]
    simp only [hentry]
    split
    · rename_i hzero
      have hend : v.entryAt (start + i) 0 = 0 := by
        rw [← hentry]
        exact hzero
      refine .pure ⟨[], ?_, .quiet (.kept h (.refl s)) rfl, ?_⟩
      · rw [liveOf_cons_end hend]
        exact .nil
      · simp [Volume.endsIn, hend]
    · rename_i hnonzero
      have hgoes : v.entryAt (start + i) 0 ≠ 0 := by
        rw [← hentry]
        exact hnonzero
      refine .seq (directoryEntry_ends hv hdescend h first parent path (start + i)) ?_
      rintro _ s₁ ⟨items, hreads, hgrows⟩
      refine (ih hgrows.progress.mounted (i + 32)).mono ?_ fun _ _ he => he
      rintro ended s₂ ⟨items', hreads', hgrows', hended⟩
      refine ⟨items ++ items', ?_, hgrows.trans hgrows', ?_⟩
      · rw [liveOf_cons hgoes]
        exact hreads.append hreads'
      · rw [hended]
        simp [Volume.endsIn, hgoes]

/-- The loop over the sectors of a cluster. -/
theorem directorySectors_ends (first parent : Nat) (path : Path) (lba left i : Nat) :
    Ends (directorySectors descend first parent path lba left i s)
      (fun ended s' => ∃ items,
        ReadsEntries v path (v.liveOf (sectorEntries lba left i)) items ∧ Grows v s s' [] items ∧
        ended = v.endsIn (sectorEntries lba left i)) Rejects := by
  induction left generalizing i s with
  | zero => exact .pure ⟨[], .nil, .quiet (.kept h (.refl s)) rfl, rfl⟩
  | succ left ih =>
    rw [directorySectors, sectorEntries_succ, liveOf_append, endsIn_append]
    refine .seq (h.sector_ends _) ?_
    rintro _ s₁ ⟨rfl, h₁, hkept₁⟩
    have hread : Grows v s s₁ [] [] := .quiet (.kept h₁ hkept₁) hkept₁.tree
    refine .seq (directoryEntries_ends hv hdescend h₁ first parent path _ 16 0) ?_
    rintro ended s₂ ⟨items, hreads, hgrows, hended⟩
    rw [← hended]
    cases ended with
    | true =>
      refine .pure ⟨items, ?_, hread.trans hgrows, rfl⟩
      rw [if_pos rfl, List.append_nil]
      exact hreads
    | false =>
      refine (ih hgrows.progress.mounted (i + 1)).mono ?_ fun _ _ he => he
      rintro ended' s₃ ⟨items', hreads', hgrows', hended'⟩
      refine ⟨items ++ items', ?_, (hread.trans hgrows).trans hgrows', ?_⟩
      · exact hreads.append hreads'
      · rw [hended', Bool.false_or]

theorem directoryCluster_ends (first parent : Nat) (path : Path) (cluster : Nat) (ended : Bool) :
    Ends (directoryCluster descend first parent path s.fs cluster ended s)
      (fun ended' s' => ∃ items,
        ReadsEntries v path (if ended then [] else v.liveOf (v.clusterEntries cluster)) items ∧
        Grows v s s' [] items ∧
        ended' = (ended || v.endsIn (v.clusterEntries cluster))) Rejects := by
  rw [directoryCluster]
  cases ended with
  | true => exact .pure ⟨[], .nil, .quiet (.kept h (.refl s)) rfl, rfl⟩
  | false =>
    rw [← sectorEntries_cluster h]
    exact directorySectors_ends hv hdescend h first parent path _ _ 0

/-- The loop over the clusters: the chain of the directory is claimed to its end, and its entries
are read up to the end marker. -/
theorem directoryClusters_ends (first parent : Nat) (path : Path) (fuel cluster : Nat)
    (ended : Bool) (hfuel : 16384 < fuel + s.fs.visited) :
    Ends (directoryClusters descend first parent path fuel cluster ended s)
      (fun _ s' => ∃ chain items, v.Chain cluster chain ∧
        ReadsEntries v path (if ended then [] else v.liveEntries chain) items ∧
        Grows v s s' chain items) Rejects := by
  induction fuel generalizing s cluster ended with
  | zero =>
    have hvisited := h.visited
    omega
  | succ fuel ih =>
    rw [directoryClusters]
    refine .seq (claim_ends h cluster) ?_
    intro _ s₁ hclaim
    refine .read ?_
    refine .seq (directoryCluster_ends hv hdescend hclaim.mounted first parent path
      cluster ended) ?_
    rintro ended' s₂ ⟨items, hreads, hgrows, hended⟩
    refine .seq (entry_ends hgrows.progress.mounted cluster) ?_
    rintro next s₃ ⟨hnext, hmirrors, h₃, hkept₃⟩
    have hall : Grows v s s₃ [cluster] items := by
      have hquiet : Grows v s₂ s₃ [] [] := .quiet (.kept h₃ hkept₃) hkept₃.tree
      have htotal := hclaim.grows (hgrows.trans hquiet) hmirrors
      rw [List.append_nil items] at htotal
      exact htotal
    split
    · rename_i hend
      rw [hnext] at hend
      refine .pure ⟨[cluster], items, .last hclaim.inRange hend, ?_, hall⟩
      rw [Volume.liveEntries, List.flatMap_singleton]
      exact hreads
    · refine .check (fun hvalid => ?_) fun _ => rfl
      rw [inRange_iff hclaim.mounted] at hvalid
      have hlink : v.next cluster < endOfChain := by
        rw [← hnext]
        exact hv.inRange_lt hvalid
      have hvisited := hall.progress.visited
      rw [List.length_append, List.length_singleton] at hvisited
      refine (ih h₃ next ended' (by omega)).mono ?_ fun _ _ he => he
      rintro _ s₄ ⟨chain, items', hchain, hreads', hgrows'⟩
      rw [hnext] at hchain
      refine ⟨cluster :: chain, items ++ items', .link hclaim.inRange hlink hchain, ?_,
        hall.trans hgrows'⟩
      have hlive : v.liveEntries (cluster :: chain) =
          v.liveOf (v.clusterEntries cluster ++ chain.flatMap v.clusterEntries) := rfl
      rw [hlive, liveOf_append]
      cases ended with
      | true =>
        rw [hended] at hreads'
        exact hreads.append hreads'
      | false =>
        rw [hended, Bool.false_or] at hreads'
        exact hreads.append hreads'

end Below

/-- `directory` reads the tree below a cluster. -/
theorem directory_ends (hv : v.Sane) (levels : Nat) : ReadsBelow v (directory levels) := by
  induction levels with
  | zero =>
    intro s cluster parent path _
    exact .throw rfl
  | succ levels ih =>
    intro s cluster parent path h
    rw [directory]
    have hfuel : 16384 < chainRounds + s.fs.visited := Nat.lt_add_right _ (by decide)
    refine (directoryClusters_ends hv ih h cluster parent path chainRounds cluster false hfuel).mono
      ?_ fun _ _ he => he
    rintro _ s' ⟨chain, items, hchain, hreads, hgrows⟩
    exact ⟨chain, items, .directory hchain hreads, hgrows⟩

end Directories

end Utamo.Fat
