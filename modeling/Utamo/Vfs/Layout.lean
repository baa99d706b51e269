import Utamo.Vfs.Namespace

/-!
# Archives are not trusted

The lengths in an archive may have any value. `ramfsImportExact` is `ramfs_import` with checked
operators: it has no value if the source would read a byte behind the image, write behind a path or
the array of nodes, wrap, or go on without end. It always has a value, that of `ramfsImport`
(`ramfsImportExact_eq`).

An archive that is accepted is a chain of entries (`Laid`): each header stands behind the contents
of the entry before it, so that no two ranges of contents overlap and none of them overlaps a
header or a name.
-/

set_option autoImplicit false

namespace Utamo.Vfs

open Lib Lib.ByteMemory

/-! ## The checked parser -/

section Exact

variable (image : Buffer) (size : Nat)

/-- `hex8`; the inner `none` is a byte that is no digit. -/
def hex8Exact (text : Nat) : Option (Option Nat) :=
  forRangeExact 0 8 (fun i value => do
    let c ← fetch image.bytes size (text + i)
    return (hexDigit c).map fun digit => 16 * value + digit) 0

/-- `(a + b + 3) & ~3` -/
def alignedSumExact (a b : Nat) : Option Nat := do
  return (← addExact (← addExact a b) 3) &&& notU64 3

/-- The part of a round that makes a node. -/
def parseNodeExact (nodes : List VfsNode) (mode links bytes name namesize data : Nat) :
    Option (Option ParseStep) := do
  let type := mode &&& modeTypeMask
  if ← (pure (decide (type ≠ modeFile ∧ type ≠ modeDirectory)) <||>
      pure (decide (type = modeDirectory ∧ bytes ≠ 0)) <||> pure (decide (links = 0)) <||>
      pure (decide (type = modeFile ∧ links ≠ 1)) <||>
      pure (decide (nodes.length = vfsNodeLimit)) <||>
      (do return decide ((← fetch image.bytes size name) = slash))) then
    return none
  -- `memcpy(node.path + 1u, name, namesize)` and `fs->nodes[fs->count++]`
  else if vfsPathMax < namesize + 1 ∨ vfsNodeLimit ≤ nodes.length then none
  else
    let text ← fetchBytes image.bytes size name namesize
    let node : VfsNode :=
      { path := slash :: text.take (namesize - 1)
        data := ⟨image.handle, fun i => image.bytes (data + i)⟩
        size := bytes
        type := if type = modeFile then .file else .directory
        mode := mode &&& 0o777 }
    if ¬ vfsPathValid node.path ∨ (ramfsLookup ⟨nodes, false⟩ node.path).isSome then return none
    else
      match ramfsLookup ⟨nodes, false⟩ (parentPath node.path) with
      | none => return none
      | some directory =>
        if directory.type ≠ .directory then return none
        else return some (.entry node (← alignedSumExact data bytes))

/-- One round of the loop of `parse`. -/
def parseEntryExact (nodes : List VfsNode) (offset : Nat) : Option (Option ParseStep) := do
  if (← fetchBytes image.bytes size offset 6) ≠ cpioMagic then return none
  else
    match ← mapMExact (fun i => hex8Exact image size (offset + 6 + i * 8)) (List.range 13) with
    | none => return none
    | some fields =>
      let namesize := fields.getD 11 0
      let bytes := fields.getD 6 0
      let name ← addExact offset 110
      if ← (pure (decide (namesize < 2)) <||> pure (decide (vfsPathMax ≤ namesize)) <||>
          (do return decide ((← subExact size name) < namesize)) <||>
          pure (decide (fields.getD 12 0 ≠ 0))) then
        return none
      else if (← fetch image.bytes size (name + namesize - 1)) ≠ 0 then return none
      else if ← anyRangeExact 0 (namesize - 1) (fun i => do
          return decide ((← fetch image.bytes size (name + i)) = 0)) then
        return none
      else
        let data ← alignedSumExact name namesize
        if ← (pure (decide (size < data)) <||>
            (do return decide ((← subExact size data) < bytes))) then
          return none
        else if ← (pure (decide (namesize = 11)) <&&>
            (do return decide ((← fetchBytes image.bytes size name 11) = trailerName ++ [0]))) then
          if ← (pure (decide (bytes ≠ 0)) <||> anyRangeExact data size (fun i => do
              return decide ((← fetch image.bytes size i) ≠ 0))) then
            return none
          else return some .trailer
        else
          parseNodeExact image size nodes (fields.getD 1 0) (fields.getD 4 0) bytes
            name namesize data

/-- The loop of `parse`; without a value when the rounds are used up. -/
def parseLoopExact : Nat → List VfsNode → Nat → Option (Option (List VfsNode))
  | 0, _, _ => none
  | rounds + 1, nodes, offset => do
      if ← (pure (decide (offset ≤ size)) <&&>
          (do return decide (110 ≤ (← subExact size offset)))) then
        match ← parseEntryExact image size nodes offset with
        | none => return none
        | some .trailer => return some nodes
        | some (.entry node next) => parseLoopExact rounds (nodes ++ [node]) next
      else return none

/-- `ramfs_import` -/
def ramfsImportExact (fs : Ramfs) : Option (Ramfs × Bool) := do
  if fs.ready ∨ fs.nodes.length ≠ 0 then return (fs, false)
  else if image.handle = 0 ∨ initramfsLimit < size then return (.zero, false)
  else
    match ← parseLoopExact image size (size / 110 + 1) [rootNode] 0 with
    | none => return (.zero, false)
    | some nodes => return (⟨nodes, true⟩, true)

end Exact

/-! ## It has a value -/

section Values

variable {image : Buffer} {size : Nat} {nodes : List VfsNode}

theorem hex8Exact_eq {text : Nat} (h : text + 8 ≤ size) :
    hex8Exact image size text = some (hex8 image.bytes text) := by
  rw [hex8Exact, hex8]
  refine forRangeExact_eq_some (P := fun _ _ => True) trivial fun i value _ hi _ =>
    ⟨?_, fun _ _ => trivial⟩
  rw [fetch_of_lt (by omega)]
  rfl

theorem alignedSumExact_eq {a b : Nat} (h : a + b + 3 ≤ uint64Max) :
    alignedSumExact a b = some (alignFour (a + b)) := by
  rw [alignedSumExact, addExact_of_le (show a + b ≤ uint64Max by omega)]
  simp only [Option.bind_eq_bind, Option.bind_some, addExact_of_le h]
  rfl

theorem parseNodeExact_eq {mode links bytes name namesize data : Nat}
    (hnodes : nodes.length ≤ vfsNodeLimit) (hpos : 0 < namesize) (hlong : namesize < vfsPathMax)
    (hname : name + namesize ≤ size) (hdata : data + bytes + 3 ≤ uint64Max) :
    parseNodeExact image size nodes mode links bytes name namesize data =
      some (parseNode image nodes mode links bytes name namesize data) := by
  have hpure : ∀ b : Bool, (pure b : Option Bool) = some b := fun _ => rfl
  have hfirst : (do return decide ((← fetch image.bytes size name) = slash) : Option Bool) =
      some (decide (image.bytes name = slash)) := by
    rw [fetch_of_lt (show name < size by omega)]
    rfl
  have htext : (readBytes image.bytes name namesize).take (namesize - 1) =
      readBytes image.bytes name (namesize - 1) := by
    rw [take_readBytes, Nat.min_eq_left (Nat.sub_le _ _)]
  rw [parseNodeExact, parseNode]
  simp only
  rw [orM_eq_some (hpure _) fun _ => orM_eq_some (hpure _) fun _ => orM_eq_some (hpure _) fun _ =>
    orM_eq_some (hpure _) fun _ => orM_eq_some (hpure _) fun _ => hfirst]
  simp only [Option.bind_eq_bind, Option.bind_some, ← Bool.decide_or, decide_eq_true_eq]
  split
  · rfl
  rename_i hkind
  simp only [not_or] at hkind
  have hroom : ¬ (vfsPathMax < namesize + 1 ∨ vfsNodeLimit ≤ nodes.length) := by
    have hne := hkind.2.2.2.2.1
    omega
  rw [if_neg hroom, fetchBytes_of_le hname, Option.bind_some, htext]
  split
  · rfl
  cases ramfsLookup ⟨nodes, false⟩
      (parentPath (slash :: readBytes image.bytes name (namesize - 1))) with
  | none => rfl
  | some directory =>
    simp only
    split
    · rfl
    · rw [alignedSumExact_eq hdata]
      rfl

/-- A round on a header that lies in the image. -/
theorem parseEntryExact_eq {offset : Nat} (hsize : size ≤ initramfsLimit)
    (hnodes : nodes.length ≤ vfsNodeLimit) (hoffset : offset + 110 ≤ size) :
    parseEntryExact image size nodes offset = some (parseEntry image size nodes offset) := by
  have hpure : ∀ b : Bool, (pure b : Option Bool) = some b := fun _ => rfl
  have hlimit : initramfsLimit = 4194304 := rfl
  have hmax : uint64Max = 2 ^ 64 - 1 := rfl
  have hpath : vfsPathMax = 128 := rfl
  rw [parseEntryExact, parseEntry, fetchBytes_of_le (show offset + 6 ≤ size by omega), some_bind]
  split
  · rfl
  have hfields : mapMExact (fun i => hex8Exact image size (offset + 6 + i * 8)) (List.range 13) =
      some ((List.range 13).mapM fun i => hex8 image.bytes (offset + 6 + i * 8)) := by
    refine mapMExact_eq_some fun i hi => hex8Exact_eq ?_
    rw [List.mem_range] at hi
    omega
  rw [hfields, some_bind]
  cases (List.range 13).mapM fun i => hex8 image.bytes (offset + 6 + i * 8) with
  | none => rfl
  | some fields =>
    simp only
    generalize fields.getD 11 0 = namesize
    generalize fields.getD 6 0 = bytes
    rw [addExact_of_le (show offset + 110 ≤ uint64Max by omega), some_bind]
    have hroom : (do return decide ((← subExact size (offset + 110)) < namesize) : Option Bool) =
        some (decide (size - (offset + 110) < namesize)) := by
      rw [subExact_of_le hoffset]
      rfl
    rw [orM_eq_some (hpure _) fun _ => orM_eq_some (hpure _) fun _ =>
      orM_eq_some hroom fun _ => hpure _]
    simp only [some_bind, ← Bool.decide_or, decide_eq_true_eq]
    split
    · rfl
    rename_i hname
    simp only [not_or, Nat.not_lt, Nat.not_le] at hname
    rw [fetch_of_lt (show offset + 110 + namesize - 1 < size by omega), some_bind]
    split
    · rfl
    have hinner : anyRangeExact 0 (namesize - 1) (fun i => do
        return decide ((← fetch image.bytes size (offset + 110 + i)) = 0)) =
          some (anyRange 0 (namesize - 1) fun i => image.bytes (offset + 110 + i) = 0) := by
      refine anyRangeExact_eq_some fun i _ hi => ?_
      rw [fetch_of_lt (show offset + 110 + i < size by omega)]
      rfl
    rw [hinner, some_bind]
    split
    · rfl
    rw [alignedSumExact_eq (show offset + 110 + namesize + 3 ≤ uint64Max by omega), some_bind]
    have hdata : offset + 110 + namesize ≤ alignFour (offset + 110 + namesize) :=
      le_alignFour (by omega)
    generalize alignFour (offset + 110 + namesize) = data at hdata
    have hrest : decide (size < data) = false →
        (do return decide ((← subExact size data) < bytes) : Option Bool) =
          some (decide (size - data < bytes)) := by
      intro hle
      rw [decide_eq_false_iff_not, Nat.not_lt] at hle
      rw [subExact_of_le hle]
      rfl
    rw [orM_eq_some (hpure _) hrest]
    simp only [some_bind, ← Bool.decide_or, decide_eq_true_eq]
    split
    · rfl
    rename_i hbytes
    simp only [not_or, Nat.not_lt] at hbytes
    have htrailer : decide (namesize = 11) = true →
        (do return decide ((← fetchBytes image.bytes size (offset + 110) 11) = trailerName ++ [0]) :
          Option Bool) =
            some (decide (readBytes image.bytes (offset + 110) 11 = trailerName ++ [0])) := by
      intro heq
      rw [decide_eq_true_eq] at heq
      rw [fetchBytes_of_le (show offset + 110 + 11 ≤ size by omega)]
      rfl
    rw [andM_eq_some (hpure _) htrailer]
    simp only [some_bind, ← Bool.decide_and, decide_eq_true_eq]
    split
    · have hzeros : anyRangeExact data size (fun i => do
          return decide ((← fetch image.bytes size i) ≠ 0)) =
            some (anyRange data size fun i => image.bytes i ≠ 0) := by
        refine anyRangeExact_eq_some fun i _ hi => ?_
        rw [fetch_of_lt hi]
        rfl
      rw [orM_eq_some (hpure _) fun _ => hzeros]
      simp only [some_bind, Bool.or_eq_true, decide_eq_true_eq]
      split
      · rfl
      · rfl
    · exact parseNodeExact_eq hnodes (by omega) (by omega) (by omega) (by omega)

/-- The loop ends before its rounds are used up, and never leaves the image. -/
theorem parseLoopExact_eq (hsize : size ≤ initramfsLimit) (rounds : Nat) {nodes : List VfsNode}
    {offset : Nat} (htree : TreeSound nodes) (hpos : 0 < rounds)
    (hrounds : size / 110 < rounds + offset / 110) :
    parseLoopExact image size rounds nodes offset =
      some (parseLoop image size rounds nodes offset) := by
  induction rounds generalizing nodes offset with
  | zero => exact absurd hpos (Nat.lt_irrefl 0)
  | succ rounds ih =>
    have hcondition : (pure (decide (offset ≤ size)) <&&>
        (do return decide (110 ≤ (← subExact size offset))) : Option Bool) =
          some (decide (offset ≤ size) && decide (110 ≤ size - offset)) := by
      refine andM_eq_some rfl fun hle => ?_
      rw [subExact_of_le (of_decide_eq_true hle)]
      rfl
    rw [parseLoopExact, parseLoop, hcondition]
    simp only [Option.bind_eq_bind, Option.bind_some, ← Bool.decide_and, decide_eq_true_eq]
    by_cases hmore : offset ≤ size ∧ 110 ≤ size - offset
    · have hoffset : offset + 110 ≤ size := by omega
      rw [if_pos hmore, if_neg (not_not.2 hmore), parseEntryExact_eq hsize htree.limit hoffset,
        Option.bind_some]
      cases hentry : parseEntry image size nodes offset with
      | none => rfl
      | some step =>
        cases step with
        | trailer => rfl
        | entry node next =>
          have hnext := parseEntry_next hsize hmore.1 hentry
          exact ih (parseEntry_sound htree hentry) (by omega) (by omega)
    · rw [if_neg hmore, if_pos hmore]
      rfl

theorem ramfsImportExact_eq (fs : Ramfs) :
    ramfsImportExact image size fs = some (ramfsImport fs image size) := by
  rw [ramfsImportExact, ramfsImport]
  split
  · rfl
  split
  · rfl
  rename_i hargs
  simp only [not_or, Nat.not_lt] at hargs
  rw [parse, parseLoopExact_eq hargs.2 _ treeSound_root (Nat.succ_pos _) (by omega)]
  simp only [Option.bind_eq_bind, Option.bind_some]
  cases parseLoop image size (size / 110 + 1) [rootNode] 0 with
  | none => rfl
  | some nodes => rfl

end Values

/-! ## The layout of an accepted archive -/

/-- The node of an entry. -/
structure Holds (image : Buffer) (node : VfsNode) (p : Placement) : Prop where
  path : node.path = slash :: readBytes image.bytes p.name (p.namesize - 1)
  data : node.data = ⟨image.handle, fun i => image.bytes (p.data + i)⟩
  size : node.size = p.bytes

/-- The entries of an archive from the header at `offset` on, up to the trailer. -/
structure Laid (image : Buffer) (size offset : Nat) (nodes : List VfsNode) (places : List Placement)
    (trailer : Placement) : Prop where
  holds : List.Forall₂ (Holds image) nodes places
  placed : ∀ p ∈ places ++ [trailer], PlacedAt image size p ∧ p.header + 110 ≤ size
  first : (places ++ [trailer]).head?.map Placement.header = some offset
  chain : (places ++ [trailer]).IsChain fun p q => q.header = p.next
  later : ∀ p ∈ places ++ [trailer], offset ≤ p.header
  order : (places ++ [trailer]).Pairwise fun p q => p.data + p.bytes ≤ q.header
  trailer : TrailerAt image size trailer

/-- Every node but the first stands behind its directory. -/
def ParentsFirst (nodes : List VfsNode) : Prop :=
  ∀ before node after, nodes = before ++ node :: after → before ≠ [] →
    ∃ directory ∈ before, ParentOf directory.path node.path ∧ directory.type = .directory

section Layout

variable {image : Buffer} {size offset : Nat} {nodes : List VfsNode} {places : List Placement}
  {trailer p : Placement} {node : VfsNode}

theorem laid_trailer (hp : PlacedAt image size p) (hheader : p.header + 110 ≤ size)
    (htrailer : TrailerAt image size p) : Laid image size p.header [] [] p where
  holds := .nil
  placed := by
    intro q hq
    rw [List.nil_append, List.mem_singleton] at hq
    rw [hq]
    exact ⟨hp, hheader⟩
  first := rfl
  chain := List.isChain_singleton p
  later := by
    intro q hq
    rw [List.nil_append, List.mem_singleton] at hq
    rw [hq]
  order := List.pairwise_singleton _ p
  trailer := htrailer

/-- An entry in front of the others. -/
theorem Laid.cons (h : Laid image size p.next nodes places trailer) (hsize : size ≤ initramfsLimit)
    (hp : PlacedAt image size p) (hheader : p.header + 110 ≤ size) (hnode : Holds image node p) :
    Laid image size p.header (node :: nodes) (p :: places) trailer := by
  obtain ⟨hname, hnext, -⟩ := hp.order hsize (by omega)
  refine ⟨.cons hnode h.holds, ?_, rfl, ?_, ?_, ?_, h.trailer⟩
  · exact List.forall_mem_cons.2 ⟨⟨hp, hheader⟩, h.placed⟩
  · refine List.IsChain.cons h.chain fun q hq => ?_
    have hfirst := h.first
    have hhead : (places ++ [trailer]).head? = some q := hq
    rw [hhead] at hfirst
    exact Option.some.inj hfirst
  · intro q hq
    rcases List.mem_cons.1 hq with rfl | hq
    · exact Nat.le_refl _
    · have hlater := h.later q hq
      omega
  · refine List.pairwise_cons.2 ⟨fun q hq => ?_, h.order⟩
    have hlater := h.later q hq
    omega

theorem ParentsFirst.snoc (h : ParentsFirst nodes) (hvalid : vfsPathValid node.path = true)
    {directory : VfsNode} (hmem : directory ∈ nodes) (hpath : directory.path = parentPath node.path)
    (htype : directory.type = .directory) : ParentsFirst (nodes ++ [node]) := by
  intro before other after hsplit hne
  rcases List.eq_nil_or_concat after with rfl | ⟨after, last, rfl⟩
  · -- The new node itself.
    obtain ⟨rfl, hlast⟩ := List.append_inj' hsplit rfl
    cases hlast
    refine ⟨directory, hmem, ?_, htype⟩
    rw [hpath]
    exact parentPath_parentOf (slash_of_valid hvalid)
  · rw [List.concat_eq_append, ← List.cons_append, ← List.append_assoc] at hsplit
    obtain ⟨hnodes, -⟩ := List.append_inj' hsplit rfl
    exact h before other after hnodes hne

/-- What the loop of `parse` accepts: the induction is on the rounds, from the last entry back. -/
theorem parseLoop_laid (hsize : size ≤ initramfsLimit) (rounds : Nat) {nodes' : List VfsNode}
    (hfirst : ParentsFirst nodes) (hrun : parseLoop image size rounds nodes offset = some nodes') :
    ∃ added places trailer, nodes' = nodes ++ added ∧ Laid image size offset added places trailer ∧
      ParentsFirst nodes' := by
  induction rounds generalizing nodes offset with
  | zero => cases hrun
  | succ rounds ih =>
    rw [parseLoop] at hrun
    split at hrun
    · cases hrun
    rename_i hmore
    rw [not_not] at hmore
    have hheader : offset + 110 ≤ size := by omega
    split at hrun
    · cases hrun
    · rename_i hentry
      cases hrun
      obtain ⟨p, mode, links, rfl, hp, ⟨-, htrailer⟩ | hnode⟩ := parseEntry_cases hentry
      · exact ⟨[], [], p, (List.append_nil _).symm, laid_trailer hp hheader htrailer, hfirst⟩
      · obtain ⟨node, heq, -⟩ := parseNode_cases hnode
        cases heq
    · rename_i node next hentry
      obtain ⟨p, mode, links, rfl, hp, ⟨hnone, -⟩ | hnode⟩ := parseEntry_cases hentry
      · cases hnone
      obtain ⟨node', heq, hpath, hdata, hbytes, -, hvalid, -, directory, hdirectory, htype⟩ :=
        parseNode_cases hnode
      cases heq
      obtain ⟨hmem, hdirectoryPath⟩ := ramfsLookup_mem hdirectory
      obtain ⟨added, places, trailer, rfl, hlaid, hparents⟩ :=
        ih (hfirst.snoc hvalid hmem hdirectoryPath htype) hrun
      refine ⟨node :: added, p :: places, trailer, ?_, ?_, hparents⟩
      · rw [List.append_assoc, List.singleton_append]
      · have hrest : Laid image size p.next added places trailer := hlaid
        exact hrest.cons hsize hp hheader ⟨hpath, hdata, hbytes⟩

theorem parentsFirst_root : ParentsFirst [rootNode] := by
  intro before node after hsplit hne
  cases before with
  | nil => exact absurd rfl hne
  | cons first rest =>
    rw [List.cons_append, List.cons.injEq] at hsplit
    exact absurd hsplit.2.symm (List.append_ne_nil_of_right_ne_nil _ (List.cons_ne_nil _ _))

/-- In a chain of entries, contents and headers with their names do not overlap. -/
theorem Laid.apart (h : Laid image size offset nodes places trailer) (hsize : size ≤ initramfsLimit)
    {q : Placement} (hp : p ∈ places ++ [trailer]) (hq : q ∈ places ++ [trailer]) {i : Nat}
    (hlow : p.data ≤ i) (hhigh : i < p.data + p.bytes) :
    ¬ (q.header ≤ i ∧ i < q.header + 110 + q.namesize) := by
  have hinside : ∀ r ∈ places ++ [trailer], r.header + 110 + r.namesize ≤ r.data := by
    intro r hr
    obtain ⟨hplaced, hheader⟩ := h.placed r hr
    exact (hplaced.order hsize (by omega)).1
  have hownp := hinside p hp
  have hownq := hinside q hq
  obtain ⟨k, hk, rfl⟩ := List.getElem_of_mem hp
  obtain ⟨l, hl, rfl⟩ := List.getElem_of_mem hq
  have horder := List.pairwise_iff_getElem.1 h.order
  rcases Nat.lt_trichotomy k l with hkl | rfl | hlk
  · have hle := horder k l hk hl hkl
    omega
  · omega
  · have hle := horder l k hl hk hlk
    omega

/-- `ramfs_import` on any bytes. It ends, never reads a byte behind the image and never wraps. If it
fails, the file system is cleared. If it succeeds, the root is the first node, the paths are valid
and distinct, and every other node stands behind its directory. The nodes are those of a chain of
entries from the start of the image on, with their contents in the image and each header behind the
contents before it; behind the trailer with its padding there are only zeros. -/
theorem ramfs_import_sound (image : Buffer) (size : Nat) :
    ∃ tree ok, ramfsImportExact image size .zero = some (tree, ok) ∧
      ramfsImport .zero image size = (tree, ok) ∧
      (ok = false → tree = .zero) ∧
      (ok = true → tree.ready = true ∧ ∃ added places trailer,
        tree.nodes = rootNode :: added ∧
        (∀ node ∈ tree.nodes, vfsPathValid node.path = true) ∧
        (tree.nodes.map VfsNode.path).Nodup ∧
        (∀ before node after, tree.nodes = before ++ node :: after → before ≠ [] →
          ∃ directory ∈ before, ParentOf directory.path node.path ∧ directory.type = .directory) ∧
        List.Forall₂ (Holds image) added places ∧
        (places ++ [trailer]).head?.map Placement.header = some 0 ∧
        (places ++ [trailer]).IsChain (fun p q => q.header = p.next) ∧
        (∀ p ∈ places ++ [trailer], PlacedAt image size p ∧
          p.header + 110 + p.namesize ≤ p.data ∧ p.data + p.bytes ≤ size) ∧
        (places ++ [trailer]).Pairwise (fun p q => p.data + p.bytes ≤ q.header) ∧
        (∀ p ∈ places ++ [trailer], ∀ q ∈ places ++ [trailer], ∀ i, p.data ≤ i →
          i < p.data + p.bytes → ¬ (q.header ≤ i ∧ i < q.header + 110 + q.namesize)) ∧
        TrailerAt image size trailer) := by
  have hexact : ramfsImportExact image size .zero = some (ramfsImport .zero image size) :=
    ramfsImportExact_eq .zero
  cases himport : ramfsImport .zero image size with
  | mk tree ok =>
    rw [himport] at hexact
    refine ⟨tree, ok, hexact, rfl, ?_, ?_⟩
    · rintro rfl
      rw [ramfsImport, if_neg (by decide)] at himport
      split at himport
      · cases himport
        rfl
      split at himport
      · cases himport
        rfl
      · cases himport
    · rintro rfl
      obtain ⟨hready, htree⟩ := ramfsImport_sound himport
      rw [ramfsImport, if_neg (by decide)] at himport
      split at himport
      · cases himport
      rename_i hargs
      simp only [not_or, Nat.not_lt] at hargs
      split at himport
      · cases himport
      rename_i nodes hparse
      cases himport
      obtain ⟨added, places, trailer, rfl, hlaid, hparents⟩ :=
        parseLoop_laid hargs.2 _ parentsFirst_root hparse
      refine ⟨hready, added, places, trailer, rfl, htree.valid, htree.unique, hparents, hlaid.holds,
        hlaid.first, hlaid.chain, fun p hp => ?_, hlaid.order, fun p hp q hq i => ?_, hlaid.trailer⟩
      · obtain ⟨hplaced, hheader⟩ := hlaid.placed p hp
        obtain ⟨hname, -, hdata⟩ := hplaced.order hargs.2 (by omega)
        exact ⟨hplaced, hname, hdata⟩
      · exact hlaid.apart hargs.2 hp hq

end Layout

end Utamo.Vfs
