import Utamo.Fat.Volume
import Utamo.Vfs.Grammar

/-!
# Short names

A field of a short name that `short_name` accepts is a row of plain characters with padding behind
it (`PaddedField`), and the name it builds is the name of the entry. The name is a component of a
path, and the two fields can be read off it in upper case.
-/

set_option autoImplicit false

namespace Utamo.Fat

open Lib Lib.ByteMemory Vfs

/-- A character that `short_name` copies. -/
def PlainChar (c : UInt8) : Prop := 33 ≤ c ∧ c ≤ 126 ∧ c ∉ forbidden

instance (c : UInt8) : Decidable (PlainChar c) := inferInstanceAs (Decidable (_ ∧ _ ∧ _))

/-- A field that `short_name` accepts. -/
structure PaddedField (field : List UInt8) : Prop where
  plain : ∀ c ∈ field.takeWhile (fun c => c ≠ space), PlainChar c
  padding : ∀ c ∈ field.dropWhile (fun c => c ≠ space), c = space

section Names

variable {raw : ByteMemory} {part first last : Nat}

/-- The inner loop of `short_name` as a fold over the characters of the field. -/
theorem shortName_fold (scan : NameScan) :
    forRangeM first last (shortNameChar raw part) scan =
      (readBytes raw first (last - first)).foldlM
        (fun scan c => shortNameChar (fun _ => c) part 0 scan)
        scan := by
  rw [forRangeM, readBytes, List.foldlM_map, List.range'_eq_map_range, List.foldlM_map]
  rfl

/-- Behind the padding there is only padding, and nothing is written. -/
theorem scan_padded {chars : List UInt8} {out : List UInt8} {wrote : Bool} {scan : NameScan}
    (h : chars.foldlM (fun scan c => shortNameChar (fun _ => c) part 0 scan) ⟨out, true, wrote⟩ =
      some scan) : (∀ c ∈ chars, c = space) ∧ scan.out = out ∧ scan.wrote = wrote := by
  induction chars with
  | nil =>
    cases h
    exact ⟨nofun, rfl, rfl⟩
  | cons c chars ih =>
    rw [List.foldlM_cons, shortNameChar] at h
    dsimp only at h
    split at h
    · exact ⟨List.forall_mem_cons.2 ⟨‹_›, (ih h).1⟩, (ih h).2⟩
    · rw [if_pos (Or.inl rfl)] at h
      cases h

/-- The characters of a field as `short_name` writes them: a dot before the extension. -/
def render (part : Nat) (wrote : Bool) (field : List UInt8) : List UInt8 :=
  if part = 1 ∧ wrote = false ∧ field ≠ [] then dot :: field else field

theorem render_wrote (field : List UInt8) : render part true field = field :=
  if_neg fun h => Bool.noConfusion h.2.1

/-- Up to the padding the characters are written in upper case. -/
theorem scan_open {chars : List UInt8} {out : List UInt8} {wrote : Bool} {scan : NameScan}
    (h : chars.foldlM (fun scan c => shortNameChar (fun _ => c) part 0 scan) ⟨out, false, wrote⟩ =
      some scan) :
    scan.out = out ++ render part wrote ((chars.takeWhile fun c => c ≠ space).map upperCase) ∧
      PaddedField chars ∧ (chars.takeWhile (fun c => c ≠ space) = [] → scan.wrote = wrote) := by
  induction chars generalizing out wrote with
  | nil =>
    cases h
    exact ⟨by simp [render], ⟨nofun, nofun⟩, fun _ => rfl⟩
  | cons c chars ih =>
    rw [List.foldlM_cons, shortNameChar] at h
    dsimp only at h
    split at h
    · rename_i hspace
      obtain ⟨hpadding, hout, hwrote⟩ := scan_padded h
      have htake : (c :: chars).takeWhile (fun c => c ≠ space) = [] :=
        List.takeWhile_cons_of_neg (by simpa using hspace)
      refine ⟨?_, ⟨by rw [htake]; exact nofun, ?_⟩, fun _ => hwrote⟩
      · rw [hout, htake]
        simp [render]
      · rw [List.dropWhile_cons_of_neg (by simpa using hspace)]
        exact List.forall_mem_cons.2 ⟨hspace, hpadding⟩
    · rename_i hspace
      split at h
      · cases h
      · rename_i hplain
        obtain ⟨hrest, hfield, -⟩ := ih h
        have htake : (c :: chars).takeWhile (fun c => c ≠ space) =
            c :: chars.takeWhile fun c => c ≠ space :=
          List.takeWhile_cons_of_pos (by simpa using hspace)
        simp only [not_or, UInt8.not_lt] at hplain
        refine ⟨?_, ⟨?_, ?_⟩, by rw [htake]; exact nofun⟩
        · rw [hrest, htake, List.map_cons, render_wrote, render]
          by_cases hdot : part = 1 ∧ wrote = false
          · rw [if_pos ⟨hdot.1, by simp [hdot.2]⟩, if_pos ⟨hdot.1, hdot.2, List.cons_ne_nil _ _⟩]
            simp
          · rw [if_neg fun hpos => hdot ⟨hpos.1, by simpa using hpos.2⟩,
              if_neg fun hpos => hdot ⟨hpos.1, hpos.2.1⟩]
            simp
        · rw [htake]
          exact List.forall_mem_cons.2 ⟨hplain.2, hfield.plain⟩
        · rw [List.dropWhile_cons_of_pos (by simpa using hspace)]
          exact hfield.padding

theorem shortNamePart_eq {out name : List UInt8}
    (h : shortNamePart raw part first last out = some name) :
    name = out ++ render part false (nameField raw first (last - first)) ∧
      PaddedField (readBytes raw first (last - first)) ∧
      (part = 0 → nameField raw first (last - first) ≠ []) := by
  rw [shortNamePart, Option.bind_eq_bind, Option.bind_eq_some_iff] at h
  obtain ⟨scan, hscan, hname⟩ := h
  rw [shortName_fold] at hscan
  obtain ⟨hout, hfield, hwrote⟩ := scan_open hscan
  split at hname
  · cases hname
  · rename_i hnot
    cases hname
    refine ⟨hout, hfield, fun hpart hnil => hnot ⟨hpart, ?_⟩⟩
    rw [hwrote (List.map_eq_nil_iff.1 hnil)]
    exact Bool.false_ne_true

/-- What `short_name` accepts. -/
structure ShortNameOk (e : ByteMemory) : Prop where
  base : PaddedField (readBytes e 0 8)
  nonempty : nameField e 0 8 ≠ []
  extension : PaddedField (readBytes e 8 3)

/-- The name that `short_name` accepts is the name of the entry. -/
theorem shortName_eq {e : ByteMemory} {name : List UInt8} (h : shortName e = some name) :
    name = entryName e ∧ ShortNameOk e := by
  rw [shortName, Option.bind_eq_bind, Option.bind_eq_some_iff] at h
  obtain ⟨base, hbase, hextension⟩ := h
  obtain ⟨hname, hfield', -⟩ := shortNamePart_eq hextension
  obtain ⟨hbaseName, hfield, hne⟩ := shortNamePart_eq hbase
  refine ⟨?_, hfield, hne rfl, hfield'⟩
  rw [hname, hbaseName, entryName, List.nil_append]
  have hplain : render 0 false (nameField e 0 (8 - 0)) = nameField e 0 8 := rfl
  rw [hplain]
  refine congrArg (nameField e 0 8 ++ ·) ?_
  change render 1 false (nameField e 8 3) = _
  rw [render]
  split
  · rename_i hne
    rw [if_neg hne.2.2]
  · rename_i hnot
    have hempty : nameField e 8 3 = [] := not_not.1 fun hne => hnot ⟨rfl, rfl, hne⟩
    rw [if_pos hempty, hempty]

end Names

/-! ## Fields and components -/

theorem forall_byte {p : UInt8 → Prop} (h : ∀ n < 256, p (UInt8.ofNat n)) (c : UInt8) : p c := by
  rw [← UInt8.ofNat_toNat (x := c)]
  exact h _ c.toNat_lt

/-- Upper case keeps plain characters plain. -/
theorem PlainChar.upperCase {c : UInt8} (h : PlainChar c) : PlainChar (upperCase c) :=
  forall_byte (p := fun c => PlainChar c → PlainChar (Fat.upperCase c)) (by decide +kernel) c h

theorem upperCase_eq_space (c : UInt8) : upperCase c = space ↔ c = space :=
  forall_byte (p := fun c => Fat.upperCase c = space ↔ c = space) (by decide +kernel) c

section Fields

variable {e e' : ByteMemory} {offset length : Nat}

/-- The field of a name is a function of the bytes in upper case. -/
theorem nameField_eq : nameField e offset length =
    ((readBytes e offset length).map upperCase).takeWhile fun c => c ≠ space := by
  rw [nameField, List.takeWhile_map]
  refine congrArg (List.map upperCase) (congrArg (List.takeWhile · _) (funext fun c => ?_))
  simp [upperCase_eq_space]

/-- The bytes of a padded field in upper case are a function of the field of the name. -/
theorem PaddedField.map_eq (h : PaddedField (readBytes e offset length)) :
    (readBytes e offset length).map upperCase =
      nameField e offset length ++
        List.replicate (length - (nameField e offset length).length) space := by
  have hsplit :=
    @List.takeWhile_append_dropWhile _ (fun c => decide (c ≠ space)) (readBytes e offset length)
  have hlength := congrArg List.length hsplit
  rw [List.length_append, length_readBytes] at hlength
  have hpadding := List.eq_replicate_of_mem h.padding
  rw [nameField, List.length_map, ← Nat.eq_sub_of_add_eq' hlength]
  nth_rewrite 1 [← hsplit]
  rw [List.map_append, hpadding, List.map_replicate, List.length_replicate]
  rfl

theorem PaddedField.mem_nameField (h : PaddedField (readBytes e offset length)) {c : UInt8}
    (hc : c ∈ nameField e offset length) : PlainChar c := by
  obtain ⟨d, hd, rfl⟩ := List.mem_map.1 hc
  exact (h.plain d hd).upperCase

theorem length_nameField : (nameField e offset length).length ≤ length := by
  rw [nameField, List.length_map]
  exact ((List.takeWhile_prefix _).length_le).trans_eq (length_readBytes e offset length)

theorem PlainChar.ne_dot {c : UInt8} (h : PlainChar c) : c ≠ dot := by
  rintro rfl
  exact h.2.2 (by decide)

/-- The fields can be read off the name. -/
theorem entryName_inj (h : ShortNameOk e) (h' : ShortNameOk e') :
    entryName e = entryName e' ↔ nameField e 0 8 = nameField e' 0 8 ∧
    nameField e 8 3 = nameField e' 8 3 := by
  have hbase {e : ByteMemory} (h : ShortNameOk e) :
      (entryName e).takeWhile (fun c => c ≠ dot) = nameField e 0 8 := by
    rw [entryName, List.takeWhile_append_of_pos
      fun c hc => decide_eq_true (h.base.mem_nameField hc).ne_dot]
    split <;> simp
  constructor
  · intro heq
    have hsame : nameField e 0 8 = nameField e' 0 8 := by rw [← hbase h, heq, hbase h']
    refine ⟨hsame, ?_⟩
    rw [entryName, entryName, hsame, List.append_cancel_left_eq] at heq
    split at heq <;> split at heq <;> simp_all
  · rintro ⟨h1, h2⟩
    rw [entryName, entryName, h1, h2]

theorem ShortNameOk.component (h : ShortNameOk e) : Component (entryName e) := by
  obtain ⟨c, rest, hcons⟩ := List.exists_cons_of_ne_nil h.nonempty
  have hfirst := (h.base.mem_nameField (hcons ▸ List.mem_cons_self)).ne_dot
  have hhead : ∃ rest, entryName e = c :: rest := by
    rw [entryName, hcons]
    exact ⟨_, rfl⟩
  obtain ⟨rest', hname⟩ := hhead
  have hplain {c : UInt8} (hc : PlainChar c) : 32 ≤ c ∧ c ≤ 126 ∧ c ≠ slash ∧ c ≠ backslash := by
    refine ⟨UInt8.le_trans (by decide) hc.1, hc.2.1, ?_, ?_⟩ <;>
    · rintro rfl
      exact hc.2.2 (by decide)
  refine ⟨by simp [hname], ?_, by simp [hname, hfirst], by simp [hname, hfirst]⟩
  rw [entryName]
  refine List.forall_mem_append.2 ⟨fun c hc => hplain (h.base.mem_nameField hc), ?_⟩
  split
  · exact nofun
  · exact List.forall_mem_cons.2 ⟨by decide, fun c hc => hplain (h.extension.mem_nameField hc)⟩

theorem length_entryName : (entryName e).length ≤ 12 := by
  have hbase := @length_nameField e 0 8
  have hextension := @length_nameField e 8 3
  rw [entryName, List.length_append]
  split <;> simp <;> omega

end Fields

/-- `vfs_path_valid` accepts the canonical paths; what `short_name` makes of the 11 bytes of a name
is a component of at most 12 characters, and the same for the same bytes up to the case. -/
theorem path_names_exact :
    (∀ path : Path, 0 ∉ path → (vfsPathValid path = true ↔ Canonical path)) ∧
      ∀ raw raw' name name', shortName raw = some name → shortName raw' = some name' →
        Component name ∧ name.length ≤ 12 ∧
          (name = name' ↔ (readBytes raw 0 11).map upperCase =
            (readBytes raw' 0 11).map upperCase) := by
  refine ⟨fun path => vfsPathValid_iff, fun raw raw' name name' h h' => ?_⟩
  obtain ⟨rfl, hok⟩ := shortName_eq h
  obtain ⟨rfl, hok'⟩ := shortName_eq h'
  have hsplit (e : ByteMemory) : (readBytes e 0 11).map upperCase =
      (readBytes e 0 8).map upperCase ++ (readBytes e 8 3).map upperCase := rfl
  refine ⟨hok.component, length_entryName, (entryName_inj hok hok').trans ?_⟩
  rw [hsplit, hsplit]
  constructor
  · rintro ⟨h1, h2⟩
    rw [hok.base.map_eq, hok.extension.map_eq, hok'.base.map_eq, hok'.extension.map_eq, h1, h2]
  · intro heq
    obtain ⟨h1, h2⟩ := List.append_inj heq (by simp [length_readBytes])
    exact ⟨by rw [nameField_eq, nameField_eq, h1], by rw [nameField_eq, nameField_eq, h2]⟩

/-- One name in two cases. -/
theorem path_names_exact_case : Component [0x41] ∧
    (readBytes (fun i => if i = 0 then 0x61 else space) 0 11).map upperCase =
      (readBytes (fun i => if i = 0 then 0x41 else space) 0 11).map upperCase := by
  obtain ⟨hcomponent, -, hiff⟩ := path_names_exact.2 (fun i => if i = 0 then 0x61 else space)
    (fun i => if i = 0 then 0x41 else space) [0x41] [0x41] (by decide +kernel) (by decide +kernel)
  exact ⟨hcomponent, hiff.1 rfl⟩

end Utamo.Fat
