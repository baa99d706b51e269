import Utamo.Vfs.Namespace

/-!
# Open files

The handles of `kernel/fs/vfs.c`: `vfs_open`, `vfs_read`, `vfs_seek` and `vfs_close`. A handle in
use refines an open file, which is a node with a position in it (`OpenFile`); the functions do to
the handle what they should do to the open file.
-/

set_option autoImplicit false

namespace Utamo.Vfs

open Lib Lib.ByteMemory

/-! ## Model -/

/-- `struct vfs_file` -/
structure VfsFile where
  node : Option VfsNode
  offset : Nat

/-- A cleared handle. -/
def VfsFile.zero : VfsFile := ⟨none, 0⟩

/-- `vfs_open` -/
def vfsOpen (m : Mounts) (path : Path) (file : VfsFile) : VfsFile × Bool :=
  if file.node.isSome then (file, false)
  else
    match vfsLookup m path with
    | none => (file, false)
    | some node => if node.type ≠ .file then (file, false) else (⟨some node, 0⟩, true)

/-- `vfs_read`: the handle afterwards and the bytes that are stored at `buffer`; `*read` is their
number. -/
def vfsRead (file : VfsFile) (buffer bytes : Nat) : Option (VfsFile × List UInt8) :=
  match file.node with
  | none => none
  | some node =>
    if (bytes ≠ 0 ∧ buffer = 0) ∨ node.size < file.offset then none
    else
      let left := node.size - file.offset
      let count := if bytes < left then bytes else left
      some (⟨some node, file.offset + count⟩, readBytes node.data.bytes file.offset count)

/-- `vfs_seek` -/
def vfsSeek (file : VfsFile) (offset : Nat) : VfsFile × Bool :=
  match file.node with
  | none => (file, false)
  | some node => if node.size < offset then (file, false) else ({ file with offset }, true)

/-- `vfs_close` -/
def vfsClose (file : VfsFile) : VfsFile × Bool :=
  if file.node.isNone then (file, false) else (.zero, true)

/-! ## Open files -/

/-- A file with a position in it. -/
structure OpenFile where
  node : VfsNode
  offset : Nat
  within : offset ≤ node.size

namespace OpenFile

/-- The handle of an open file. -/
def handle (f : OpenFile) : VfsFile := ⟨some f.node, f.offset⟩

/-- How many of `n` bytes are left. -/
def count (f : OpenFile) (n : Nat) : Nat := min n (f.node.size - f.offset)

theorem offset_count_le (f : OpenFile) (n : Nat) : f.offset + f.count n ≤ f.node.size := by
  have hwithin := f.within
  have hmin := Nat.min_le_right n (f.node.size - f.offset)
  rw [count]
  omega

/-- The next bytes of the file, at most `n`. -/
def data (f : OpenFile) (n : Nat) : List UInt8 := readBytes f.node.data.bytes f.offset (f.count n)

/-- The file behind those bytes. -/
def advance (f : OpenFile) (n : Nat) : OpenFile :=
  ⟨f.node, f.offset + f.count n, f.offset_count_le n⟩

/-- The bytes between two positions of a file. -/
def between (f g : OpenFile) : List UInt8 :=
  readBytes f.node.data.bytes f.offset (g.offset - f.offset)

/-- A later position in the same file. -/
structure Precedes (f g : OpenFile) : Prop where
  node : g.node = f.node
  offset : f.offset ≤ g.offset

theorem Precedes.refl (f : OpenFile) : f.Precedes f := ⟨rfl, Nat.le_refl _⟩

theorem Precedes.trans {f g k : OpenFile} (h : f.Precedes g) (h' : g.Precedes k) : f.Precedes k :=
  ⟨h'.node.trans h.node, Nat.le_trans h.offset h'.offset⟩

end OpenFile

section Handles

variable {m : Mounts} {path : Path} (f : OpenFile)

end Handles

end Utamo.Vfs
