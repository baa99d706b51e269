import Utamo.Lib.ByteMemory
import Utamo.Lib.Loop

/-!
# Trees of files

`kernel/fs/vfs.c`: the nodes of a read-only tree and the paths that name them. A path is the list of
its characters without the final NUL; the character behind the last one is that NUL.
-/

set_option autoImplicit false

namespace Utamo.Vfs

open Lib

/-- `UTAMO_VFS_PATH_MAX` -/
def vfsPathMax : Nat := 128

/-- `UTAMO_VFS_NODE_LIMIT` -/
def vfsNodeLimit : Nat := 128

/-- The text of a path. -/
abbrev Path := List UInt8

/-- `enum vfs_type`; an object of the type may have another value, such as the 0 of a
cleared node. -/
inductive VfsType
  | file
  | directory
  | other (value : Nat)
  deriving DecidableEq, Repr

/-- What a pointer to bytes leads to: a number for the storage, 0 for `NULL`, and its contents. -/
structure Buffer where
  handle : Nat
  bytes : ByteMemory

/-- `NULL` -/
def Buffer.null : Buffer := ⟨0, fun _ => 0⟩

/-- `struct vfs_node` -/
structure VfsNode where
  path : Path
  data : Buffer
  size : Nat
  type : VfsType
  mode : Nat

/-- `struct ramfs`; the nodes in use, so that `count` is their number. -/
structure Ramfs where
  nodes : List VfsNode
  ready : Bool

/-! ## Paths -/

/-- `'/'` -/
def slash : UInt8 := 47

/-- `'.'` -/
def dot : UInt8 := 46

/-- `'\\'` -/
def backslash : UInt8 := 92

/-- `path[i]` -/
def charAt (path : Path) (i : Nat) : UInt8 := path.getD i 0

/-- The body of the loop of `vfs_path_valid`: the value of `start`. -/
def pathChar (path : Path) (i start : Nat) : Option Nat :=
  let c := charAt path i
  if c ≠ 0 ∧ (c < 32 ∨ 126 < c ∨ c = backslash) then none
  else if c = slash ∨ c = 0 then
    let part := i - start
    if part = 0 ∨ (part = 1 ∧ charAt path start = dot) ∨
        (part = 2 ∧ charAt path start = dot ∧ charAt path (start + 1) = dot) then
      none
    else some (i + 1)
  else some start

/-- `vfs_path_valid` -/
def vfsPathValid (path : Path) : Bool :=
  if charAt path 0 ≠ slash then false
  else
    let length := firstIndex 0 vfsPathMax fun i => charAt path i = 0
    if length = vfsPathMax then false
    else if length = 1 then true
    else (forRangeM 1 (length + 1) (pathChar path) 1).isSome

/-- `ramfs_lookup` -/
def ramfsLookup (fs : Ramfs) (path : Path) : Option VfsNode :=
  if vfsNodeLimit < fs.nodes.length ∨ ¬ vfsPathValid path then none
  else fs.nodes.find? fun node => node.path = path

end Utamo.Vfs
