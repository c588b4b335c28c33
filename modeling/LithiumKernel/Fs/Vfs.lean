import Mathlib.Algebra.Group.Nat.Defs
import LithiumKernel.Fs.Path
import LithiumKernel.Lib.Wp

/-!
# The virtual file system (kernel/fs/vfs.c)

A `vnode_t *` is the number of its allocation and `none` is `NULL`; vnodes are never freed.
The functions of a vnode are dispatched on its `ops` table as in the source. What a regular
file stores is behind the table `tmpfs_file_ops`, and the model keeps that boundary: the
vfs functions are written over any `FileOps`, and `tmpfsFileOps` is the table of the source.

The results of the allocator are an argument, `Alloc`. Sizes and offsets are lengths of
buffers in memory, so sums of them do not wrap. `VfsHalt` names the ways in which a function
would leave its buffers or its lists.
-/
namespace LithiumKernel.Fs

open LithiumKernel.Lib

abbrev Byte := BitVec 8

def vfsMaxFds : Nat := 32
def vfsNameMax : Nat := 64

inductive VnodeType where
  | file
  | dir
  | device
  | symlink
  deriving DecidableEq, Repr

/-- `tmpfs_file_ops`, `tmpfs_dir_ops`, `dev_null_ops` and `dev_tty_ops`. No table has a
`lookup` or a `readdir` function. -/
inductive VfsOps where
  | tmpfsFile
  | tmpfsDir
  | devNull
  | devTty
  deriving DecidableEq, Repr

/-- A `vnode_t` without `size` and `data`, which belong to the stored file. -/
structure Vnode where
  name : List Byte
  type : VnodeType
  ops : VfsOps
  parent : Option Nat
  children : Option Nat
  nextSib : Option Nat
  deriving DecidableEq

inductive VfsHalt where
  | endlessList
  | unterminated
  | outOfBounds
  | nullPointer
  deriving DecidableEq, Repr

/-- What the allocator answers: whether a vnode, a `tmpfs_file_t` and a buffer to read a
file into are allocated, and for `krealloc` the bytes of the new block that are not copied. -/
structure Alloc where
  vnode : Bool
  file : Bool
  image : Bool
  buffer : Option (Nat → Byte)

/-- The functions behind a regular file. `read` returns the bytes it copies; `write` returns
`none` for -1. -/
structure FileOps (φ : Type) where
  fresh : φ
  size : φ → Nat
  read : φ → Nat → Nat → Except VfsHalt (List Byte)
  write : Alloc → φ → List Byte → Nat → Except VfsHalt (Option Nat × φ)
  clear : φ → φ

structure Vfs (φ : Type) where
  node : Nat → Vnode
  file : Nat → φ
  count : Nat
  root : Nat

abbrev VfsM (φ : Type) := EStateM VfsHalt (Vfs φ)

/-! ## Files of tmpfs -/

structure TmpfsFile where
  data : Nat → Byte
  size : Nat
  cap : Nat

/-- `size` and `data` of a vnode. -/
structure TmpfsData where
  size : Nat
  file : Option TmpfsFile

def tmpfsRead (vn : TmpfsData) (count off : Nat) : Except VfsHalt (List Byte) :=
  match vn.file with
  | none => .ok []
  | some tf =>
    if tf.size ≤ off then .ok []
    else
      let avail := tf.size - off
      let n := if count < avail then count else avail
      if tf.cap < off + n then .error .outOfBounds
      else .ok ((List.range n).map fun i => tf.data (off + i))

/-- The growth of the buffer in `tmpfs_write`. -/
def tmpfsGrow (mem : Alloc) (tf : TmpfsFile) (need : Nat) : Option TmpfsFile :=
  if need ≤ tf.cap then some tf
  else match mem.buffer with
    | none => none
    | some junk =>
      some { tf with
        data := fun i => if i < tf.cap then tf.data i else junk i
        cap := need * 2 + 64 }

/-- `memcpy(tf->data + off, buf, count)`. -/
def copyInto (data : Nat → Byte) (buf : List Byte) (off : Nat) : Nat → Byte := fun i =>
  if off ≤ i then buf.getD (i - off) (data i) else data i

/-- The file `tmpfs_write` works on; `kzalloc` makes one at the first write. -/
def tmpfsFileOf (mem : Alloc) (vn : TmpfsData) : Option TmpfsFile :=
  match vn.file with
  | some tf => some tf
  | none => if mem.file then some ⟨fun _ => 0#8, 0, 0⟩ else none

def tmpfsWrite (mem : Alloc) (vn : TmpfsData) (buf : List Byte) (off : Nat) :
    Except VfsHalt (Option Nat × TmpfsData) :=
  match tmpfsFileOf mem vn with
  | none => .ok (none, vn)
  | some tf =>
    match tmpfsGrow mem tf (off + buf.length) with
    | none => .ok (none, { vn with file := some tf })
    | some tf =>
      if tf.cap < off + buf.length then .error .outOfBounds
      else
        let size := if tf.size < off + buf.length then off + buf.length else tf.size
        .ok (some buf.length, ⟨size, some { tf with data := copyInto tf.data buf off, size := size }⟩)

/-- The truncation in `vfs_create_file`. -/
def tmpfsClear (vn : TmpfsData) : TmpfsData :=
  ⟨0, vn.file.map fun tf => { tf with size := 0 }⟩

def tmpfsFileOps : FileOps TmpfsData where
  fresh := ⟨0, none⟩
  size := TmpfsData.size
  read := tmpfsRead
  write := tmpfsWrite
  clear := tmpfsClear

/-! ## Vnodes and lookup -/

variable {φ : Type}

/-- The fields of a new vnode. -/
def newVnode (v : Vfs φ) (parent : Option Nat) (name : CString) (type : VnodeType) (table : VfsOps) :
    Vnode :=
  { name := strncpy (List.replicate vfsNameMax 0#8) name (vfsNameMax - 1)
    type := type
    ops := table
    parent := parent
    children := none
    nextSib := parent.bind fun p => (v.node p).children }

/-- `parent->children = vn`. -/
def linkChild (node : Nat → Vnode) (parent : Option Nat) (child : Nat) : Nat → Vnode :=
  match parent with
  | none => node
  | some p => Function.update node p { node p with children := some child }

def vnodeCreate (ops : FileOps φ) (mem : Alloc) (parent : Option Nat) (name : CString)
    (type : VnodeType) (table : VfsOps) : VfsM φ (Option Nat) := do
  if mem.vnode then
    let v ← get
    let node := Function.update v.node v.count (newVnode v parent name type table)
    set { v with
      node := linkChild node parent v.count
      file := Function.update v.file v.count ops.fresh
      count := v.count + 1 }
    pure (some v.count)
  else pure none

/-- The walk over the siblings, with one unit of fuel for each vnode there is. -/
def findChild (name : CString) : Nat → Option Nat → VfsM φ (Option Nat)
  | _, none => pure none
  | 0, some _ => throw .endlessList
  | fuel + 1, some c => do
    let vn := (← get).node c
    if cstr vn.name = name then pure (some c) else findChild name fuel vn.nextSib

/-- The loop of `vfs_lookup` over the names in `tok`. -/
def lookupFrom : Nat → Nat → CString → VfsM φ (Option Nat)
  | 0, _, _ => throw .endlessList
  | fuel + 1, cur, tok =>
    if tok = [] then pure (some cur)
    else do
      let v ← get
      match ← findChild (tok.takeWhile (· ≠ slash)) v.count (v.node cur).children with
      | none => pure none
      | some child =>
        match tok.dropWhile (· ≠ slash) with
        | [] => pure (some child)
        | _ :: rest => lookupFrom fuel child rest

/-- The copy of the path has 256 bytes and `strncpy` fills 255 of them; a longer path would
leave it without terminator. -/
def vfsLookup (path : CString) : VfsM φ (Option Nat) := do
  if path.head? ≠ some slash then pure none
  else
    let v ← get
    if path.tail = [] then pure (some v.root)
    else if vfsMaxPath - 1 ≤ path.tail.length then throw .unterminated
    else lookupFrom vfsMaxPath v.root path.tail

/-! ## Creation -/

/-- `strrchr`; the arguments are the index of the rest and the last match so far. -/
def strrchrFrom (c : Byte) : Nat → Option Nat → CString → Option Nat
  | _, last, [] => last
  | i, last, x :: xs => strrchrFrom c (i + 1) (if x = c then some i else last) xs

def strrchr (s : CString) (c : Byte) : Option Nat := strrchrFrom c 0 none s

/-- `split_parent_path` with the buffer sizes of its callers: the parent's path and the name. -/
def splitParentPath (path : CString) : Option (CString × CString) :=
  if path.head? ≠ some slash ∨ path.tail = [] then none
  else match strrchr path slash with
    | none => none
    | some last =>
      let name := path.drop (last + 1)
      if name.length = 0 ∨ vfsNameMax ≤ name.length then none
      else if last = 0 then some ([slash], name)
      else if vfsMaxPath ≤ last then none
      else some (path.take last, name)

def vfsMkdir (ops : FileOps φ) (mem : Alloc) (path : CString) : VfsM φ Int := do
  match ← vfsLookup path with
  | some existing =>
    if ((← get).node existing).type = .dir then pure 0 else pure (-1)
  | none =>
    match splitParentPath path with
    | none => pure (-1)
    | some (parentPath, name) =>
      match ← vfsLookup parentPath with
      | none => pure (-1)
      | some parent =>
        if ((← get).node parent).type ≠ .dir then pure (-1)
        else match ← vnodeCreate ops mem (some parent) name .dir .tmpfsDir with
          | none => pure (-1)
          | some _ => pure 0

/-- Runs a function of the file behind a vnode. -/
def onFile (n : Nat) (f : φ → Except VfsHalt (Option Nat × φ)) : VfsM φ (Option Nat) := do
  let v ← get
  match f (v.file n) with
  | .error e => throw e
  | .ok (r, file) =>
    set { v with file := Function.update v.file n file }
    pure r

/-- The conversion of a `size_t` to `int`. -/
def toInt (n : Nat) : Int := Int.bmod n (2 ^ 32)

/-- `tmpfs_write` as a return value. -/
def intResult : Option Nat → Int
  | none => -1
  | some n => toInt n

/-- The tail of `vfs_create_file`; `data` is `none` for `NULL`. -/
def fillFile (ops : FileOps φ) (mem : Alloc) (n : Nat) (data : Option (List Byte)) (size : Nat) :
    VfsM φ Int := do
  let _ ← onFile n fun file => .ok (none, ops.clear file)
  if size = 0 then pure 0
  else match data with
    | none => pure (-1)
    | some bytes =>
      let written ← onFile n fun file => ops.write mem file (bytes.take size) 0
      if intResult written = toInt size then pure 0 else pure (-1)

def vfsCreateFile (ops : FileOps φ) (mem : Alloc) (path : CString) (data : Option (List Byte))
    (size : Nat) : VfsM φ Int := do
  match splitParentPath path with
  | none => pure (-1)
  | some (parentPath, name) =>
    match ← vfsLookup parentPath with
    | none => pure (-1)
    | some parent =>
      if ((← get).node parent).type ≠ .dir then pure (-1)
      else match ← vfsLookup path with
        | some n =>
          if ((← get).node n).type ≠ .file then pure (-1) else fillFile ops mem n data size
        | none =>
          match ← vnodeCreate ops mem (some parent) name .file .tmpfsFile with
          | none => pure (-1)
          | some n => fillFile ops mem n data size

/-- The test of `vfs_read_all` on what `read` returns: as an `int` it is negative, or it is not the
size. -/
def shortRead (read size : Nat) : Bool := decide (2 ^ 31 ≤ read % 2 ^ 32 ∨ read % 2 ^ 32 ≠ size)

def vfsReadAll (ops : FileOps φ) (mem : Alloc) (path : CString) : VfsM φ (Option (List Byte)) := do
  match ← vfsLookup path with
  | none => pure none
  | some n =>
    let v ← get
    let vn := v.node n
    if vn.type ≠ .file ∨ vn.ops ≠ .tmpfsFile then pure none
    else if ¬ mem.image then pure none
    else match ops.read (v.file n) (ops.size (v.file n)) 0 with
      | .error e => throw e
      | .ok bytes => if shortRead bytes.length (ops.size (v.file n)) then pure none else pure (some bytes)

/-! ## The tree `vfs_init` builds -/

def asciiBytes (s : List Char) : List Byte := s.map fun c => BitVec.ofNat 8 c.toNat

def hostname : List Byte := asciiBytes ['l', 'i', 't', 'h', 'i', 'u', 'm', '\n']

def rootNode : Vnode :=
  { name := strncpy (List.replicate vfsNameMax 0#8) [slash] (vfsNameMax - 1)
    type := .dir
    ops := .tmpfsDir
    parent := none
    children := none
    nextSib := none }

def vfsEmpty (ops : FileOps φ) : Vfs φ :=
  { node := fun _ => rootNode
    file := fun _ => ops.fresh
    count := 1
    root := 0 }

/-- A file that `vfs_init` makes and fills; a vnode that could not be allocated is used all
the same. -/
def initFile (ops : FileOps φ) (mem : Alloc) (parent : Option Nat) (name : List Char)
    (text : List Byte) : VfsM φ Unit := do
  match ← vnodeCreate ops mem parent (asciiBytes name) .file .tmpfsFile with
  | none => throw .nullPointer
  | some n =>
    let _ ← onFile n fun file => ops.write mem file text 0

/-- `vfs_init` behind the creation of the root; `motd` is the text with the version in it. -/
def vfsInit (ops : FileOps φ) (mem : Alloc) (motd : List Byte) : VfsM φ Unit := do
  let root := some (← get).root
  let dev ← vnodeCreate ops mem root (asciiBytes ['d', 'e', 'v']) .dir .tmpfsDir
  let _ ← vnodeCreate ops mem dev (asciiBytes ['n', 'u', 'l', 'l']) .device .devNull
  let _ ← vnodeCreate ops mem dev (asciiBytes ['z', 'e', 'r', 'o']) .device .devNull
  let _ ← vnodeCreate ops mem dev (asciiBytes ['t', 't', 'y']) .device .devTty
  let etc ← vnodeCreate ops mem root (asciiBytes ['e', 't', 'c']) .dir .tmpfsDir
  initFile ops mem etc ['h', 'o', 's', 't', 'n', 'a', 'm', 'e'] hostname
  initFile ops mem etc ['m', 'o', 't', 'd'] motd
  let _ ← vnodeCreate ops mem root (asciiBytes ['p', 'r', 'o', 'c']) .dir .tmpfsDir
  let _ ← vnodeCreate ops mem root (asciiBytes ['t', 'm', 'p']) .dir .tmpfsDir

end LithiumKernel.Fs
