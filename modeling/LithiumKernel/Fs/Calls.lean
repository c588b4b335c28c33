import LithiumKernel.Fs.Tree
import LithiumKernel.Lib.Run

/-!
# File system calls (kernel/syscall/syscall.c, kernel/fs/vfs.c)

The descriptor tables of vfs.c and the system calls over them, for the task that makes the
call. User memory enters as what the copy functions find there: for a source the byte at
each offset, `none` if it cannot be read, and for a destination whether it can be written.
A read of the closed descriptor 0 goes to the keyboard and a write to the closed descriptors
1 and 2 to the console; neither touches a file.

A system is the file system and its tasks. `fork` copies the working directory and the
descriptors, `execve` reads a file and leaves both, `exit` takes the task away; what else
they do is not modelled here. `vfs_mkdir` and `vfs_create_file` are called by the kernel
itself at boot.
-/
namespace LithiumKernel.Fs

open LithiumKernel.Lib

variable {φ : Type}

/-- `file_t`. -/
structure File where
  vnode : Nat
  offset : Nat
  valid : Bool
  deriving DecidableEq

structure FsTask where
  cwd : List Byte
  files : Nat → File

/-- The file system and the current task. -/
structure Calling (φ : Type) where
  vfs : Vfs φ
  self : FsTask

abbrev CallM (φ : Type) := EStateM VfsHalt (Calling φ)

def onVfs {α : Type} (m : VfsM φ α) : CallM φ α := fun k =>
  match m k.vfs with
  | .ok a v => .ok a { k with vfs := v }
  | .error e v => .error e { k with vfs := v }

theorem wp_onVfs {α : Type} (m : VfsM φ α) (post : α → Calling φ → Prop)
    (halt : VfsHalt → Calling φ → Prop) (k : Calling φ) :
    wp (onVfs m) post halt k ↔
      wp m (fun a v => post a { k with vfs := v }) (fun e v => halt e { k with vfs := v }) k.vfs := by
  unfold wp onVfs
  cases m k.vfs <;> rfl

def efault : Int := 14
def ebadf : Int := 9
def enoent : Int := 2
def einval : Int := 22

/-! ## Descriptor tables -/

def setFile (fd : Nat) (f : File) : CallM φ Unit :=
  modify fun k => { k with self := { k.self with files := Function.update k.self.files fd f } }

/-- `files[fd]` if the number is in range and the slot is in use. -/
def FsTask.opened (self : FsTask) (fd : Int) : Option File :=
  if 0 ≤ fd ∧ fd < vfsMaxFds ∧ (self.files fd.toNat).valid then some (self.files fd.toNat) else none

def vfsOpenIn (path : CString) : CallM φ Int := do
  match ← onVfs (vfsLookup path) with
  | none => pure (-1)
  | some n =>
    let files := (← get).self.files
    match ((List.range vfsMaxFds).drop 3).find? fun i => ¬ (files i).valid with
    | none => pure (-1)
    | some i =>
      setFile i ⟨n, 0, true⟩
      pure i

/-- `none` is -1. -/
def vfsReadIn (ops : FileOps φ) (fd : Int) (count : Nat) : CallM φ (Option (List Byte)) := do
  let k ← get
  match k.self.opened fd with
  | none => pure none
  | some f =>
    match (k.vfs.node f.vnode).ops with
    | .tmpfsFile =>
      match ops.read (k.vfs.file f.vnode) count f.offset with
      | .error e => throw e
      | .ok bytes =>
        setFile fd.toNat { f with offset := f.offset + bytes.length }
        pure (some bytes)
    | .devNull => pure (some [])
    | .tmpfsDir => pure none
    | .devTty => pure none

def vfsWriteIn (ops : FileOps φ) (mem : Alloc) (fd : Int) (buf : List Byte) : CallM φ (Option Nat) := do
  let k ← get
  match k.self.opened fd with
  | none => pure none
  | some f =>
    match (k.vfs.node f.vnode).ops with
    | .tmpfsFile =>
      match ← onVfs (onFile f.vnode fun file => ops.write mem file buf f.offset) with
      | none => pure none
      | some n =>
        setFile fd.toNat { f with offset := f.offset + n }
        pure (some n)
    | .devNull =>
      setFile fd.toNat { f with offset := f.offset + buf.length }
      pure (some buf.length)
    | .tmpfsDir => pure none
    | .devTty => pure none

/-! ## User memory -/

/-- The loop of `copy_user_string`, with the space that is left in the buffer. -/
def copyUserStringFrom (user : Nat → Option Byte) : Nat → Nat → CString → Except Int CString
  | 0, _, _ => .error (-einval)
  | n + 1, i, done =>
    match user i with
    | none => .error (-efault)
    | some b => if b = 0#8 then .ok done else copyUserStringFrom user n (i + 1) (done ++ [b])

def copyUserString (user : Nat → Option Byte) (size : Nat) : Except Int CString :=
  copyUserStringFrom user size 0 []

/-- `copy_from_user` of `n` bytes. -/
def copyFromUser (user : Nat → Option Byte) (start n : Nat) : Option (List Byte) :=
  (List.range n).mapM fun i => user (start + i)

/-- The bytes `copy_to_user` delivers before it meets one that cannot be written. -/
def copyToUser (writable : Nat → Bool) : Nat → List Byte → List Byte
  | _, [] => []
  | i, b :: bs => if writable i then b :: copyToUser writable (i + 1) bs else []

/-- The first steps of every call that takes a path. -/
def userPath (user : Nat → Option Byte) : CallM φ (Except Int CString) := do
  match copyUserString user vfsMaxPath with
  | .error rc => pure (.error rc)
  | .ok raw =>
    match resolvePath (cstr (← get).self.cwd) raw with
    | none => pure (.error (-einval))
    | some path => pure (.ok path)

/-! ## The calls -/

def sysOpen (user : Nat → Option Byte) : CallM φ Int := do
  match ← userPath user with
  | .error rc => pure rc
  | .ok path => vfsOpenIn path

def sysCreat (ops : FileOps φ) (mem : Alloc) (user : Nat → Option Byte) : CallM φ Int := do
  match ← userPath user with
  | .error rc => pure rc
  | .ok path =>
    if (← onVfs (vfsCreateFile ops mem path none 0)) ≠ 0 then pure (-enoent) else vfsOpenIn path

def sysChdir (user : Nat → Option Byte) : CallM φ Int := do
  match ← userPath user with
  | .error rc => pure rc
  | .ok path =>
    match ← onVfs (vfsLookup path) with
    | none => pure (-enoent)
    | some n =>
      let k ← get
      if (k.vfs.node n).type ≠ .dir then pure (-enoent)
      else
        let cwd := (strncpy k.self.cwd path (vfsMaxPath - 1)).set (vfsMaxPath - 1) 0#8
        set { k with self := { k.self with cwd := cwd } }
        pure 0

def sysClose (fd : Int) : CallM φ Int := do
  match (← get).self.opened fd with
  | none => pure (-ebadf)
  | some f =>
    setFile fd.toNat { f with valid := false }
    pure 0

def sysDup2 (oldfd newfd : Int) : CallM φ Int := do
  match (← get).self.opened oldfd with
  | none => pure (-ebadf)
  | some f =>
    if newfd < 0 ∨ vfsMaxFds ≤ newfd then pure (-ebadf)
    else if oldfd = newfd then pure newfd
    else
      setFile newfd.toNat f
      pure newfd

/-- The size of the buffer on the kernel stack through which data goes. -/
def chunkSize : Nat := 128

/-- The loop of `sys_read_impl`. Every turn but the last delivers a byte, so `count` is fuel
enough. -/
def sysReadFrom (ops : FileOps φ) (fd : Int) (writable : Nat → Bool) (count : Nat) :
    Nat → Nat → List Byte → CallM φ (Int × List Byte)
  | 0, done, bytes => pure (done, bytes)
  | fuel + 1, done, bytes =>
    if count ≤ done then pure (done, bytes)
    else do
      let n := min chunkSize (count - done)
      match ← vfsReadIn ops fd n with
      | none => pure (-ebadf, bytes)
      | some chunk =>
        if chunk = [] then pure (done, bytes)
        else
          let delivered := copyToUser writable done chunk
          if delivered.length < chunk.length then pure (-efault, bytes ++ delivered)
          else if chunk.length < n then pure (done + chunk.length, bytes ++ chunk)
          else sysReadFrom ops fd writable count fuel (done + chunk.length) (bytes ++ chunk)

/-- `none` is a read of the keyboard. -/
def sysRead (ops : FileOps φ) (fd : Int) (writable : Nat → Bool) (count : Nat) :
    CallM φ (Option (Int × List Byte)) := do
  if fd = 0 ∧ ¬ ((← get).self.files 0).valid then pure none
  else
    let r ← sysReadFrom ops fd writable count count 0 []
    pure (some r)

/-- The loop of `sys_write_impl`; the allocations are those of the turn that has written
`done` bytes. -/
def sysWriteFrom (ops : FileOps φ) (mem : Nat → Alloc) (fd : Int) (user : Nat → Option Byte)
    (count : Nat) : Nat → Nat → CallM φ Int
  | 0, done => pure done
  | fuel + 1, done =>
    if count ≤ done then pure done
    else do
      let n := min chunkSize (count - done)
      match copyFromUser user done n with
      | none => pure (-efault)
      | some chunk =>
        if (fd = 1 ∨ fd = 2) ∧ ¬ ((← get).self.files fd.toNat).valid then
          sysWriteFrom ops mem fd user count fuel (done + n)
        else
          match ← vfsWriteIn ops (mem done) fd chunk with
          | none => pure (-ebadf)
          | some written =>
            if written = 0 then pure done
            else sysWriteFrom ops mem fd user count fuel (done + written)

def sysWrite (ops : FileOps φ) (mem : Nat → Alloc) (fd : Int) (user : Nat → Option Byte)
    (count : Nat) : CallM φ Int :=
  sysWriteFrom ops mem fd user count count 0

/-- The part of `sys_execve_impl` that concerns files: the image that is loaded. -/
def sysExecveImage (ops : FileOps φ) (mem : Alloc) (user : Nat → Option Byte) :
    CallM φ (Except Int (List Byte)) := do
  match ← userPath user with
  | .error rc => pure (.error rc)
  | .ok path =>
    match ← onVfs (vfsReadAll ops mem path) with
    | none => pure (.error (-enoent))
    | some image => pure (.ok image)

/-! ## Systems of tasks -/

inductive FsCall where
  | open_ (user : Nat → Option Byte)
  | creat (mem : Alloc) (user : Nat → Option Byte)
  | chdir (user : Nat → Option Byte)
  | close (fd : Int)
  | dup2 (oldfd newfd : Int)
  | read (fd : Int) (writable : Nat → Bool) (count : Nat)
  | write (mem : Nat → Alloc) (fd : Int) (user : Nat → Option Byte) (count : Nat)
  | execve (mem : Alloc) (user : Nat → Option Byte)

/-- What a call returns, with the bytes it delivers. -/
inductive FsResult where
  | ret (r : Int) (bytes : List Byte)
  | keyboard
  deriving DecidableEq

def FsResult.int (r : Int) : FsResult := .ret r []

def fsCall (ops : FileOps φ) : FsCall → CallM φ FsResult
  | .open_ user => return .int (← sysOpen user)
  | .creat mem user => return .int (← sysCreat ops mem user)
  | .chdir user => return .int (← sysChdir user)
  | .close fd => return .int (← sysClose fd)
  | .dup2 oldfd newfd => return .int (← sysDup2 oldfd newfd)
  | .read fd writable count => do
    match ← sysRead ops fd writable count with
    | none => pure .keyboard
    | some (r, bytes) => pure (.ret r bytes)
  | .write mem fd user count => return .int (← sysWrite ops mem fd user count)
  | .execve mem user => do
    match ← sysExecveImage ops mem user with
    | .error rc => pure (.int rc)
    | .ok image => pure (.ret 0 image)

structure FsSystem (φ : Type) where
  vfs : Vfs φ
  task : Nat → Option FsTask

abbrev FsM (φ : Type) := EStateM VfsHalt (FsSystem φ)

inductive FsOp where
  | mkdir (mem : Alloc) (path : CString)
  | createFile (mem : Alloc) (path : CString) (data : Option (List Byte)) (size : Nat)
  | call (t : Nat) (c : FsCall)
  | fork (t child : Nat)
  | exit (t : Nat)

def kernelCall (m : VfsM φ Int) : FsM φ FsResult := fun sys =>
  match m sys.vfs with
  | .ok r v => .ok (.int r) { sys with vfs := v }
  | .error e v => .error e { sys with vfs := v }

def taskCall (t : Nat) (m : CallM φ FsResult) : FsM φ FsResult := fun sys =>
  match sys.task t with
  | none => .ok (.int 0) sys
  | some self =>
    match m ⟨sys.vfs, self⟩ with
    | .ok r k => .ok r ⟨k.vfs, Function.update sys.task t (some k.self)⟩
    | .error e k => .error e ⟨k.vfs, Function.update sys.task t (some k.self)⟩

/-- The fields of the child that `task_fork_from_frame` copies; `kzalloc` has cleared it. -/
def FsTask.forked (self : FsTask) : FsTask :=
  { self with cwd := strncpy (List.replicate vfsMaxPath 0#8) (cstr self.cwd) (vfsMaxPath - 1) }

def fsExec (ops : FileOps φ) : FsOp → FsM φ FsResult
  | .mkdir mem path => kernelCall (vfsMkdir ops mem path)
  | .createFile mem path data size => kernelCall (vfsCreateFile ops mem path data size)
  | .call t c => taskCall t (fsCall ops c)
  | .fork t child => fun sys =>
    .ok (.int child) { sys with task := Function.update sys.task child ((sys.task t).map FsTask.forked) }
  | .exit t => fun sys => .ok (.int 0) { sys with task := Function.update sys.task t none }

/-- The kernel's own calls have canonical paths and the data they name; calls are made by
tasks, and a new task is a new one. -/
def FsAllowed (sys : FsSystem φ) : FsOp → Prop
  | .mkdir _ path => Canonical path
  | .createFile _ path data size => Canonical path ∧ ∀ bytes, data = some bytes → bytes.length = size
  | .call t _ => (sys.task t).isSome
  | .fork t child => (sys.task t).isSome ∧ sys.task child = none
  | .exit t => (sys.task t).isSome

/-- A step is labelled with what was done and its result. -/
structure FsStep (ops : FileOps φ) (sys : FsSystem φ) (l : FsOp × FsResult) (sys' : FsSystem φ) :
    Prop where
  allowed : FsAllowed sys l.1
  ran : fsExec ops l.1 sys = .ok l.2 sys'

/-- The fields of a new task that concern files. -/
def newTask : FsTask :=
  { cwd := strncpy (List.replicate vfsMaxPath 0#8) [slash] (vfsMaxPath - 1)
    files := fun _ => ⟨0, 0, false⟩ }

/-- After `vfs_init`, with the tasks that the kernel itself creates. -/
structure FsBoot (ops : FileOps φ) (sys : FsSystem φ) : Prop where
  init : ∃ mem motd, vfsInit ops mem motd (vfsEmpty ops) = .ok () sys.vfs
  tasks : ∀ t self, sys.task t = some self → self = newTask

end LithiumKernel.Fs
