import LithiumKernel.Fs.Namespace
import LithiumKernel.Lib.Sim

/-!
# tmpfs and plain byte files

The reference is the same file system over files that are byte sequences: a write past the
end fills the gap with zeros and truncation empties the file. tmpfs follows it as long as no
write begins past the end of its file. The buffer of a tmpfs file agrees with the reference
below `size`; what lies behind, bytes from before a truncation or memory that was never
written, becomes part of the file when a write leaves a gap.
-/
namespace LithiumKernel.Fs

open LithiumKernel.Lib

/-! ## Plain files -/

/-- The bytes of a file after a write. -/
def writeAt (f buf : List Byte) (off : Nat) : List Byte :=
  f.take off ++ List.replicate (off - f.length) 0#8 ++ buf ++ f.drop (off + buf.length)

/-- The stored file holds the bytes. -/
structure FileRel (d : TmpfsData) (f : List Byte) : Prop where
  size : d.size = f.length
  empty : d.file = none → f = []
  held : ∀ tf, d.file = some tf → tf.size = f.length ∧ tf.size ≤ tf.cap ∧
    ∀ i < f.length, f[i]? = some (tf.data i)

variable {d : TmpfsData} {f : List Byte}

theorem FileRel.fresh : FileRel ⟨0, none⟩ [] := ⟨rfl, fun _ => rfl, by simp⟩

theorem FileRel.clear (d : TmpfsData) : FileRel (tmpfsClear d) [] := by
  refine ⟨rfl, fun _ => rfl, ?_⟩
  intro tf same
  obtain ⟨old, _, rfl⟩ := Option.map_eq_some_iff.mp same
  exact ⟨rfl, Nat.zero_le _, by simp⟩

theorem FileRel.read (rel : FileRel d f) (count off : Nat) :
    tmpfsRead d count off = .ok ((f.drop off).take count) := by
  unfold tmpfsRead
  cases file : d.file with
  | none => rw [rel.empty file, List.drop_nil, List.take_nil]
  | some tf =>
    obtain ⟨size, cap, data⟩ := rel.held tf file
    dsimp only
    by_cases past : tf.size ≤ off
    · rw [if_pos past, List.drop_eq_nil_of_le (by omega), List.take_nil]
    rw [if_neg past]
    have n_eq : (if count < tf.size - off then count else tf.size - off) =
        min count (f.length - off) := by
      split <;> omega
    rw [n_eq, if_neg (by omega)]
    congr 1
    apply List.ext_getElem?
    intro i
    by_cases inside : i < min count (f.length - off)
    · rw [List.getElem?_map, List.getElem?_range inside, List.getElem?_take_of_lt (by omega),
        List.getElem?_drop, data (off + i) (by omega)]
      rfl
    · rw [List.getElem?_eq_none (by simp; omega), List.getElem?_eq_none (by simp; omega)]

theorem writeAt_length {buf : List Byte} {off : Nat} (inside : off ≤ f.length) :
    (writeAt f buf off).length = max f.length (off + buf.length) := by
  simp only [writeAt, List.length_append, List.length_take, List.length_replicate, List.length_drop]
  omega

theorem writeAt_getElem {buf : List Byte} {off i : Nat} (inside : off ≤ f.length) :
    (writeAt f buf off)[i]? = if off ≤ i ∧ i < off + buf.length then buf[i - off]? else f[i]? := by
  have gap : off - f.length = 0 := by omega
  have front : (f.take off).length = off := by rw [List.length_take]; omega
  rw [writeAt, gap, List.replicate_zero, List.append_nil]
  by_cases low : i < off
  · rw [if_neg (by omega), List.append_assoc, List.getElem?_append_left (by omega),
      List.getElem?_take_of_lt low]
  by_cases mid : i < off + buf.length
  · rw [if_pos (by omega), List.getElem?_append_left (by rw [List.length_append]; omega),
      List.getElem?_append_right (by omega), front]
  · rw [if_neg (by omega), List.getElem?_append_right (by rw [List.length_append]; omega),
      List.getElem?_drop, List.length_append, front]
    congr 1
    omega

theorem copyInto_inside {data : Nat → Byte} {buf : List Byte} {off i : Nat} (low : off ≤ i)
    (high : i < off + buf.length) : buf[i - off]? = some (copyInto data buf off i) := by
  have lt : i - off < buf.length := by omega
  rw [copyInto, if_pos low, List.getD_eq_getElem?_getD, List.getElem?_eq_getElem lt, Option.getD_some]

theorem copyInto_outside {data : Nat → Byte} {buf : List Byte} {off i : Nat}
    (out : ¬ (off ≤ i ∧ i < off + buf.length)) : copyInto data buf off i = data i := by
  unfold copyInto
  split
  · rw [List.getD_eq_getElem?_getD, List.getElem?_eq_none (by omega), Option.getD_none]
  · rfl

/-- The buffer is large enough afterwards and what it held is still there. -/
theorem tmpfsGrow_spec {mem : Alloc} {tf tf' : TmpfsFile} {need : Nat}
    (grown : tmpfsGrow mem tf need = some tf') :
    tf'.size = tf.size ∧ need ≤ tf'.cap ∧ tf.cap ≤ tf'.cap ∧ ∀ i < tf.cap, tf'.data i = tf.data i := by
  unfold tmpfsGrow at grown
  split at grown
  · rename_i fits
    obtain rfl := Option.some.inj grown
    exact ⟨rfl, fits, le_refl _, fun _ _ => rfl⟩
  · split at grown
    · cases grown
    · obtain rfl := Option.some.inj grown
      refine ⟨rfl, ?_, ?_, fun i lt => if_pos lt⟩ <;>
      · dsimp only
        omega

/-- The file that is written to, new or not, holds the bytes. -/
theorem FileRel.fileOf (rel : FileRel d f) {mem : Alloc} {tf : TmpfsFile}
    (file : tmpfsFileOf mem d = some tf) :
    tf.size = f.length ∧ tf.size ≤ tf.cap ∧ ∀ i < f.length, f[i]? = some (tf.data i) := by
  unfold tmpfsFileOf at file
  split at file
  · rename_i there
    obtain rfl := Option.some.inj file
    exact rel.held _ there
  · rename_i none_
    split at file
    · obtain rfl := rel.empty none_
      obtain rfl := Option.some.inj file
      exact ⟨rfl, le_refl _, by simp⟩
    · cases file

/-- A write that begins inside the file or at its end and returns. -/
theorem FileRel.written (rel : FileRel d f) {mem : Alloc} {buf : List Byte} {off k : Nat}
    {d' : TmpfsData} (inside : off ≤ f.length) (done : tmpfsWrite mem d buf off = .ok (some k, d')) :
    k = buf.length ∧ FileRel d' (writeAt f buf off) ∧ off + buf.length ≤ d'.size := by
  unfold tmpfsWrite at done
  split at done
  · cases done
  rename_i tf file
  split at done
  · cases done
  rename_i tf' grown
  split at done
  · cases done
  cases done
  obtain ⟨size, cap, data⟩ := rel.fileOf file
  obtain ⟨size', need, bigger, kept⟩ := tmpfsGrow_spec grown
  have len : (writeAt f buf off).length = max f.length (off + buf.length) := writeAt_length inside
  have newSize : (if tf'.size < off + buf.length then off + buf.length else tf'.size) =
      (writeAt f buf off).length := by
    rw [len]
    split <;> omega
  rw [newSize]
  refine ⟨rfl, ⟨rfl, ?_, ?_⟩, ?_⟩
  · intro none_
    cases none_
  · intro new same
    obtain rfl := Option.some.inj same
    refine ⟨rfl, ?_, ?_⟩
    · dsimp only
      rw [len]
      omega
    · intro i lt
      rw [writeAt_getElem inside]
      by_cases written : off ≤ i ∧ i < off + buf.length
      · rw [if_pos written]
        exact copyInto_inside written.1 written.2
      · dsimp only
        rw [if_neg written, copyInto_outside written, kept i (by omega)]
        exact data i (by omega)
  · dsimp only
    rw [len]
    omega

/-- What `tmpfs_write` needs from the allocator. -/
def Alloc.Serves (mem : Alloc) : Prop := mem.file = true ∧ mem.buffer.isSome = true

theorem tmpfsWrite_serves {mem : Alloc} (serves : mem.Serves) (d : TmpfsData) (buf : List Byte)
    (off : Nat) : ∃ k d', tmpfsWrite mem d buf off = .ok (some k, d') := by
  obtain ⟨junk, buffer⟩ := Option.isSome_iff_exists.mp serves.2
  obtain ⟨tf, file⟩ : ∃ tf, tmpfsFileOf mem d = some tf := by
    unfold tmpfsFileOf
    cases d.file with
    | none => exact ⟨_, if_pos serves.1⟩
    | some tf => exact ⟨tf, rfl⟩
  obtain ⟨tf', grown⟩ : ∃ tf', tmpfsGrow mem tf (off + buf.length) = some tf' := by
    unfold tmpfsGrow
    split
    · exact ⟨tf, rfl⟩
    · rw [buffer]
      exact ⟨_, rfl⟩
  have need := (tmpfsGrow_spec grown).2.1
  unfold tmpfsWrite
  rw [file]
  dsimp only
  rw [grown]
  dsimp only
  rw [if_neg (by omega)]
  exact ⟨_, _, rfl⟩

theorem FileRel.write (rel : FileRel d f) {mem : Alloc} (serves : mem.Serves) (buf : List Byte)
    {off : Nat} (inside : off ≤ f.length) :
    ∃ d', tmpfsWrite mem d buf off = .ok (some buf.length, d') ∧ FileRel d' (writeAt f buf off) ∧
      off + buf.length ≤ d'.size := by
  obtain ⟨k, d', done⟩ := tmpfsWrite_serves serves d buf off
  obtain ⟨rfl, holds, size⟩ := rel.written inside done
  exact ⟨d', done, holds, size⟩

/-! ## The two file systems side by side -/

/-- The same tree, and files that hold the same bytes. -/
structure VfsRel (v : Vfs TmpfsData) (w : Vfs (List Byte)) : Prop where
  node : w.node = v.node
  count : w.count = v.count
  root : w.root = v.root
  file : ∀ n, FileRel (v.file n) (w.file n)

variable {v : Vfs TmpfsData} {w : Vfs (List Byte)}

theorem onFile_ok {φ : Type} {v : Vfs φ} {n : Nat} {m : φ → Except VfsHalt (Option Nat × φ)}
    {r : Option Nat} {d : φ} (done : m (v.file n) = .ok (r, d)) :
    onFile n m v = .ok r { v with file := Function.update v.file n d } := by
  refine run_of_wp ?_
  unfold onFile
  rw [wp_bind, wp_get, done]
  exact ⟨rfl, rfl⟩

/-- A file is replaced on both sides. -/
theorem VfsRel.stored (rel : VfsRel v w) {d : TmpfsData} {f : List Byte} (same : FileRel d f) (n : Nat) :
    VfsRel { v with file := Function.update v.file n d }
      { w with file := Function.update w.file n f } := by
  refine ⟨rel.node, rel.count, rel.root, ?_⟩
  intro k
  by_cases here : k = n
  · subst here
    dsimp only
    rw [Function.update_self, Function.update_self]
    exact same
  · dsimp only
    rw [Function.update_of_ne here, Function.update_of_ne here]
    exact rel.file k

variable {k : Calling TmpfsData} {l : Calling (List Byte)}

theorem onVfs_ok {φ α : Type} {k : Calling φ} {m : VfsM φ α} {a : α} {v : Vfs φ}
    (done : m k.vfs = .ok a v) : onVfs m k = .ok a { k with vfs := v } := by
  unfold onVfs
  rw [done]

/-- The descriptor's offset is not past the end of its file. -/
def Inside (v : Vfs TmpfsData) (self : FsTask) (fd : Int) : Prop :=
  ∀ f, self.opened fd = some f → (v.node f.vnode).ops = .tmpfsFile →
    f.offset ≤ (v.file f.vnode).size

theorem opened_valid {self : FsTask} {fd : Int} {f : File} (opened : self.opened fd = some f) :
    0 ≤ fd ∧ fd < vfsMaxFds ∧ f = self.files fd.toNat ∧ f.valid = true := by
  unfold FsTask.opened at opened
  split at opened
  · rename_i ok
    obtain rfl := Option.some.inj opened
    exact ⟨ok.1, ok.2.1, rfl, ok.2.2⟩
  · cases opened

/-- After a move of its offset the descriptor is still open. -/
theorem opened_moved {self : FsTask} {fd : Int} {f : File} (opened : self.opened fd = some f)
    (off : Nat) :
    FsTask.opened { self with files := Function.update self.files fd.toNat { f with offset := off } } fd =
      some { f with offset := off } := by
  obtain ⟨low, high, _, valid⟩ := opened_valid opened
  simp [FsTask.opened, low, high, valid]

/-- The allocations a call makes for file contents succeed. -/
def FsCall.Served : FsCall → Prop
  | .creat mem _ => mem.Serves
  | .write mem _ _ _ => ∀ i, (mem i).Serves
  | _ => True

def FsOp.Served : FsOp → Prop
  | .createFile mem _ _ _ => mem.Serves
  | .call _ c => c.Served
  | _ => True

variable {sys : FsSystem TmpfsData} {ref : FsSystem (List Byte)}

/-- The labels are what the system does. -/
def Replays {φ : Type} (ops : FileOps φ) : FsSystem φ → List (FsOp × FsResult) → Prop
  | _, [] => True
  | sys, (op, r) :: rest =>
    FsAllowed sys op ∧ resultValue (fsExec ops op sys) = some r ∧ Replays ops (sys.after ops op) rest

def FsSystem.replay {φ : Type} (ops : FileOps φ) (sys : FsSystem φ)
    (labels : List (FsOp × FsResult)) : FsSystem φ := labels.foldl (fun s l => s.after ops l.1) sys

theorem Replays.run {φ : Type} {ops : FileOps φ} {start : FsSystem φ}
    {labels : List (FsOp × FsResult)} : ∀ {sys : FsSystem φ} {pre : List (FsOp × FsResult)},
    Run (FsStep ops) start pre sys → Replays ops sys labels →
    Run (FsStep ops) start (pre ++ labels) (sys.replay ops labels) := by
  induction labels with
  | nil =>
    intro sys pre before _
    rw [List.append_nil]
    exact before
  | cons l rest ih =>
    rintro sys pre before ⟨allowed, value, later⟩
    rw [List.append_cons]
    exact ih (before.snoc (.eval allowed value)) later

end LithiumKernel.Fs
