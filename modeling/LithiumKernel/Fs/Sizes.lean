import Mathlib.Data.List.GetD
import LithiumKernel.Fs.ByteFiles

/-!
# tmpfs files with the sizes of the machine (kernel/fs/vfs.c)

A `size_t` has 64 bits. `tmpfs_write` adds offset and count and doubles the sum for a new buffer
without looking for an overflow. Here the sums wrap; an offset is kept as a number and stands for
the `size_t` it is congruent to, since `f->offset += r` and the calls of the table are all that is
ever done with it. A `memcpy` past the end of the block is `outOfBounds`.
-/
namespace LithiumKernel.Fs

open LithiumKernel.Lib

/-- The value of a sum or product in a `size_t`. -/
def sizeT (n : Nat) : Nat := n % 2 ^ 64

theorem sizeT_lt (n : Nat) : sizeT n < 2 ^ 64 := Nat.mod_lt _ (by decide)

theorem sizeT_of_lt {n : Nat} (small : n < 2 ^ 64) : sizeT n = n := Nat.mod_eq_of_lt small

def tmpfsRead64 (vn : TmpfsData) (count off : Nat) : Except VfsHalt (List Byte) :=
  tmpfsRead vn count (sizeT off)

def tmpfsGrow64 (mem : Alloc) (tf : TmpfsFile) (need : Nat) : Option TmpfsFile :=
  if need ≤ tf.cap then some tf
  else match mem.buffer with
    | none => none
    | some junk =>
      some { tf with
        data := fun i => if i < tf.cap then tf.data i else junk i
        cap := sizeT (need * 2 + 64) }

def tmpfsWrite64 (mem : Alloc) (vn : TmpfsData) (buf : List Byte) (off : Nat) :
    Except VfsHalt (Option Nat × TmpfsData) :=
  match tmpfsFileOf mem vn with
  | none => .ok (none, vn)
  | some tf =>
    let need := sizeT (sizeT off + buf.length)
    match tmpfsGrow64 mem tf need with
    | none => .ok (none, { vn with file := some tf })
    | some tf =>
      if tf.cap < sizeT off + buf.length then .error .outOfBounds
      else
        let size := if tf.size < need then need else tf.size
        .ok (some buf.length,
          ⟨size, some { tf with data := copyInto tf.data buf (sizeT off), size := size }⟩)

def tmpfsFileOps64 : FileOps TmpfsData :=
  { tmpfsFileOps with read := tmpfsRead64, write := tmpfsWrite64 }

/-! ## What a file holds -/

def TmpfsData.length (d : TmpfsData) : Nat := (d.file.map TmpfsFile.size).getD 0

def TmpfsData.cap (d : TmpfsData) : Nat := (d.file.map TmpfsFile.cap).getD 0

def TmpfsData.byte (d : TmpfsData) (i : Nat) : Byte := (d.file.map (·.data i)).getD 0#8

/-- The bytes of the file are inside its block, and the block is in memory. -/
structure TmpfsData.Ok (d : TmpfsData) : Prop where
  inside : d.length ≤ d.cap
  block : d.cap < 2 ^ 64

/-- The same contents and size. -/
structure TmpfsData.Same (d d' : TmpfsData) : Prop where
  size : d'.size = d.size
  length : d'.length = d.length
  bytes : ∀ i, i < d.length → d'.byte i = d.byte i

theorem TmpfsData.Same.refl (d : TmpfsData) : d.Same d := ⟨rfl, rfl, fun _ _ => rfl⟩

/-- The bytes stand in the file from `off` on; the rest of it is as before. -/
structure Stored (d : TmpfsData) (off : Nat) (bytes : List Byte) (d' : TmpfsData) : Prop where
  ok : d'.Ok
  size : d'.size = d'.length
  length : d'.length = max d.length (off + bytes.length)
  written : ∀ i, off ≤ i → i < off + bytes.length → d'.byte i = bytes.getD (i - off) 0#8
  rest : ∀ i, i < d.length → ¬ (off ≤ i ∧ i < off + bytes.length) → d'.byte i = d.byte i

/-- Two pieces one after the other are one. -/
theorem Stored.append {d d₁ d₂ : TmpfsData} {off : Nat} {xs ys : List Byte}
    (first : Stored d off xs d₁) (next : Stored d₁ (off + xs.length) ys d₂) :
    Stored d off (xs ++ ys) d₂ where
  ok := next.ok
  size := next.size
  length := by
    rw [next.length, first.length, List.length_append]
    omega
  written := by
    intro i low high
    rw [List.length_append] at high
    by_cases late : off + xs.length ≤ i
    · rw [next.written i late (by omega), List.getD_append_right _ _ _ _ (by omega),
        show i - (off + xs.length) = i - off - xs.length by omega]
    · have inside : i < d₁.length := by
        rw [first.length]
        omega
      rw [next.rest i inside (by omega), first.written i low (by omega),
        List.getD_append _ _ _ _ (by omega)]
  rest := by
    intro i lt out
    rw [List.length_append] at out
    have inside : i < d₁.length := by
      rw [first.length]
      omega
    rw [next.rest i inside (by omega), first.rest i lt (by omega)]

/-! ## One write -/

/-- The capacity after a write that needs `need` bytes, `none` if no block is given for it. -/
def capAfter (mem : Alloc) (cap need : Nat) : Option Nat :=
  if need ≤ cap then some cap
  else if mem.buffer.isSome then some (sizeT (need * 2 + 64)) else none

/-- The write has a file to go to. -/
def HasFile (mem : Alloc) (d : TmpfsData) : Prop := d.file.isSome = true ∨ mem.file = true

instance (mem : Alloc) (d : TmpfsData) : Decidable (HasFile mem d) :=
  inferInstanceAs (Decidable (_ ∨ _))

section Write

variable {mem : Alloc} {d : TmpfsData}

theorem tmpfsFileOf_none (no : ¬ HasFile mem d) : tmpfsFileOf mem d = none := by
  rw [HasFile, not_or] at no
  unfold tmpfsFileOf
  cases file : d.file with
  | none => exact if_neg no.2
  | some tf =>
    rw [file] at no
    exact absurd rfl no.1

theorem tmpfsFileOf_some (yes : HasFile mem d) :
    ∃ tf, tmpfsFileOf mem d = some tf ∧ tf.size = d.length ∧ tf.cap = d.cap ∧
      ∀ i, tf.data i = d.byte i := by
  unfold tmpfsFileOf TmpfsData.length TmpfsData.cap TmpfsData.byte
  rcases d with ⟨size, _ | tf⟩
  · exact ⟨_, if_pos (yes.resolve_left (by simp)), rfl, rfl, fun _ => rfl⟩
  · exact ⟨tf, rfl, rfl, rfl, fun _ => rfl⟩

theorem tmpfsGrow64_none {tf : TmpfsFile} {need : Nat} (refused : capAfter mem tf.cap need = none) :
    tmpfsGrow64 mem tf need = none := by
  unfold capAfter at refused
  unfold tmpfsGrow64
  split at refused
  · cases refused
  · rename_i more
    rw [if_neg more]
    cases buffer : mem.buffer with
    | none => rfl
    | some junk =>
      rw [buffer] at refused
      cases refused

theorem tmpfsGrow64_some {tf : TmpfsFile} {need c : Nat}
    (granted : capAfter mem tf.cap need = some c) :
    ∃ tf', tmpfsGrow64 mem tf need = some tf' ∧ tf'.size = tf.size ∧ tf'.cap = c ∧
      ∀ i, i < tf.cap → tf'.data i = tf.data i := by
  unfold capAfter at granted
  unfold tmpfsGrow64
  split at granted
  · rename_i fits
    obtain rfl := Option.some.inj granted
    rw [if_pos fits]
    exact ⟨tf, rfl, rfl, rfl, fun _ _ => rfl⟩
  · rename_i more
    rw [if_neg more]
    cases buffer : mem.buffer with
    | none =>
      rw [buffer] at granted
      cases granted
    | some junk =>
      rw [buffer] at granted
      obtain rfl := Option.some.inj granted
      exact ⟨_, rfl, rfl, rfl, fun i lt => if_pos lt⟩

/-- Without a `tmpfs_file_t`, or without a block, the write returns -1 and the file is as it was. -/
theorem tmpfsWrite64_refused {buf : List Byte} {off : Nat}
    (refused : ¬ HasFile mem d ∨ capAfter mem d.cap (sizeT (sizeT off + buf.length)) = none) :
    ∃ d', tmpfsWrite64 mem d buf off = .ok (none, d') ∧ d.Same d' := by
  unfold tmpfsWrite64
  by_cases file : HasFile mem d
  · obtain ⟨tf, found, size, cap, data⟩ := tmpfsFileOf_some file
    have none_ := tmpfsGrow64_none (by rw [cap]; exact refused.resolve_left (not_not_intro file))
    rw [found]
    dsimp only
    rw [none_]
    exact ⟨_, rfl, rfl, size, fun i _ => data i⟩
  · rw [tmpfsFileOf_none file]
    exact ⟨d, rfl, .refl d⟩

/-- A block that is too small is written past its end. -/
theorem tmpfsWrite64_outside {buf : List Byte} {off c : Nat} (file : HasFile mem d)
    (granted : capAfter mem d.cap (sizeT (sizeT off + buf.length)) = some c)
    (outside : c < sizeT off + buf.length) :
    tmpfsWrite64 mem d buf off = .error .outOfBounds := by
  obtain ⟨tf, found, _, cap, _⟩ := tmpfsFileOf_some file
  rw [← cap] at granted
  obtain ⟨tf', grown, _, cap', _⟩ := tmpfsGrow64_some granted
  unfold tmpfsWrite64
  rw [found]
  dsimp only
  rw [grown]
  dsimp only
  rw [cap', if_pos outside]

theorem tmpfsWrite64_stored {buf : List Byte} {off c : Nat} (ok : d.Ok) (small : off < 2 ^ 64)
    (some_ : buf ≠ []) (file : HasFile mem d)
    (granted : capAfter mem d.cap (sizeT (sizeT off + buf.length)) = some c)
    (inside : sizeT off + buf.length ≤ c) :
    ∃ d', tmpfsWrite64 mem d buf off = .ok (some buf.length, d') ∧ Stored d off buf d' ∧
      d'.file.isSome = true ∧ d'.cap = c := by
  have here := sizeT_of_lt small
  have more := List.length_pos_iff.mpr some_
  obtain ⟨low, block⟩ := ok
  rw [here] at granted inside
  -- a block has fewer than 2^64 bytes, so a sum that fits into one has not wrapped
  have below : c < 2 ^ 64 ∧ (c = d.cap ∨ d.cap < sizeT (off + buf.length)) := by
    unfold capAfter at granted
    split at granted
    · obtain rfl := Option.some.inj granted
      exact ⟨block, .inl rfl⟩
    · split at granted
      · obtain rfl := Option.some.inj granted
        exact ⟨sizeT_lt _, .inr (by omega)⟩
      · cases granted
  have need : sizeT (off + buf.length) = off + buf.length := sizeT_of_lt (by omega)
  have wide : d.cap ≤ c := by omega
  obtain ⟨tf, found, size, cap, data⟩ := tmpfsFileOf_some file
  rw [← cap] at granted
  obtain ⟨tf', grown, size', cap', kept⟩ := tmpfsGrow64_some granted
  unfold tmpfsWrite64
  rw [found, here]
  dsimp only
  rw [grown]
  dsimp only
  have newSize : (if tf'.size < sizeT (off + buf.length) then sizeT (off + buf.length)
      else tf'.size) = max d.length (off + buf.length) := by
    rw [need, size', size]
    split <;> omega
  rw [cap', if_neg (by omega), newSize]
  refine ⟨_, rfl, ?_, rfl, rfl⟩
  constructor
  case ok =>
    refine ⟨?_, ?_⟩
    · change max d.length (off + buf.length) ≤ c
      omega
    · exact below.1
  case size => rfl
  case length => rfl
  case written =>
    intro i from_ until_
    change copyInto tf'.data buf off i = _
    rw [List.getD_eq_getElem?_getD, copyInto_inside from_ until_, Option.getD_some]
  case rest =>
    intro i lt out
    change copyInto tf'.data buf off i = _
    rw [copyInto_outside out, kept i (by omega), data]

end Write

/-! ## One read -/

theorem tmpfsRead64_bytes {d : TmpfsData} (ok : d.Ok) {off : Nat} (small : off < 2 ^ 64)
    (count : Nat) :
    tmpfsRead64 d count off =
      .ok ((List.range (min count (d.length - off))).map fun i => d.byte (off + i)) := by
  have low := ok.inside
  rw [tmpfsRead64, sizeT_of_lt small, tmpfsRead]
  rcases d with ⟨size, _ | tf⟩
  · simp [TmpfsData.length]
  · change tf.size ≤ tf.cap at low
    change (if tf.size ≤ off then _ else _) =
      Except.ok ((List.range (min count (tf.size - off))).map fun i => tf.data (off + i))
    by_cases past : tf.size ≤ off
    · rw [if_pos past, show min count (tf.size - off) = 0 by omega]
      rfl
    · rw [if_neg past]
      dsimp only
      rw [show (if count < tf.size - off then count else tf.size - off) =
        min count (tf.size - off) by split <;> omega, if_neg (by omega)]

/-! ## Descriptors -/

/-- The state with the data of one file replaced. -/
def Calling.withFile {φ : Type} (k : Calling φ) (n : Nat) (d : φ) : Calling φ :=
  { k with vfs := { k.vfs with file := Function.update k.vfs.file n d } }

/-- The state with the offset of one descriptor moved on. -/
def Calling.moved {φ : Type} (k : Calling φ) (fd : Int) (f : File) (n : Nat) : Calling φ :=
  { k with self := { k.self with
      files := Function.update k.self.files fd.toNat { f with offset := f.offset + n } } }

/-- The descriptor is open and its file is one of tmpfs. -/
structure OnTmpfs {φ : Type} (k : Calling φ) (fd : Int) (f : File) : Prop where
  opened : k.self.opened fd = some f
  table : (k.vfs.node f.vnode).ops = .tmpfsFile

section Descriptors

variable {φ : Type} {ops : FileOps φ} {k : Calling φ} {fd : Int} {f : File}

theorem OnTmpfs.withFile (on : OnTmpfs k fd f) (d : φ) : OnTmpfs (k.withFile f.vnode d) fd f :=
  ⟨on.opened, on.table⟩

theorem OnTmpfs.moved (on : OnTmpfs k fd f) (n : Nat) :
    OnTmpfs (k.moved fd f n) fd { f with offset := f.offset + n } :=
  ⟨opened_moved on.opened _, on.table⟩

theorem OnTmpfs.moved_zero (on : OnTmpfs k fd f) : k.moved fd f 0 = k := by
  obtain ⟨_, _, same, _⟩ := opened_valid on.opened
  rw [Calling.moved, Nat.add_zero]
  change { k with self := { k.self with files := Function.update k.self.files fd.toNat f } } = k
  rw [same, Function.update_eq_self]

@[simp] theorem Calling.moved_vfs (k : Calling φ) (fd : Int) (f : File) (n : Nat) :
    (k.moved fd f n).vfs = k.vfs := rfl

theorem Calling.moved_moved (k : Calling φ) (fd : Int) (f : File) (m n : Nat) :
    (k.moved fd f m).moved fd { f with offset := f.offset + m } n = k.moved fd f (m + n) := by
  simp only [Calling.moved, Function.update_idem, Nat.add_assoc]

theorem OnTmpfs.unchanged (on : OnTmpfs k fd f) :
    (k.withFile f.vnode (k.vfs.file f.vnode)).moved fd f 0 = k := by
  have same : k.withFile f.vnode (k.vfs.file f.vnode) = k := by
    rw [Calling.withFile, Function.update_eq_self]
  rw [same, on.moved_zero]

@[simp] theorem Calling.withFile_file (k : Calling φ) (n : Nat) (d : φ) :
    (k.withFile n d).vfs.file n = d := Function.update_self ..

theorem Calling.moved_withFile (k : Calling φ) (fd : Int) (f : File) (d d' : φ) (m n : Nat) :
    (((k.withFile f.vnode d).moved fd f m).withFile f.vnode d').moved fd
        { f with offset := f.offset + m } n =
      (k.withFile f.vnode d').moved fd f (m + n) := by
  simp only [Calling.moved, Calling.withFile, Function.update_idem, Nat.add_assoc]

theorem vfsReadIn_tmpfs (on : OnTmpfs k fd f) {count : Nat} {bytes : List Byte}
    (read : ops.read (k.vfs.file f.vnode) count f.offset = .ok bytes) :
    vfsReadIn ops fd count k = .ok (some bytes) (k.moved fd f bytes.length) := by
  refine run_of_wp ?_
  unfold vfsReadIn
  rw [wp_bind, wp_get, on.opened]
  dsimp only
  rw [on.table]
  dsimp only
  rw [read]
  exact ⟨rfl, rfl⟩

theorem vfsWriteIn_refused (on : OnTmpfs k fd f) {mem : Alloc} {buf : List Byte} {d : φ}
    (wrote : ops.write mem (k.vfs.file f.vnode) buf f.offset = .ok (none, d)) :
    vfsWriteIn ops mem fd buf k = .ok none (k.withFile f.vnode d) := by
  refine run_of_wp ?_
  unfold vfsWriteIn
  rw [wp_bind, wp_get, on.opened]
  dsimp only
  rw [on.table]
  dsimp only
  rw [wp_bind, wp_run (onVfs_ok (onFile_ok wrote))]
  exact ⟨rfl, rfl⟩

theorem vfsWriteIn_stored (on : OnTmpfs k fd f) {mem : Alloc} {buf : List Byte} {d : φ} {n : Nat}
    (wrote : ops.write mem (k.vfs.file f.vnode) buf f.offset = .ok (some n, d)) :
    vfsWriteIn ops mem fd buf k = .ok (some n) ((k.withFile f.vnode d).moved fd f n) := by
  refine run_of_wp ?_
  unfold vfsWriteIn
  rw [wp_bind, wp_get, on.opened]
  dsimp only
  rw [on.table]
  dsimp only
  rw [wp_bind, wp_run (onVfs_ok (onFile_ok wrote))]
  exact ⟨rfl, rfl⟩

theorem vfsWriteIn_outside (on : OnTmpfs k fd f) {mem : Alloc} {buf : List Byte} {e : VfsHalt}
    (wrote : ops.write mem (k.vfs.file f.vnode) buf f.offset = .error e) :
    ∃ k', vfsWriteIn ops mem fd buf k = .error e k' := by
  have file : onFile f.vnode (fun d => ops.write mem d buf f.offset) k.vfs = .error e k.vfs := by
    refine result_of_wp ?_
    unfold onFile
    rw [wp_bind, wp_get]
    dsimp only
    rw [wrote]
    rfl
  have call : onVfs (onFile f.vnode fun d => ops.write mem d buf f.offset) k = .error e k := by
    unfold onVfs
    rw [file]
  refine ⟨k, result_of_wp ?_⟩
  unfold vfsWriteIn
  rw [wp_bind, wp_get, on.opened]
  dsimp only
  rw [on.table]
  dsimp only
  rw [wp_bind, wp_halt call]

end Descriptors

end LithiumKernel.Fs
