import LithiumKernel.Syscall.FileIo

/-!
# What file I/O transfers (kernel/syscall/syscall.c)

A call that gets through moves the bytes of one plain transfer, wherever the chunks end. A call that
fails has moved all chunks before the one that stopped it, and a read the offset of that chunk too.
-/
namespace LithiumKernel.Syscall

open LithiumKernel.Lib LithiumKernel.Lib.ByteMem LithiumKernel.Mm

variable {K : KernelTables} {reserved : Nat → Prop} {roots : List Nat} {g : SpaceGhost}
  {st : IoState} {fd : Int} {f : Fs.File} {alloc : Nat → Fs.Alloc} {d : Fs.TmpfsData} {off : Nat}
  {buf : Word} {count : Nat}

/-! ## Calls that get through -/

/-- The write ends inside the block of the file, or the size of a new block can be computed. -/
def Sized (d : Fs.TmpfsData) (off count : Nat) : Prop :=
  off + count ≤ d.cap ∨ (off + count) * 2 + 64 < 2 ^ 64

theorem chunkStop_le (count j : Nat) : chunkStop count j ≤ count := Nat.min_le_right ..

theorem capAfter_served {mem : Fs.Alloc} (serves : mem.Serves) {cap need : Nat}
    (room : need ≤ cap ∨ need * 2 + 64 < 2 ^ 64) :
    ∃ c, Fs.capAfter mem cap need = some c ∧ need ≤ c ∧ cap ≤ c := by
  unfold Fs.capAfter
  by_cases fits : need ≤ cap
  · rw [if_pos fits]
    exact ⟨cap, rfl, fits, le_refl _⟩
  · have small := room.resolve_left fits
    rw [if_neg fits, if_pos serves.2, Fs.sizeT_of_lt small]
    exact ⟨_, rfl, by omega, by omega⟩

/-- With every allocation granted, each chunk finds a block. -/
theorem capAt_served (ok : d.Ok) (serves : ∀ i, (alloc i).Serves) (room : Sized d off count) :
    ∀ j, ∃ c, capAt alloc d off count j = some c ∧ d.cap ≤ c ∧
      ∃ c', capAt alloc d off count (j + 1) = some c' ∧ d.cap ≤ c' ∧ off + chunkStop count j ≤ c' := by
  have block := ok.block
  have step : ∀ {j c}, capAt alloc d off count j = some c → d.cap ≤ c →
      ∃ c', capAt alloc d off count (j + 1) = some c' ∧ d.cap ≤ c' ∧
        off + chunkStop count j ≤ c' := by
    intro j c here low
    have le := chunkStop_le count j
    have sum : Fs.sizeT (off + chunkStop count j) = off + chunkStop count j := by
      apply Fs.sizeT_of_lt
      rcases room with inside | small <;> omega
    obtain ⟨c', granted, reach, wide⟩ := @capAfter_served _ (serves (Fs.chunkSize * j))
      c (off + chunkStop count j) (by rcases room with inside | small <;> omega)
    refine ⟨c', ?_, by omega, reach⟩
    rw [capAt, here, Option.bind_some, sum, granted]
  intro j
  induction j with
  | zero =>
    have first : capAt alloc d off count 0 = some d.cap := if_pos (.inr (serves 0).1)
    exact ⟨d.cap, first, le_refl _, step first (le_refl _)⟩
  | succ j ih =>
    obtain ⟨_, _, _, c', next, low, _⟩ := ih
    exact ⟨c', next, low, step next low⟩

theorem chunkReadable_of_range {s : MemState} {j : Nat} (more : Fs.chunkSize * j < count)
    (inside : RangeInside buf.toNat count) (mapped : RangeMapped s.mem s.cr3 buf.toNat count) :
    ChunkReadable s buf count j := by
  obtain ⟨low, high⟩ := inside
  obtain ⟨stop, _, _, _⟩ := chunkStop_facts more
  have le := chunkStop_le count j
  have value : (buf + BitVec.ofNat 64 (Fs.chunkSize * j)).toNat = buf.toNat + Fs.chunkSize * j := by
    rw [BitVec.toNat_add, BitVec.toNat_ofNat]
    omega
  rw [ChunkReadable, value]
  exact ⟨⟨by omega, by omega⟩, fun a from_ until_ => mapped a (by omega) (by omega)⟩

theorem sysWriteImpl_ends (on : Fs.OnTmpfs st.fs fd f) (ok : (st.fs.vfs.file f.vnode).Ok)
    (small : f.offset < 2 ^ 64) (alloc : Nat → Fs.Alloc) (buf : Word) (count : Nat) :
    wp (sysWriteImpl Fs.tmpfsFileOps64 alloc fd buf count)
      (WriteEnds alloc (st.fs.vfs.file f.vnode) f.offset fd f buf count 0 st)
      (fun _ _ => ¬ AllFit st.mm alloc (st.fs.vfs.file f.vnode) f.offset buf count 0 ∧
        ¬ ChunkRefused st.mm alloc (st.fs.vfs.file f.vnode) f.offset buf count 0) st := by
  have run := sysWriteLoop_ends alloc (st.fs.vfs.file f.vnode) f.offset fd buf count count 0 on ok
    small (fun _ => rfl) rfl (by omega)
  rwa [Nat.mul_zero, Nat.zero_min] at run

theorem sysReadImpl_ends (on : Fs.OnTmpfs st.fs fd f) (ok : (st.fs.vfs.file f.vnode).Ok)
    (small : f.offset < 2 ^ 64) (h : Spaces K reserved roots st.mm g)
    (alone : WritableAlone roots st.mm) (buf : Word) (count : Nat) :
    ∃ r st', sysReadImpl Fs.tmpfsFileOps64 fd buf count st = .ok (some r) st' ∧
      ReadEnds roots fd f buf 0 (min count ((st.fs.vfs.file f.vnode).length - f.offset)) st r st' := by
  obtain ⟨_, _, same, valid⟩ := Fs.opened_valid on.opened
  have file : ¬ (fd = 0 ∧ ¬ (st.fs.self.files 0).valid = true) := by
    rintro ⟨rfl, closed⟩
    rw [same] at valid
    exact closed valid
  have run : wp (sysReadLoop Fs.tmpfsFileOps64 fd buf count count 0) _ (fun _ _ => False) st :=
    sysReadLoop_ends count 0 on ok small h (alone.writers h) (by omega) rfl
  obtain ⟨r, st', ran, ends⟩ := exists_run run
  rw [BitVec.add_zero] at ends
  refine ⟨r, st', ?_, ends⟩
  refine run_of_wp ?_
  unfold sysReadImpl
  rw [wp_bind, wp_get, if_neg file, wp_bind, wp_run ran]
  exact ⟨rfl, rfl⟩

/-- **Chunked file I/O equals unchunked I/O.** For every file of tmpfs and every open descriptor of
it, a write of a readable buffer stores its bytes at the offset, and a read delivers the bytes of the
file from the offset on; both return their number and move the offset by it. -/
theorem chunked_io_equals_plain (on : Fs.OnTmpfs st.fs fd f) (ok : (st.fs.vfs.file f.vnode).Ok)
    (small : f.offset < 2 ^ 64) (h : Spaces K reserved roots st.mm g)
    (alone : WritableAlone roots st.mm) (buf : Word) (count : Nat) :
    (∀ alloc : Nat → Fs.Alloc, (∀ i, (alloc i).Serves) →
      (count = 0 ∨ RangeInside buf.toNat count ∧
        RangeMapped st.mm.mem st.mm.cr3 buf.toNat count) →
      Sized (st.fs.vfs.file f.vnode) f.offset count →
      ∃ bytes st', sysWriteImpl Fs.tmpfsFileOps64 alloc fd buf count st = .ok count st' ∧
        bytes.length = count ∧ Bytes (userBytes st.mm.mem st.mm.cr3) buf.toNat bytes ∧
        Wrote fd f bytes st st') ∧
    ∀ n, n = min count ((st.fs.vfs.file f.vnode).length - f.offset) →
      (n = 0 ∨ Accessible st.mm buf n) →
      ∃ st', sysReadImpl Fs.tmpfsFileOps64 fd buf count st = .ok (some (n : Int)) st' ∧
        st'.fs = st.fs.moved fd f n ∧
        Delivered roots st.mm buf n (fun i => (st.fs.vfs.file f.vnode).byte (f.offset + i)) st'.mm := by
  constructor
  · intro alloc serves readable room
    have all : AllFit st.mm alloc (st.fs.vfs.file f.vnode) f.offset buf count 0 := by
      intro j _ more
      obtain ⟨inside, mapped⟩ := readable.resolve_left (by omega)
      obtain ⟨_, _, _, c, granted, _, reach⟩ := capAt_served ok serves room j
      exact ⟨chunkReadable_of_range more inside mapped, c, granted, reach⟩
    obtain ⟨r, st', ran, ends⟩ := exists_run (wp_mono (sysWriteImpl_ends on ok small alloc buf count)
      (fun _ _ => id) fun _ _ no => no.1 all)
    cases ends with
    | @whole _ bytes _ length stands wrote =>
      rw [Nat.mul_zero, BitVec.add_zero] at stands
      exact ⟨bytes, st', ran, length, stands, wrote⟩
    | refused _ more refused => exact absurd refused (all 0 (le_refl _) more).not_refused
    | part _ notAll => exact absurd all notAll
  · rintro n rfl room
    obtain ⟨r, st', ran, ends⟩ := sysReadImpl_ends on ok small h alone buf count
    cases ends with
    | whole _ fs delivered =>
      rw [Nat.zero_add] at ran
      exact ⟨st', ran, fs, delivered⟩
    | fault no => exact absurd room no

/-! ## A file on the small machine -/

/-- Descriptor 3 is one of the file, with the task of the small machine. -/
def smallIo (d : Fs.TmpfsData) (off : Nat) : IoState where
  fs := {
    vfs := ⟨fun _ => ⟨[], .file, .tmpfsFile, none, none, none⟩, fun _ => d, 1, 0⟩
    self := ⟨[], fun i => ⟨0, off, i == 3⟩⟩ }
  mm := smallTask.mm

/-- The bytes 0, 1, 2 and 3. -/
def smallFile : Fs.TmpfsData := ⟨4, some ⟨BitVec.ofNat 8, 4, 64⟩⟩

def allServed (_ : Nat) : Fs.Alloc := ⟨true, true, true, some fun _ => 0#8⟩

theorem smallIo_on (d : Fs.TmpfsData) (off : Nat) : Fs.OnTmpfs (smallIo d off).fs 3 ⟨0, off, true⟩ :=
  ⟨rfl, rfl⟩

theorem smallFile_ok : smallFile.Ok := ⟨by decide, by decide⟩

theorem smallIo_readable : RangeInside (0x400FF100#64).toNat 130 ∧
    RangeMapped smallTask.mm.mem smallTask.mm.cr3 (0x400FF100#64).toNat 130 :=
  (copyFromUser_iff (by decide)).mp (by decide +kernel)

theorem smallIo_accessible (h : Spaces K reserved roots smallTask.mm g) :
    Accessible smallTask.mm 0x400FF100#64 4 := by
  have some_ : 0 < (List.replicate 4 0#8).length := by decide
  obtain ⟨result, s', ran, outcome⟩ :=
    copyToUser_chunk h ((smallTask_alone h).writers h) 0x400FF100#64 some_
  have value : (resultValue (copyToUser 0x400FF100#64 (List.replicate 4 0#8) smallTask.mm)).map
      Prod.fst = some true := by decide +kernel
  rw [ran] at value
  rw [if_pos (Option.some.inj value)] at outcome
  exact outcome.1

/-- A write of 130 bytes of the stack, and a read of the four bytes of the file. -/
theorem chunked_io_equals_plain_small :
    ∃ reserved roots g, Spaces smallTables reserved roots smallTask.mm g ∧
      (∃ st', sysWriteImpl Fs.tmpfsFileOps64 allServed 3 0x400FF100#64 130 (smallIo smallFile 0) =
        .ok 130 st') ∧
      ∃ st', sysReadImpl Fs.tmpfsFileOps64 3 0x400FF100#64 130 (smallIo smallFile 0) =
        .ok (some 4) st' ∧ userLoad st'.mm.mem smallTask.mm.cr3 0x400FF103#64 = some 3#8 := by
  obtain ⟨roots, ⟨_, g, system⟩, root, _⟩ := smallUser_sound
  have loaded : smallTask.mm.cr3 = smallUser.cr3 := by decide +kernel
  have both := chunked_io_equals_plain (smallIo_on smallFile 0) smallFile_ok
    (by decide) system.toSpaces (smallTask_alone system.toSpaces) 0x400FF100#64 130
  obtain ⟨_, st₁, wrote, _⟩ := both.1 allServed (fun _ => ⟨rfl, rfl⟩) (.inr smallIo_readable)
    (.inr (by decide))
  obtain ⟨st₂, read, _, _, loads⟩ := both.2 4 (by decide) (.inr (smallIo_accessible system.toSpaces))
  refine ⟨_, roots, g, system.toSpaces, ⟨st₁, wrote⟩, st₂, read, ?_⟩
  rw [loads _ (by rwa [loaded]) _ (by decide)]
  rfl

/-- One readable byte, every allocation served: at offset `2^63` the size of the new block wraps
around, and the write goes past its end. -/
theorem sparse_write_leaves_block :
    (copyFromUser smallTask.mm.mem smallTask.mm.cr3 0x400FF100#64 1).isSome = true ∧
      (∀ i, (allServed i).Serves) ∧
      resultValue (sysWriteImpl Fs.tmpfsFileOps64 allServed 3 0x400FF100#64 1
        (smallIo smallFile (2 ^ 63))) = none :=
  ⟨by decide +kernel, fun _ => ⟨rfl, rfl⟩, by decide +kernel⟩

/-! ## Calls that fail -/

/-- The contents and the size of the file and the offset of the descriptor are as before. -/
def Untouched (fd : Int) (f : Fs.File) (st st' : IoState) : Prop :=
  (st.fs.vfs.file f.vnode).Same (st'.fs.vfs.file f.vnode) ∧
    Fs.sizeT (st'.fs.self.files fd.toNat).offset = f.offset

theorem moved_offset (k : Fs.Calling Fs.TmpfsData) (fd : Int) (f : Fs.File) (n : Nat) :
    ((k.moved fd f n).self.files fd.toNat).offset = f.offset + n := by
  rw [Fs.Calling.moved]
  dsimp only
  rw [Function.update_self]

/-- An offset that has moved, and not around, is another one. -/
theorem not_untouched {k : Fs.Calling Fs.TmpfsData} {m : Nat} {st' : IoState}
    (fs : st'.fs = k.moved fd f m) (more : 0 < m) (small : f.offset + m < 2 ^ 64) :
    ¬ Untouched fd f st st' := by
  rintro ⟨_, offset⟩
  rw [fs, moved_offset, Fs.sizeT_of_lt small] at offset
  omega

theorem untouched_refused {e : Fs.TmpfsData} {st' : IoState} (small : f.offset < 2 ^ 64)
    (same : (st.fs.vfs.file f.vnode).Same e)
    (fs : st'.fs = (st.fs.withFile f.vnode e).moved fd f 0) : Untouched fd f st st' := by
  refine ⟨?_, ?_⟩
  · rw [fs, Fs.Calling.moved_vfs, Fs.Calling.withFile_file]
    exact same
  · rw [fs, moved_offset, Nat.add_zero, Fs.sizeT_of_lt small]

/-- A write transfers nothing when it fails, iff it does not fail or its first chunk is refused. A
read does, iff there is room for all bytes there are to read. -/
theorem failed_io_transfers_nothing_iff (on : Fs.OnTmpfs st.fs fd f)
    (ok : (st.fs.vfs.file f.vnode).Ok) (small : f.offset < 2 ^ 64)
    (h : Spaces K reserved roots st.mm g) (alone : WritableAlone roots st.mm) (buf : Word)
    (count : Nat) :
    (∀ alloc : Nat → Fs.Alloc,
      (∃ r st', sysWriteImpl Fs.tmpfsFileOps64 alloc fd buf count st = .ok r st' ∧
        (r < 0 → Untouched fd f st st')) ↔
      AllFit st.mm alloc (st.fs.vfs.file f.vnode) f.offset buf count 0 ∨
        0 < count ∧ ChunkRefused st.mm alloc (st.fs.vfs.file f.vnode) f.offset buf count 0) ∧
    ((∃ r st', sysReadImpl Fs.tmpfsFileOps64 fd buf count st = .ok (some r) st' ∧
        (r < 0 → Untouched fd f st st')) ↔
      min count ((st.fs.vfs.file f.vnode).length - f.offset) = 0 ∨
        Accessible st.mm buf (min count ((st.fs.vfs.file f.vnode).length - f.offset))) := by
  constructor
  · intro alloc
    have ends := sysWriteImpl_ends on ok small alloc buf count
    constructor
    · rintro ⟨r, st', ran, nothing⟩
      rw [wp_run ran] at ends
      cases ends with
      | whole all => exact .inl all
      | refused _ more refused => exact .inr ⟨more, refused⟩
      | part negative _ _ more inside fs =>
        exact absurd (nothing negative) (not_untouched fs more inside)
    · intro fits
      obtain ⟨r, st', ran, ends⟩ := exists_run (wp_mono ends (fun _ _ => id) fun _ _ no =>
        fits.elim no.1 fun refused => no.2 refused.2)
      refine ⟨r, st', ran, fun negative => ?_⟩
      cases ends with
      | whole => omega
      | refused _ _ _ same fs => exact untouched_refused small same fs
      | part _ notAll notRefused => exact absurd fits (by tauto)
  · obtain ⟨r, st', ran, ends⟩ := sysReadImpl_ends on ok small h alone buf count
    constructor
    · rintro ⟨r', st'', ran', nothing⟩
      rw [ran] at ran'
      cases ran'
      cases ends with
      | whole room => exact room
      | fault _ more inside fs =>
        exact absurd (nothing (by decide)) (not_untouched fs more inside)
    · intro room
      refine ⟨r, st', ran, fun negative => ?_⟩
      cases ends with
      | whole => omega
      | fault no => exact absurd room no

/-- A write of 130 bytes of the stack and a read of the file to it. -/
theorem failed_io_transfers_nothing_iff_small :
    ∃ reserved roots g, Spaces smallTables reserved roots smallTask.mm g ∧
      ∃ r st', sysReadImpl Fs.tmpfsFileOps64 3 0x400FF100#64 130 (smallIo smallFile 0) =
        .ok (some r) st' ∧ (r < 0 → Untouched 3 ⟨0, 0, true⟩ (smallIo smallFile 0) st') := by
  obtain ⟨roots, ⟨_, g, system⟩, _, _⟩ := smallUser_sound
  exact ⟨_, roots, g, system.toSpaces, (failed_io_transfers_nothing_iff
    (smallIo_on smallFile 0) smallFile_ok (by decide) system.toSpaces
    (smallTask_alone system.toSpaces) 0x400FF100#64 130).2.mpr
      (.inr (smallIo_accessible system.toSpaces))⟩

/-- A read to a page that is not mapped fails and has moved the offset by four; a write that runs
out of the stack fails after it has stored one chunk. -/
theorem failed_io_moves_offset :
    (∃ st', sysReadImpl Fs.tmpfsFileOps64 3 0x60000000#64 4 (smallIo smallFile 0) =
      .ok (some (-14)) st' ∧ ¬ Untouched 3 ⟨0, 0, true⟩ (smallIo smallFile 0) st') ∧
    ∃ st', sysWriteImpl Fs.tmpfsFileOps64 allServed 3 0x400FFF80#64 256 (smallIo smallFile 0) =
      .ok (-14) st' ∧ ¬ Untouched 3 ⟨0, 0, true⟩ (smallIo smallFile 0) st' := by
  refine ⟨⟨_, result_eq (by decide +kernel), fun same => ?_⟩,
    ⟨_, result_eq (by decide +kernel), fun same => ?_⟩⟩
  · exact absurd same.2 (by decide +kernel)
  · exact absurd same.2 (by decide +kernel)

end LithiumKernel.Syscall
