import LithiumKernel.Fs.Calls
import LithiumKernel.Mm.HeapObjects
import LithiumKernel.Mm.KernelWork
import LithiumKernel.Proc.ElfImage
import LithiumKernel.Syscall.ExecArgs
import LithiumKernel.Syscall.KernelWindow

/-!
# The `execve` call (kernel/syscall/syscall.c, kernel/sched/task.c)

`sys_execve_impl` over the memory, the file system and the calling task. It has two buffers
from the heap, one for the arguments with the stack page and one for the program file. Their
contents are values here; what `kmalloc` and `kfree` do to the page tables and the frame pool
is modelled. Whether a slab has a free object for the file buffer is a parameter.
-/
namespace LithiumKernel.Syscall

open LithiumKernel.Lib LithiumKernel.Mm LithiumKernel.Proc

/-! ## The heap blocks of the call -/

/-- A block of the heap: an object of a slab page, which stays mapped, or pages of its own. -/
inductive HeapBlock where
  | object
  | pages (virt : Word) (count : Nat)

/-- The part of `kmalloc` that changes mappings; `free` says whether a slab of the size class
has a free object. -/
def kmallocPages (free : Bool) (size : Word) : MmM (Option HeapBlock) :=
  match sizeToClass (max size.toNat 16 % 2 ^ 32) with
  | some _ =>
    if free then pure (some .object)
    else do
      match ← slabAllocPage with
      | none => pure none
      | some _ => pure (some .object)
  | none => do
    match ← kmallocLarge size with
    | none => pure none
    | some p => pure (some (.pages (p - 16#64) ((largeBytes size).toNat / 4096)))

def kfreePages : HeapBlock → MmM Unit
  | .object => pure ()
  | .pages virt count => kfreeLarge virt count

/-! ## The call -/

def taskNameMax : Nat := 32

/-- The fields of `task_t` that `execve` reads or may set. -/
structure ExecTask where
  memory : UserTask
  userMode : Bool
  userEntry : Word
  userStackTop : Word
  name : List Byte
  fs : Fs.FsTask

structure UserFrame where
  userRip : Word
  userRsp : Word

structure ExecState (φ : Type) where
  mm : MemState
  vfs : Fs.Vfs φ
  task : ExecTask
  frame : UserFrame

inductive ExecHalt where
  | kassert (e : Kassert)
  | vfs (e : Fs.VfsHalt)

abbrev ExecM (φ : Type) := EStateM ExecHalt (ExecState φ)

variable {φ : Type}

def onMemory {α : Type} (m : MmM α) : ExecM φ α := fun st =>
  match m st.mm with
  | .ok a s => .ok a { st with mm := s }
  | .error e s => .error (.kassert e) { st with mm := s }

def onFiles {α : Type} (m : Fs.VfsM φ α) : ExecM φ α := fun st =>
  match m st.vfs with
  | .ok a v => .ok a { st with vfs := v }
  | .error e v => .error (.vfs e) { st with vfs := v }

/-- `vfs_read_all` with the buffer it allocates. -/
def readAll (ops : Fs.FileOps φ) (free : Bool) (path : CString) :
    ExecM φ (Option (List Byte × HeapBlock)) := do
  match ← onFiles (Fs.vfsLookup path) with
  | none => pure none
  | some n =>
    let v := (← get).vfs
    if (v.node n).type ≠ .file ∨ (v.node n).ops ≠ .tmpfsFile then pure none
    else
      let size := ops.size (v.file n)
      match ← onMemory (kmallocPages free (BitVec.ofNat 64 (if size = 0 then 1 else size))) with
      | none => pure none
      | some block =>
        match ops.read (v.file n) size 0 with
        | .error e => throw (.vfs e)
        | .ok bytes =>
          if bytes.length ≠ size then do
            onMemory (kfreePages block)
            pure none
          else pure (some (bytes, block))

/-- `strrchr(path, '/') + 1`, or the whole path if there is no slash. -/
def programName (path : CString) : CString := (path.reverse.takeWhile (· ≠ Fs.slash)).reverse

/-- `task_replace_user_elf` for the current task; the entry point and the stack pointer. -/
def taskReplaceUserElf (name : CString) (image stack : List Byte) (rsp : Word) :
    ExecM φ (Option (Word × Word)) := do
  let t := (← get).task
  if t.userMode = false ∨ image.length = 0 then pure none
  else
    match ← onMemory (replaceUserElf t.memory image stack rsp) with
    | none => pure none
    | some memory =>
      modify fun st => { st with task :=
        { st.task with
          memory := memory
          userEntry := eEntry image
          userStackTop := userStackTop
          name := strncpy st.task.name name (taskNameMax - 1) } }
      pure (some (eEntry image, rsp))

/-- The bytes of the stack page that `build_exec_stack` has built. -/
def stackImage (stack : ByteMem) : List Byte := (List.range 4096).map fun i => (stack i).getD 0#8

/-- `sys_execve_impl` between the `kmalloc` and the `kfree` of its argument buffer. -/
def execveLoaded (ops : Fs.FileOps φ) (free : Bool) (path : CString) (argv envp : Word) :
    ExecM φ (Except Errno (Word × Word)) := do
  let mm := (← get).mm
  match collectExecVector mm.mem mm.cr3 argv with
  | .error e => pure (.error e)
  | .ok args =>
    match collectExecVector mm.mem mm.cr3 envp with
    | .error e => pure (.error e)
    | .ok envs =>
      match buildExecStack args envs with
      | .error e => pure (.error e)
      | .ok (stack, rsp) =>
        match ← readAll ops free path with
        | none => pure (.error .enoent)
        | some (image, block) =>
          let replaced ← taskReplaceUserElf (programName path) image (stackImage stack) rsp
          onMemory (kfreePages block)
          match replaced with
          | none => pure (.error .enoexec)
          | some started => pure (.ok started)

/-- `sizeof(exec_args_t)`: two tables of strings and the stack page. -/
def execArgsSize : Word := BitVec.ofNat 64 (2 * (execMaxArgs * execStrMax) + 4096)

def sysExecve (ops : Fs.FileOps φ) (free : Bool) (userPath argv envp : Word) :
    ExecM φ (Except Errno Unit) := do
  let st ← get
  if st.task.userMode = false then pure (.error .einval)
  else
    match copyUserString st.mm.mem st.mm.cr3 userPath Fs.vfsMaxPath with
    | .error e => pure (.error e)
    | .ok raw =>
      match Fs.resolvePath (cstr st.task.fs.cwd) raw with
      | none => pure (.error .einval)
      | some path =>
        match ← onMemory (kmallocPages free execArgsSize) with
        | none => pure (.error .enomem)
        | some args =>
          let loaded ← execveLoaded ops free path argv envp
          onMemory (kfreePages args)
          match loaded with
          | .error e => pure (.error e)
          | .ok (entry, rsp) =>
            modify fun st => { st with frame := ⟨entry, rsp⟩ }
            pure (.ok ())

/-- The bytes of the file that the path in user memory names. -/
def namedFile (ops : Fs.FileOps φ) (st : ExecState φ) (userPath : Word) : Option (List Byte) :=
  match copyUserString st.mm.mem st.mm.cr3 userPath Fs.vfsMaxPath with
  | .error _ => none
  | .ok raw =>
    match Fs.resolvePath (cstr st.task.fs.cwd) raw with
    | none => none
    | some path =>
      match Fs.vfsLookup path st.vfs with
      | .ok (some n) v => (ops.read (v.file n) (ops.size (v.file n)) 0).toOption
      | _ => none

/-! ## What the steps leave unseen -/

section Steps

variable {K : KernelTables} {s₀ s : MemState} {g₀ g : SpaceGhost}

/-- The pages of a block lie where the heap takes its pages. -/
def HeapBlock.Fine : HeapBlock → Prop
  | .object => True
  | .pages virt count => ∀ i < count, HeapOrWindow (virt + BitVec.ofNat 64 (i * 4096))

theorem kmallocPages_unseen (h : Unseen K s₀ g₀ s g) (next : HeapOrWindow s.kheapNext) (free : Bool)
    (size : Word) :
    wp (kmallocPages free size) (fun result s' => (∃ g', Unseen K s₀ g₀ s' g') ∧
      ∀ block, result = some block → block.Fine ∧ HeapOrWindow s'.kheapNext)
      (fun _ _ => True) s := by
  suffices spec : wp (kmallocPages free size) _ Saturated s from
    wp_mono spec (fun _ _ post => post) (fun _ _ _ => trivial)
  unfold kmallocPages
  split
  · apply wp_ite
    · intro _
      refine ⟨⟨g, h⟩, ?_⟩
      rintro block ⟨rfl⟩
      exact ⟨trivial, next⟩
    · intro _
      refine wp_seq (h.slabAllocPage next) ?_
      rintro (_ | p) s' ⟨after, heap⟩
      · exact ⟨after, nofun⟩
      · refine ⟨after, ?_⟩
        rintro block ⟨rfl⟩
        exact ⟨trivial, heap p rfl⟩
  · refine wp_seq (h.kmallocLarge next size) ?_
    rintro (_ | p) s' ⟨after, placed⟩
    · exact ⟨after, nofun⟩
    · refine ⟨after, ?_⟩
      rintro block ⟨rfl⟩
      exact ⟨(placed p rfl).2, (placed p rfl).1⟩

theorem kfreePages_hidden (h : Hidden K s₀ g₀ s) {block : HeapBlock} (fine : block.Fine) :
    wp (kfreePages block) (fun _ s' => Hidden K s₀ g₀ s') (fun _ _ => True) s := by
  cases block with
  | object => exact h
  | pages virt count => exact h.kfreeLarge fine

theorem unseen_filling (h : Unseen K s₀ g₀ s g) {r : Nat} {placed : List Placed} {s' : MemState}
    {g' : SpaceGhost} (filling : Filling K.pdptHh r s g placed s' g') (other : r ≠ s₀.cr3) :
    Unseen K s₀ g₀ s' g' := by
  refine h.keep filling.toGrow.keep filling.vm ?_ ?_
  · intro f _ pos
    exact Nat.lt_of_lt_of_le pos (filling.ext f)
  · intro q
    exact filling.others _ fun same => other (Owner.user.inj same).symm

/-- A replacement that fails: what had been built of the new space is gone again. -/
theorem replaceUserElf_unseen (h : Unseen K s₀ g₀ s g) {image : List Byte} (task : UserTask)
    (stack : List Byte) (rsp : Word)
    (high : ∀ ph ∈ loads (phdrs image), 2 ^ 30 ≤ ph.pVaddr.toNat) :
    wp (replaceUserElf task image stack rsp) (fun result s' => result = none →
      ∃ g', Unseen K s₀ g₀ s' g') (fun _ _ => True) s := by
  have load := loadUserImage_spec h.vm h.current.1 (fun _ => h.current.2) high
  unfold replaceUserElf
  refine wp_seq (wp_mono load (fun _ _ post => post) (fun _ _ _ => trivial)) ?_
  rintro (_ | image) s₁ outcome
  · rintro -
    rcases outcome with ⟨g₁, quiet⟩ | ⟨r, s₂, g₂, placed, s₃, g₃, g₁, made, filling, gone, _⟩
    · exact ⟨g₁, h.quiet quiet⟩
    · have other := h.other_root made.unused.2
      exact ⟨g₁, (unseen_filling (h.created made) filling other).destroyed gone other⟩
  · obtain ⟨s₂, g₂, g₁, made, filling⟩ := outcome
    have other := h.other_root made.unused.2
    have built := unseen_filling (h.created made) filling other
    dsimp only
    apply wp_ite
    · intro _
      have live : (spaceLayout K.pdptHh).Live g₁ (.user image.cr3) :=
        (filling.live _).mpr ((made.live _).mpr (.inr rfl))
      have destroy := vmmDestroyUserAddressSpace_spec built.vm live
      refine wp_seq (wp_mono destroy (fun _ _ post => post) (fun _ _ _ => trivial)) ?_
      rintro _ s' ⟨g', gone⟩ -
      exact ⟨g', built.destroyed gone other⟩
    · intro _
      refine wp_seq (wp_true _) fun _ _ _ => ?_
      refine wp_seq (wp_true _) fun _ _ _ => ?_
      refine wp_seq (wp_true _) fun _ _ _ => ?_
      exact nofun

end Steps

/-! ## A call that fails -/

section Call

variable {K : KernelTables} {st₀ st : ExecState φ} {g₀ : SpaceGhost} {ops : Fs.FileOps φ}

theorem wp_onMemory {α : Type} (m : MmM α) (post : α → ExecState φ → Prop) (st : ExecState φ) :
    wp (onMemory m) post (fun _ _ => True) st ↔
      wp m (fun a s => post a { st with mm := s }) (fun _ _ => True) st.mm := by
  unfold wp onMemory
  cases m st.mm <;> rfl

theorem wp_onFiles {α : Type} (m : Fs.VfsM φ α) (post : α → ExecState φ → Prop)
    (st : ExecState φ) :
    wp (onFiles m) post (fun _ _ => True) st ↔
      wp m (fun a v => post a { st with vfs := v }) (fun _ _ => True) st.vfs := by
  unfold wp onFiles
  cases m st.vfs <;> rfl

/-- The call has changed nothing of its task so far, and the memory is consistent. -/
def Working (K : KernelTables) (g₀ : SpaceGhost) (st₀ st : ExecState φ) : Prop :=
  st.task = st₀.task ∧ st.frame = st₀.frame ∧ ∃ g, Unseen K st₀.mm g₀ st.mm g

/-- The same when only giving back is left. -/
def Undone (K : KernelTables) (g₀ : SpaceGhost) (st₀ st : ExecState φ) : Prop :=
  st.task = st₀.task ∧ st.frame = st₀.frame ∧ Hidden K st₀.mm g₀ st.mm

theorem Working.undone (h : Working K g₀ st₀ st) : Undone K g₀ st₀ st :=
  let ⟨task, frame, _, unseen⟩ := h
  ⟨task, frame, unseen.hidden⟩

theorem Undone.kfree (h : Undone K g₀ st₀ st) {block : HeapBlock} (fine : block.Fine) :
    wp (onMemory (kfreePages block)) (fun _ st' => Undone K g₀ st₀ st') (fun _ _ => True) st := by
  rw [wp_onMemory]
  refine wp_imp (kfreePages_hidden h.2.2 fine) ?_
  intro _ s' after
  exact ⟨h.1, h.2.1, after⟩

theorem Working.kmalloc (h : Working K g₀ st₀ st) (next : HeapOrWindow st.mm.kheapNext)
    (free : Bool) (size : Word) :
    wp (onMemory (kmallocPages free size)) (fun result st' => Working K g₀ st₀ st' ∧
      st'.vfs = st.vfs ∧ ∀ block, result = some block → block.Fine ∧
        HeapOrWindow st'.mm.kheapNext) (fun _ _ => True) st := by
  obtain ⟨task, frame, g, unseen⟩ := h
  rw [wp_onMemory]
  refine wp_imp (kmallocPages_unseen unseen next free size) ?_
  rintro result s' ⟨after, placed⟩
  exact ⟨⟨task, frame, after⟩, rfl, placed⟩

theorem readAll_working (h : Working K g₀ st₀ st) (next : HeapOrWindow st.mm.kheapNext)
    (free : Bool) (path : CString) :
    wp (readAll ops free path) (fun result st' => match result with
      | none => Undone K g₀ st₀ st'
      | some (bytes, block) => Working K g₀ st₀ st' ∧ block.Fine ∧ ∃ n v,
          Fs.vfsLookup path st.vfs = .ok (some n) v ∧
          ops.read (v.file n) (ops.size (v.file n)) 0 = .ok bytes) (fun _ _ => True) st := by
  unfold readAll
  rw [wp_bind, wp_onFiles]
  cases lookup : Fs.vfsLookup path st.vfs with
  | error e v =>
    rw [wp, lookup]
    trivial
  | ok result v =>
    rw [wp_run lookup]
    have now : Working K g₀ st₀ { st with vfs := v } := h
    cases result with
    | none => exact now.undone
    | some n =>
      dsimp only
      rw [wp_bind, wp_get]
      dsimp only
      apply wp_ite
      · intro _
        exact now.undone
      intro _
      refine wp_seq (now.kmalloc next free _) ?_
      rintro (_ | block) st₁ ⟨after, files, placed⟩
      · exact after.undone
      have fine := (placed block rfl).1
      dsimp only
      cases read : ops.read (v.file n) (ops.size (v.file n)) 0 with
      | error e => trivial
      | ok bytes =>
        apply wp_ite
        · intro _
          refine wp_seq (after.undone.kfree fine) ?_
          intro _ st₂ freed
          exact freed
        · intro _
          exact ⟨after, fine, n, v, rfl, read⟩

theorem taskReplace_working (h : Working K g₀ st₀ st) (name : CString) {image : List Byte}
    (stack : List Byte) (rsp : Word)
    (high : ∀ ph ∈ loads (phdrs image), 2 ^ 30 ≤ ph.pVaddr.toNat) :
    wp (taskReplaceUserElf name image stack rsp) (fun result st' => result = none →
      Undone K g₀ st₀ st') (fun _ _ => True) st := by
  obtain ⟨task, frame, g, unseen⟩ := id h
  unfold taskReplaceUserElf
  rw [wp_bind, wp_get]
  dsimp only
  apply wp_ite
  · intro _ _
    exact h.undone
  intro _
  rw [wp_bind, wp_onMemory]
  refine wp_imp (replaceUserElf_unseen unseen st.task.memory stack rsp high) ?_
  rintro (_ | memory) s' after
  · rintro -
    obtain ⟨g', kept⟩ := after rfl
    exact ⟨task, frame, kept.hidden⟩
  · exact nofun

theorem execveLoaded_working (h : Working K g₀ st₀ st) (next : HeapOrWindow st.mm.kheapNext)
    (free : Bool) (path : CString) (argv envp : Word)
    (high : ∀ n v bytes, Fs.vfsLookup path st.vfs = .ok (some n) v →
      ops.read (v.file n) (ops.size (v.file n)) 0 = .ok bytes →
      ∀ ph ∈ loads (phdrs bytes), 2 ^ 30 ≤ ph.pVaddr.toNat) :
    wp (execveLoaded ops free path argv envp) (fun result st' => ∀ e, result = .error e →
      Undone K g₀ st₀ st') (fun _ _ => True) st := by
  have stays : ∀ e : Errno, wp (pure (.error e) : ExecM φ (Except Errno (Word × Word)))
      (fun result st' => ∀ e, result = .error e → Undone K g₀ st₀ st') (fun _ _ => True) st :=
    fun _ _ _ => h.undone
  unfold execveLoaded
  rw [wp_bind, wp_get]
  dsimp only
  split
  · exact stays _
  split
  · exact stays _
  split
  · exact stays _
  refine wp_seq (readAll_working h next free path) ?_
  rintro (_ | ⟨image, block⟩) st₁ outcome
  · exact fun _ _ => outcome
  obtain ⟨working, fine, n, v, lookup, read⟩ := outcome
  refine wp_seq (taskReplace_working working _ _ _ (high n v image lookup read)) ?_
  rintro (_ | started) st₂ outcome
  · refine wp_seq ((outcome rfl).kfree fine) ?_
    intro _ st₃ freed _ _
    exact freed
  · refine wp_seq (wp_true _) fun _ _ _ => ?_
    exact nofun

/-- A call that fails leaves its task alone, whichever step it is that fails. -/
theorem sysExecve_undone (ops : Fs.FileOps φ) {roots : List Nat}
    (sys : System K roots st.mm g₀) (root : st.mm.cr3 ∈ roots) (free : Bool)
    (userPath argv envp : Word)
    (high : ∀ image, namedFile ops st userPath = some image →
      ∀ ph ∈ loads (phdrs image), 2 ^ 30 ≤ ph.pVaddr.toNat) :
    wp (sysExecve ops free userPath argv envp) (fun result st' => ∀ e, result = .error e →
      Undone K g₀ st st') (fun _ _ => True) st := by
  have start : Working K g₀ st st := ⟨rfl, rfl, g₀, sys.unseen root⟩
  unfold sysExecve
  rw [wp_bind, wp_get]
  apply wp_ite
  · intro _ _ _
    exact start.undone
  intro _
  cases copied : copyUserString st.mm.mem st.mm.cr3 userPath Fs.vfsMaxPath with
  | error e => exact fun _ _ => start.undone
  | ok raw =>
    dsimp only
    cases resolved : Fs.resolvePath (cstr st.task.fs.cwd) raw with
    | none => exact fun _ _ => start.undone
    | some path =>
      have file : ∀ n v bytes, Fs.vfsLookup path st.vfs = .ok (some n) v →
          ops.read (v.file n) (ops.size (v.file n)) 0 = .ok bytes →
          namedFile ops st userPath = some bytes := by
        intro n v bytes lookup read
        simp only [namedFile, copied, resolved, lookup, read]
        rfl
      refine wp_seq (start.kmalloc (.inl sys.heap) free execArgsSize) ?_
      rintro (_ | args) st₁ ⟨working, files, placed⟩
      · exact fun _ _ => working.undone
      obtain ⟨fine, next⟩ := placed args rfl
      refine wp_seq (execveLoaded_working working next free path argv envp ?_) ?_
      · intro n v bytes lookup read
        rw [files] at lookup
        exact high bytes (file n v bytes lookup read)
      rintro (e | ⟨entry, rsp⟩) st₂ outcome
      · refine wp_seq ((outcome e rfl).kfree fine) ?_
        intro _ st₃ freed _ _
        exact freed
      · refine wp_seq (wp_true _) fun _ _ _ => ?_
        exact nofun

end Call

/-- **A failed `execve` is invisible to the caller.** For any path and vectors in user memory
and any file with segments at or above 1 GiB: if the call returns an error, the task has its
address space, break, next mapping, name, working directory and descriptors, the frame of the
call its instruction and stack pointers, and every user address leads where it led, with the
same flags and the same byte. -/
theorem failed_execve_invisible {K : KernelTables} {roots : List Nat} {ops : Fs.FileOps φ}
    {st st' : ExecState φ} {free : Bool} {userPath argv envp : Word} {e : Errno}
    (sound : Sound K roots st.task.memory.cr3 st.mm) (root : st.task.memory.cr3 ∈ roots)
    (high : ∀ image, namedFile ops st userPath = some image →
      ∀ ph ∈ loads (phdrs image), 2 ^ 30 ≤ ph.pVaddr.toNat)
    (failed : sysExecve ops free userPath argv envp st = .ok (.error e) st') :
    st'.task = st.task ∧ st'.frame = st.frame ∧ st'.mm.cr3 = st.mm.cr3 ∧
    ∀ v, v < userSpaceTop →
      userTranslation st'.mm.mem st.task.memory.cr3 v =
        userTranslation st.mm.mem st.task.memory.cr3 v ∧
      userLoad st'.mm.mem st.task.memory.cr3 v = userLoad st.mm.mem st.task.memory.cr3 v := by
  obtain ⟨loaded, g, sys⟩ := sound
  rw [← loaded] at root
  have spec := sysExecve_undone ops sys root free userPath argv envp high
  obtain ⟨task, frame, hidden⟩ := (wp_run failed _ _).mp spec e rfl
  refine ⟨task, frame, ?_, ?_⟩
  · obtain ⟨q, g', unseen⟩ := hidden
    exact unseen.cr3
  · intro v below
    rw [← loaded]
    exact hidden.view (sys.unseen root) below

/-! ## A path that names no file -/

/-- The small task with the path `/x` on its stack. -/
def pathTask : SysState := afterCall (.copyOut 0x400FF100#64 [0x2F#8, 0x78#8, 0#8]) smallTask

def pathCaller : ExecState Fs.TmpfsData where
  mm := pathTask.mm
  vfs := Fs.vfsEmpty Fs.tmpfsFileOps
  task :=
    { memory := pathTask.tasks.headD ⟨0, 0#64, 0#64, 0#64⟩
      userMode := true
      userEntry := 0x40200000#64
      userStackTop := userStackTop
      name := List.replicate 32 0#8
      fs := ⟨[0x2F#8, 0#8], fun _ => ⟨0, 0, false⟩⟩ }
  frame := ⟨0x40200010#64, 0x40100000#64⟩

theorem pathTask_ready : Ready smallTables pathTask.tasks pathTask.mm := by
  have live : smallTask.mm.cr3 ∈ smallTask.roots := by decide +kernel
  have written : SysStep smallTables smallTask
      (.copyOut 0x400FF100#64 [0x2F#8, 0x78#8, 0#8]) pathTask :=
    .of_some live (by decide +kernel)
  have clear : KeepsClear smallTask (.copyOut 0x400FF100#64 [0x2F#8, 0x78#8, 0#8]) := trivial
  exact Booted.ready smallMachine_booted (by decide) (smallTask_run.snoc ⟨clear, written⟩)

/-- The file `/x` does not exist: the call fails after its buffer has been allocated. -/
theorem failed_execve_invisible_missing :
    ∃ st', sysExecve Fs.tmpfsFileOps false 0x400FF100#64 0#64 0#64 pathCaller =
        .ok (.error .enoent) st' ∧
      st'.task = pathCaller.task ∧
      userLoad st'.mm.mem pathCaller.task.memory.cr3 0x400FF100#64 = some 0x2F#8 := by
  have value : resultValue (sysExecve Fs.tmpfsFileOps false 0x400FF100#64 0#64 0#64 pathCaller) =
      some (.error .enoent) := by decide +kernel
  have nothing : namedFile Fs.tmpfsFileOps pathCaller 0x400FF100#64 = none := by decide +kernel
  have before : userLoad pathCaller.mm.mem pathCaller.task.memory.cr3 0x400FF100#64 =
      some 0x2F#8 := by decide +kernel
  have loaded : pathTask.mm.cr3 = pathCaller.task.memory.cr3 := by decide +kernel
  have listed : pathCaller.task.memory.cr3 ∈ pathTask.tasks.map (·.cr3) := by decide +kernel
  have memory : pathCaller.mm = pathTask.mm := by rw [pathCaller]
  obtain ⟨roots, sound, same, _⟩ := pathTask_ready
  rw [loaded, ← memory] at sound
  have unseen := failed_execve_invisible sound ((same _).mpr listed)
    (fun image found => by rw [nothing] at found; cases found) (result_eq value)
  exact ⟨_, result_eq value, unseen.1, (unseen.2.2.2 _ (by decide)).2.trans before⟩

end LithiumKernel.Syscall
