import LithiumKernel.Mm.Heap
import LithiumKernel.Proc.Elf

/-!
# Kernel mappings under the system calls

The machine the system calls drive: the memory, and the user tasks whose address spaces
exist. A call works on the task whose root is loaded. `kmalloc` and `kfree` inside a call
are steps of their own before or after it, a task that exits is reaped by a later step, and
scheduling is a switch of the root. Calls that change no mapping are not steps.

The first 2 MiB of the identity window are mapped by a page table that all address spaces
share, and `vmm_map_page` refuses only 2 MiB pages. `ClearStep` excludes the calls that map
there, and the heap allocations that pass the end of the address space.
-/
namespace LithiumKernel.Syscall

open LithiumKernel.Lib LithiumKernel.Mm LithiumKernel.Proc

inductive SysOp where
  | spawn (file : List Byte)
  | mmap (addr len prot flags : Word) (fd : Int)
  | munmap (addr len : Word)
  | brk (requested : Word)
  | fork
  | execve (file stack : List Byte) (rsp : Word)
  | reap (root : Nat)
  | switch (root : Nat)
  | fault (addr err : Word)
  | store (addr : Word) (b : Byte)
  | copyOut (addr : Word) (bytes : List Byte)
  | slabPage
  | largeAlloc (size : Word)
  | largeFree (virt : Word) (pages : Nat)

structure SysState where
  mm : MemState
  tasks : List UserTask

def SysState.roots (st : SysState) : List Nat := st.tasks.map (·.cr3)

/-- A call of the loaded task; `call` returns what takes the task's place. -/
def onCurrent (tasks : List UserTask) (call : UserTask → MmM (List UserTask)) :
    MmM (List UserTask) := do
  let cr3 := (← get).cr3
  match tasks.find? (·.cr3 = cr3) with
  | none => pure tasks
  | some task =>
    let after ← call task
    pure (after ++ tasks.filter (·.cr3 ≠ task.cr3))

def sysExec (tasks : List UserTask) : SysOp → MmM (List UserTask)
  | .spawn file => do
    match ← createUserElf file with
    | none => pure tasks
    | some task => pure (task :: tasks)
  | .mmap addr len prot flags fd => onCurrent tasks fun task => do
    let (task', _) ← sysMmap task addr len prot flags fd
    pure [task']
  | .munmap addr len => onCurrent tasks fun task => do
    let _ ← sysMunmap task addr len
    pure [task]
  | .brk requested => onCurrent tasks fun task => do
    let (task', _) ← sysBrk task requested
    pure [task']
  | .fork => onCurrent tasks fun task => do
    match ← vmmCloneUserAddressSpace task.cr3 with
    | none => pure [task]
    | some dst => pure [{ task with cr3 := dst }, task]
  | .execve file stack rsp => onCurrent tasks fun task => do
    match ← replaceUserElf task file stack rsp with
    | none => pure [task]
    | some task' => pure [task']
  | .reap root => do
    vmmDestroyUserAddressSpace root
    pure (tasks.filter (·.cr3 ≠ root))
  | .switch root => do
    vmmSwitch root
    pure tasks
  | .fault addr err => do
    let _ ← vmmHandlePageFault addr err
    pure tasks
  | .store addr b => do
    let _ ← userStore addr b
    pure tasks
  | .copyOut addr bytes => do
    let _ ← copyToUser addr bytes
    pure tasks
  | .slabPage => do
    let _ ← slabAllocPage
    pure tasks
  | .largeAlloc size => do
    let _ ← kmallocLarge size
    pure tasks
  | .largeFree virt pages => do
    kfreeLarge virt pages
    pure tasks

/-- What the rest of the kernel promises: only the space of a task that is not loaded is
destroyed, only live roots and the kernel's are loaded, user memory is written on behalf of
a loaded task, and `kfree` gets a block of the heap. -/
def SysAllowed (K : KernelTables) (st : SysState) : SysOp → Prop
  | .reap root => root ∈ st.roots ∧ root ≠ st.mm.cr3
  | .switch root => root = K.pml4 ∨ root ∈ st.roots
  | .store addr _ => st.mm.cr3 ∈ st.roots ∧ addr < userSpaceTop
  | .copyOut _ _ => st.mm.cr3 ∈ st.roots
  | .largeFree virt pages =>
      heapBase ≤ virt ∧ virt.toNat % 4096 = 0 ∧ virt.toNat + pages * 4096 ≤ 2 ^ 64
  | _ => True

structure SysStep (K : KernelTables) (st : SysState) (op : SysOp) (st' : SysState) : Prop where
  allowed : SysAllowed K st op
  ran : sysExec st.tasks op st.mm = .ok st'.tasks st'.mm

/-- No page is mapped in the first 2 MiB: not by a hint of `mmap`, not by a program file
and not by a heap that has used up its addresses. -/
def KeepsClear (st : SysState) : SysOp → Prop
  | .spawn file => SegmentsHigh file
  | .execve file _ _ => SegmentsHigh file
  | .mmap addr _ _ _ _ => HintOk addr
  | .slabPage => st.mm.kheapNext.toNat + 4096 < 2 ^ 64
  | .largeAlloc size => st.mm.kheapNext.toNat + (largeBytes size).toNat < 2 ^ 64
  | _ => True

def ClearStep (K : KernelTables) (st : SysState) (op : SysOp) (st' : SysState) : Prop :=
  KeepsClear st op ∧ SysStep K st op st'

/-! ## The invariant -/

/-- The memory is sound for exactly the spaces of the tasks, whose limits are good. -/
def Ready (K : KernelTables) (tasks : List UserTask) (s : MemState) : Prop :=
  ∃ roots, Sound K roots s.cr3 s ∧ (∀ r, r ∈ roots ↔ r ∈ tasks.map (·.cr3)) ∧ ∀ t ∈ tasks, t.Ok

variable {K : KernelTables} {s : MemState} {tasks : List UserTask}

/-- What a call of `task` has to leave so that the system is ready again. -/
def Replaces (K : KernelTables) (roots : List Nat) (task : UserTask) (after : List UserTask)
    (s : MemState) : Prop :=
  ∃ roots', Sound K roots' s.cr3 s ∧
    (∀ r, r ∈ roots' ↔ r ∈ after.map (·.cr3) ∨ r ∈ roots ∧ r ≠ task.cr3) ∧ ∀ t ∈ after, t.Ok

theorem onCurrent_ready {call : UserTask → MmM (List UserTask)} (h : Ready K tasks s)
    (spec : ∀ task roots, task.Ok → task.cr3 = s.cr3 → task.cr3 ∈ roots →
      Sound K roots s.cr3 s →
      wp (call task) (fun after s' => Replaces K roots task after s') Saturated s) :
    wp (onCurrent tasks call) (fun tasks' s' => Ready K tasks' s') Saturated s := by
  obtain ⟨roots, sound, exact_, ok⟩ := h
  unfold onCurrent
  rw [wp_bind, wp_get]
  dsimp only
  cases found : tasks.find? (·.cr3 = s.cr3) with
  | none => exact ⟨roots, sound, exact_, ok⟩
  | some task =>
    have member := List.mem_of_find?_eq_some found
    have loaded : task.cr3 = s.cr3 := by simpa using List.find?_some found
    have root : task.cr3 ∈ roots := (exact_ _).mpr (List.mem_map_of_mem member)
    refine wp_seq (spec task roots (ok task member) loaded root sound) ?_
    rintro after s' ⟨roots', sound', exact', ok'⟩
    refine ⟨roots', sound', ?_, ?_⟩
    · intro r
      rw [exact', List.map_append, List.mem_append, exact_]
      refine or_congr_right ?_
      simp only [List.mem_map, List.mem_filter, decide_eq_true_iff]
      constructor
      · rintro ⟨⟨t, here, rfl⟩, other⟩
        exact ⟨t, ⟨here, other⟩, rfl⟩
      · rintro ⟨t, ⟨here, other⟩, rfl⟩
        exact ⟨⟨t, here, rfl⟩, other⟩
    · intro t here
      rcases List.mem_append.mp here with new | old
      · exact ok' t new
      · exact ok t (List.mem_of_mem_filter old)

/-- A call that keeps the roots and puts one task in the place of the caller. -/
theorem Returned.replaces {roots : List Nat} {c : Nat} {task task' : UserTask} {s' : MemState}
    (root : task.cr3 ∈ roots) (returned : Returned K roots c task task' s') :
    Replaces K roots task [task'] s' := by
  obtain ⟨⟨rfl, sound⟩, ok, same⟩ := returned
  refine ⟨roots, ⟨rfl, sound⟩, ?_, by simpa using ok⟩
  intro r
  simp only [List.map_cons, List.map_nil, List.mem_singleton, same]
  by_cases here : r = task.cr3
  · simp [here, root]
  · simp [here]

theorem SysAllowed.ready {st : SysState} {op : SysOp} (h : Ready K st.tasks st.mm)
    (allowed : SysAllowed K st op) (clear : KeepsClear st op) :
    wp (sysExec st.tasks op) (fun tasks' s' => Ready K tasks' s') Saturated st.mm := by
  obtain ⟨roots, sound, same, ok⟩ := id h
  obtain ⟨-, g, sys⟩ := id sound
  -- a step that keeps the tasks and their spaces
  have stays : ∀ {α} {m : MmM α}, wp m (fun _ s' => ∃ g', System K roots s' g') Saturated st.mm →
      wp (m >>= fun _ => pure st.tasks) (fun tasks' s' => Ready K tasks' s') Saturated st.mm := by
    intro α m spec
    refine wp_seq spec ?_
    rintro _ s' ⟨g', after⟩
    exact ⟨roots, ⟨rfl, g', after⟩, same, ok⟩
  cases op with
  | spawn file =>
    refine wp_seq (createUserElf_sound clear sound) ?_
    rintro (_ | task) s' made
    · exact ⟨roots, ⟨rfl, made.2⟩, same, ok⟩
    · obtain ⟨⟨_, after⟩, good⟩ := made
      refine ⟨task.cr3 :: roots, ⟨rfl, after⟩, fun r => ?_, ?_⟩
      · rw [List.map_cons, List.mem_cons, List.mem_cons, same]
      · intro t member
        rcases List.mem_cons.mp member with rfl | old
        · exact good
        · exact ok t old
  | mmap addr len prot flags fd =>
    refine onCurrent_ready h ?_
    intro task roots' good _ root here
    refine wp_seq (sysMmap_sound len prot flags fd clear good root here) ?_
    rintro ⟨task', _⟩ s' returned
    exact returned.replaces root
  | munmap addr len =>
    refine onCurrent_ready h ?_
    intro task roots' good _ root here
    refine wp_seq (sysMunmap_sound addr len root here) ?_
    intro _ s' after
    exact Returned.replaces root ⟨after, good, rfl⟩
  | brk requested =>
    refine onCurrent_ready h ?_
    intro task roots' good _ root here
    refine wp_seq (sysBrk_sound requested good root here) ?_
    rintro ⟨task', _⟩ s' returned
    exact returned.replaces root
  | fork =>
    refine onCurrent_ready h ?_
    rintro task roots' good _ root ⟨_, g', sys'⟩
    refine wp_seq (sys'.clone root) ?_
    rintro (_ | dst) s' ⟨g₂, after⟩
    · exact Returned.replaces root ⟨⟨rfl, g₂, after⟩, good, rfl⟩
    · refine ⟨dst :: roots', ⟨rfl, g₂, after⟩, ?_, ?_⟩
      · intro r
        simp only [List.mem_cons, List.map_cons, List.map_nil, List.not_mem_nil, or_false]
        by_cases here : r = task.cr3
        · simp [here, root]
        · simp [here]
      · intro t member
        simp only [List.mem_cons, List.not_mem_nil, or_false] at member
        rcases member with rfl | rfl
        · exact ⟨good.brkLow, good.brkMove, good.brkTop, good.mmapLow, good.mmapTop⟩
        · exact good
  | execve file stack rsp =>
    refine onCurrent_ready h ?_
    intro task roots' good loaded root here
    rw [← loaded] at here
    refine wp_seq (replaceUserElf_sound stack rsp clear root here) ?_
    rintro (_ | task') s' after
    · exact Returned.replaces root ⟨after, good, rfl⟩
    · obtain ⟨⟨_, g', sys'⟩, good'⟩ := after
      obtain ⟨_, _, before⟩ := here
      refine ⟨_, ⟨rfl, g', sys'⟩, ?_, by simpa using good'⟩
      intro r
      rw [List.mem_cons, before.nodup.mem_erase_iff, and_comm (a := r ≠ task.cr3)]
      simp
  | reap root =>
    obtain ⟨member, idle⟩ := allowed
    refine wp_seq (vmmDestroyUserAddressSpace_sound ((same root).mpr member) idle sound) ?_
    rintro _ s' ⟨_, after⟩
    refine ⟨_, ⟨rfl, after⟩, ?_, fun t here => ok t (List.mem_of_mem_filter here)⟩
    intro r
    rw [sys.nodup.mem_erase_iff, same]
    simp only [List.mem_map, List.mem_filter, decide_eq_true_iff]
    constructor
    · rintro ⟨other, t, here, rfl⟩
      exact ⟨t, ⟨here, other⟩, rfl⟩
    · rintro ⟨t, ⟨here, other⟩, rfl⟩
      exact ⟨other, t, here, rfl⟩
  | switch root =>
    exact stays ⟨g, sys.effect (.switched (allowed.imp_right (same root).mpr))⟩
  | fault addr err => exact stays (sys.fault addr err)
  | store addr b => exact stays (sys.store b ((same _).mpr allowed.1) allowed.2)
  | copyOut addr bytes => exact stays (sys.copyOut addr bytes ((same _).mpr allowed))
  | slabPage => exact stays (wp_imp (slabAllocPage_sound clear sound) fun _ _ after => after.2)
  | largeAlloc size => exact stays (wp_imp (kmallocLarge_sound clear sound) fun _ _ after => after.2)
  | largeFree virt pages =>
    obtain ⟨above, aligned, room⟩ := allowed
    exact stays (wp_imp (kfreeLarge_sound above aligned room sound) fun _ _ after => after.2)

theorem Booted.ready {kernelEnd : Word} {ops : List SysOp} {st : SysState}
    (boot : Booted K kernelEnd s) (image : 0 < kernelEnd.toNat ∧ kernelEnd.toNat ≤ 2 ^ 30)
    (run : Run (ClearStep K) ⟨s, []⟩ ops st) : Ready K st.tasks st.mm := by
  refine run.invariant (fun st => Ready K st.tasks st.mm) ?_ ?_
  · exact ⟨[], ⟨rfl, _, boot.system (boot.heapBase_le image)⟩, by simp, by simp⟩
  · rintro st₁ op st₂ h ⟨clear, allowed, ran⟩
    exact wp_ok (allowed.ready h clear) ran

/-- **Kernel mapping integrity.** From the state `vmm_init` leaves, over any run of system
calls of any tasks that map nothing in the first 2 MiB, every root translates the identity
window and the higher-half alias as `vmm_init` set them up, and no page of the window is a
user page. -/
theorem kernel_mapping_integrity {kernelEnd : Word} {ops : List SysOp} {st : SysState}
    (boot : Booted K kernelEnd s) (image : 0 < kernelEnd.toNat ∧ kernelEnd.toNat ≤ 2 ^ 30)
    (run : Run (ClearStep K) ⟨s, []⟩ ops st) {r : Nat} {v : Word}
    (live : r = K.pml4 ∨ r ∈ st.roots) (kernel : KernelAddress v) :
    vmmGetPhysical st.mm.mem r v = vmmGetPhysical s.mem K.pml4 v ∧
      vmmGetFlags st.mm.mem r v = vmmGetFlags s.mem K.pml4 v ∧
      (v.toNat < 2 ^ 30 → vmmGetFlags st.mm.mem r v &&& vmmUser = 0#64) := by
  have start := boot.system (boot.heapBase_le image)
  obtain ⟨roots, ⟨_, g, sys⟩, same, _⟩ := Booted.ready boot image run
  have now := sys.kernelAddress_reads (live.imp_right (same r).mpr) kernel
  have before := start.kernelAddress_reads (.inl rfl) kernel
  refine ⟨now.1.trans before.1.symm, now.2.trans before.2.symm, ?_⟩
  intro low
  rw [now.2, KernelTables.kernelFlags, if_pos low, and_user, and_not_physMask_low _ (by decide)]
  exact K.windowEntry_low v (by decide) (by decide)

/-! ## Two runs of the small machine -/

def littleEndian (n value : Nat) : List Byte :=
  (List.range n).map fun i => BitVec.ofNat 8 (value / 256 ^ i)

/-- A program with one empty page at 0x40200000. -/
def smallProgram : List Byte :=
  [0x7F#8, 0x45#8, 0x4C#8, 0x46#8, 2#8, 1#8] ++ littleEndian 10 0 ++ littleEndian 2 2 ++
    littleEndian 2 62 ++ littleEndian 4 1 ++ littleEndian 8 0x40200000 ++ littleEndian 8 64 ++
    littleEndian 12 0 ++ littleEndian 2 64 ++ littleEndian 2 56 ++ littleEndian 2 1 ++
    littleEndian 6 0 ++
  (littleEndian 4 1 ++ littleEndian 4 5 ++ littleEndian 8 0 ++ littleEndian 8 0x40200000 ++
    littleEndian 8 0 ++ littleEndian 8 0 ++ littleEndian 8 4096 ++ littleEndian 8 4096)

def afterCall (op : SysOp) (st : SysState) : SysState :=
  ⟨resultState (sysExec st.tasks op st.mm),
    (resultValue (sysExec st.tasks op st.mm)).getD st.tasks⟩

theorem SysStep.of_some {st : SysState} {op : SysOp} (allowed : SysAllowed K st op)
    (some_ : (resultValue (sysExec st.tasks op st.mm)).isSome = true) :
    SysStep K st op (afterCall op st) := by
  obtain ⟨tasks, value⟩ := Option.isSome_iff_exists.mp some_
  refine ⟨allowed, ?_⟩
  rw [result_eq value, afterCall, value]
  rfl

/-- The small machine with one task, whose root is loaded. -/
def smallTask : SysState :=
  afterCall (.switch 8) (afterCall (.spawn smallProgram) ⟨smallMachine, []⟩)

theorem smallTask_run :
    Run (ClearStep smallTables) ⟨smallMachine, []⟩ [.spawn smallProgram, .switch 8] smallTask := by
  have spawned : SysStep smallTables ⟨smallMachine, []⟩ (.spawn smallProgram) _ :=
    .of_some trivial (by decide +kernel)
  have loaded : SysStep smallTables (afterCall (.spawn smallProgram) ⟨smallMachine, []⟩)
      (.switch 8) _ := .of_some (.inr (by decide +kernel)) (by decide +kernel)
  have high : SegmentsHigh smallProgram := by decide +kernel
  exact (Run.nil.snoc ⟨high, spawned⟩).snoc ⟨trivial, loaded⟩

/-- A program is loaded and the window stays as it was. -/
theorem kernel_mapping_integrity_program :
    Run (ClearStep smallTables) ⟨smallMachine, []⟩ [.spawn smallProgram, .switch 8] smallTask ∧
      8 ∈ smallTask.roots ∧
      vmmGetPhysical smallTask.mm.mem 8 0x1000#64 = vmmGetPhysical smallMachine.mem 1 0x1000#64 :=
  have live : 8 ∈ smallTask.roots := by decide +kernel
  ⟨smallTask_run, live, (kernel_mapping_integrity smallMachine_booted (by decide) smallTask_run
    (.inr live) (.inl (by decide))).1⟩

/-- A page that `mmap` puts at 0x1000 takes the place of the kernel's own page there, in
every address space, and is open to user programs. -/
theorem kernel_mapping_integrity_low_hint :
    Booted smallTables 0x180000#64 smallMachine ∧
    ∃ st, Run (SysStep smallTables) ⟨smallMachine, []⟩ [.spawn smallProgram, .switch 8,
        .mmap 0x1000#64 0x1000#64 3#64 0x22#64 (-1)] st ∧
      8 ∈ st.roots ∧ KernelAddress 0x1000#64 ∧
      vmmGetPhysical st.mm.mem 8 0x1000#64 ≠ vmmGetPhysical smallMachine.mem 1 0x1000#64 ∧
      vmmGetFlags st.mm.mem 8 0x1000#64 &&& vmmUser ≠ 0#64 ∧
      vmmGetFlags st.mm.mem smallTables.pml4 0x1000#64 &&& vmmUser ≠ 0#64 := by
  have mapped : SysStep smallTables smallTask (.mmap 0x1000#64 0x1000#64 3#64 0x22#64 (-1)) _ :=
    .of_some trivial (by decide +kernel)
  refine ⟨smallMachine_booted, _, (smallTask_run.mono (fun _ _ _ step => step.2)).snoc mapped, ?_⟩
  decide +kernel

end LithiumKernel.Syscall
