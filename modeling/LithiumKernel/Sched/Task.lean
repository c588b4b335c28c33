import LithiumKernel.Lib.Wp
import LithiumKernel.Mm.Pmm

/-!
# Tasks and the scheduler (kernel/sched/task.c, kernel/sched/sched.c)

A `task_t *` is the number of its allocation and `none` is `NULL`. A `task_t` is larger than
the largest slab object, so `kfree` unmaps it, and `vmm_alloc_kernel` never hands out an
address twice: a pointer is never reused, and touching a task that was freed is a page
fault, as is touching `NULL`. A fault in the kernel stops the machine.

The linkage fields `next`, `all_next` and `zombie_next` are three maps from tasks to tasks,
the other fields one map to records. Left out are the saved stack pointer, the name, the
user memory limits, the files and the ticks. What a sleeping task goes on with, which the
source keeps on its kernel stack, is the field `resume`.

A loop over a list carries fuel, one unit for each allocation there ever was; running out of
it stands for a loop that does not end.
-/
namespace LithiumKernel.Sched

open LithiumKernel.Lib LithiumKernel.Mm

abbrev Ptr := Nat

/-- C's `int` and `uint32_t`. -/
abbrev Word32 := BitVec 32

inductive TaskState where
  | ready
  | running
  | blocked
  | dead
  deriving DecidableEq

/-- Back to user mode, or on with the loop of `task_waitpid`. -/
inductive Resume where
  | user
  | waiting (pid options : Word32)

structure Task where
  pid : Word32
  state : TaskState
  cr3 : Nat
  stackBase : Word
  userMode : Bool
  parent : Option Ptr
  exitCode : Word32
  resume : Resume

/-- The intrusive lists: the run queue, all tasks and the zombies. -/
inductive Queue where
  | run
  | all
  | zombie
  deriving DecidableEq

/-- The globals of the scheduler, the records of the tasks and their linkage fields; the heads of the
lists are `run_queue_head`, `all_tasks` and `zombie_tasks`. -/
structure Kernel where
  task : Ptr → Task
  fresh : Ptr
  live : Ptr → Bool
  currentTask : Option Ptr
  idleTask : Option Ptr
  initTask : Option Ptr
  nextPid : Word32
  cr3 : Nat
  rsp0 : Word
  syscallKernelStackTop : Word
  /-- The roots of the address spaces that exist, the kernel's own included. -/
  spaces : List Nat
  next : Queue → Ptr → Option Ptr
  head : Queue → Option Ptr
  taskCount : Word32

inductive Fault where
  | page
  | spin

abbrev SchedM := EStateM Fault Kernel

def taskStackSize : Word := 8192#64

def wnohang : Word32 := 1#32
def einval : Int := 22
def enomem : Int := 12

/-- `TASK_READY` or `TASK_RUNNING`. -/
def TaskState.runnable (s : TaskState) : Bool := s = .ready ∨ s = .running

/-! ## Memory of tasks -/

def load (p : Ptr) : SchedM Task := fun k =>
  if k.live p then .ok (k.task p) k else .error .page k

def loadNext (q : Queue) (p : Ptr) : SchedM (Option Ptr) := fun k =>
  if k.live p then .ok (k.next q p) k else .error .page k

def edit (p : Ptr) (f : Task → Task) : SchedM Unit := fun k =>
  if k.live p then .ok () { k with task := Function.update k.task p (f (k.task p)) }
  else .error .page k

def setNext (q : Queue) (p : Ptr) (v : Option Ptr) : SchedM Unit := fun k =>
  if k.live p then
    .ok () { k with next := Function.update k.next q (Function.update (k.next q) p v) }
  else .error .page k

def setHead (q : Queue) (v : Option Ptr) : SchedM Unit :=
  modify fun k => { k with head := Function.update k.head q v }

def setState (p : Ptr) (s : TaskState) : SchedM Unit := edit p fun t => { t with state := s }

/-- `*link`, where a link is the head of a list or the linkage field of a task. -/
def readLink (q : Queue) : Option Ptr → SchedM (Option Ptr)
  | none => fun k => .ok (k.head q) k
  | some p => loadNext q p

def writeLink (q : Queue) : Option Ptr → Option Ptr → SchedM Unit
  | none, v => setHead q v
  | some p, v => setNext q p v

def zeroTask : Task := ⟨0#32, .ready, 0, 0#64, false, none, 0#32, .user⟩

/-- `kzalloc(sizeof(task_t))`. -/
def kzallocTask : SchedM Ptr := fun k =>
  .ok k.fresh { k with
    live := Function.update k.live k.fresh true
    task := Function.update k.task k.fresh zeroTask
    next := fun q => Function.update (k.next q) k.fresh none
    fresh := k.fresh + 1 }

def kfreeTask (p : Ptr) : SchedM Unit :=
  modify fun k => { k with live := Function.update k.live p false }

/-- `vmm_destroy_user_address_space`, as far as the scheduler sees it. -/
def destroySpace (root : Nat) : SchedM Unit :=
  modify fun k => { k with spaces := k.spaces.erase root }

/-! ## The run queue -/

def schedAdd (t : Ptr) : SchedM Unit := do
  let k ← get
  match k.head .run with
  | none => do
    setNext .run t (some t)
    setHead .run (some t)
  | some head => do
    let insertAfter := k.currentTask.getD head
    let n ← loadNext .run insertAfter
    setNext .run t n
    setNext .run insertAfter (some t)
  modify fun k => { k with taskCount := k.taskCount + 1#32 }

/-- `while (prev->next != t && prev->next != run_queue_head) prev = prev->next`. -/
def findPrev (t head : Ptr) : Nat → Ptr → SchedM Ptr
  | 0, _ => throw .spin
  | fuel + 1, prev => do
    let n ← loadNext .run prev
    if n = some t ∨ n = some head then pure prev
    else match n with
      | none => throw .page
      | some p => findPrev t head fuel p

def schedRemove (t : Ptr) : SchedM Unit := do
  let k ← get
  match k.head .run with
  | none => pure ()
  | some head =>
    if k.taskCount = 0#32 then pure ()
    else
      let prev ← findPrev t head k.fresh head
      let n ← loadNext .run prev
      if n = some t then
        let after ← loadNext .run t
        if after = some t then setHead .run none
        else
          setNext .run prev after
          if head = t then setHead .run after
        modify fun k => { k with taskCount := k.taskCount - 1#32 }

/-- The search of `schedule` for the next task that can run. -/
def findRunnable : Nat → Option Ptr → SchedM (Option Ptr)
  | 0, next => pure next
  | n + 1, none => findRunnable n none
  | n + 1, some p => do
    let t ← load p
    if t.state.runnable then pure (some p)
    else findRunnable n (← loadNext .run p)

/-! ## Registration, zombies and reaping -/

def taskRegister (t : Ptr) : SchedM Unit := do
  let k ← get
  edit t fun task => { task with parent := k.currentTask }
  let task ← load t
  if task.pid = 1#32 then modify fun k => { k with initTask := some t }
  setNext .all t (k.head .all)
  setHead .all (some t)

/-- The loop of `reparent_children`. -/
def reparentFrom (parent : Ptr) (newParent : Option Ptr) : Nat → Option Ptr → SchedM Unit
  | _, none => pure ()
  | 0, some _ => throw .spin
  | fuel + 1, some t => do
    let task ← load t
    if task.parent = some parent then edit t fun task => { task with parent := newParent }
    reparentFrom parent newParent fuel (← loadNext .all t)

/-- A task that waits is made ready. -/
def wake : Option Ptr → SchedM Unit
  | none => pure ()
  | some p => do
    let t ← load p
    if t.state = .blocked then setState p .ready

/-- Who adopts the children of `parent`. -/
def newParentOf (parent : Ptr) : SchedM (Option Ptr) := do
  match (← get).initTask with
  | none => pure none
  | some i =>
    if i = parent then pure none
    else
      let t ← load i
      pure (if t.state = .dead then none else some i)

def reparentChildren (parent : Ptr) : SchedM Unit := do
  let newParent ← newParentOf parent
  let k ← get
  reparentFrom parent newParent k.fresh (k.head .all)
  wake newParent

/-- The loop of `task_unregister`. -/
def unregisterFrom (t : Ptr) : Nat → Option Ptr → SchedM Unit
  | 0, _ => throw .spin
  | fuel + 1, link => do
    match ← readLink .all link with
    | none => pure ()
    | some p =>
      if p = t then
        writeLink .all link (← loadNext .all t)
        setNext .all t none
      else unregisterFrom t fuel (some p)

def taskUnregister (t : Ptr) : SchedM Unit := do
  unregisterFrom t ((← get).fresh + 1) none

def taskFree (t : Ptr) : SchedM Unit := do
  let task ← load t
  if task.userMode ∧ task.cr3 ≠ 0 then destroySpace task.cr3
  kfreeTask t

def taskZombify (t : Ptr) : SchedM Unit := do
  match ← loadNext .zombie t with
  | some _ => pure ()
  | none =>
    reparentChildren t
    setNext .zombie t ((← get).head .zombie)
    setHead .zombie (some t)
    wake (← load t).parent

/-- `pid == -1 || (int)t->pid == pid`. -/
def matchesPid (pid : Word32) (task : Task) : Bool := pid = -1#32 ∨ task.pid = pid

/-- The loop of `task_has_child`. -/
def hasChildFrom (parent : Option Ptr) (pid : Word32) : Nat → Option Ptr → SchedM Bool
  | _, none => pure false
  | 0, some _ => throw .spin
  | fuel + 1, some t => do
    let task ← load t
    if task.parent = parent ∧ matchesPid pid task then pure true
    else hasChildFrom parent pid fuel (← loadNext .all t)

def taskHasChild (parent : Option Ptr) (pid : Word32) : SchedM Bool := do
  let k ← get
  hasChildFrom parent pid k.fresh (k.head .all)

/-- A zombie leaves the list it was found in, and the list of all tasks. -/
def unlinkZombie (link : Option Ptr) (z : Ptr) : SchedM Unit := do
  writeLink .zombie link (← loadNext .zombie z)
  setNext .zombie z none
  taskUnregister z

/-- The loop of `take_zombie`. -/
def takeZombieFrom (parent : Option Ptr) (pid : Word32) : Nat → Option Ptr → SchedM (Option Ptr)
  | 0, _ => throw .spin
  | fuel + 1, link => do
    match ← readLink .zombie link with
    | none => pure none
    | some z =>
      let task ← load z
      if task.parent = parent ∧ matchesPid pid task then
        unlinkZombie link z
        pure (some z)
      else takeZombieFrom parent pid fuel (some z)

def takeZombie (parent : Option Ptr) (pid : Word32) : SchedM (Option Ptr) := do
  takeZombieFrom parent pid ((← get).fresh + 1) none

/-- The loop of `task_reap_detached_zombies`. -/
def reapFrom : Nat → Option Ptr → SchedM Unit
  | 0, _ => throw .spin
  | fuel + 1, link => do
    match ← readLink .zombie link with
    | none => pure ()
    | some z =>
      let task ← load z
      if (← get).currentTask = some z ∨ task.parent ≠ none then reapFrom fuel (some z)
      else
        unlinkZombie link z
        taskFree z
        reapFrom fuel link

def taskReapDetachedZombies : SchedM Unit := do
  reapFrom ((← get).fresh + 1) none

/-! ## Scheduling -/

/-- The current task leaves the processor: a dead one is retired, which may bring in its
parent; `next` is the task found so far. -/
def retire (cur : Ptr) (next : Option Ptr) : SchedM (Option Ptr) := do
  let task ← load cur
  match task.state with
  | .dead =>
    schedRemove cur
    taskZombify cur
    match task.parent with
    | none => pure next
    | some p =>
      let t ← load p
      pure (if t.state.runnable then some p else next)
  | .running =>
    setState cur .ready
    pure next
  | _ => pure next

/-- Without a task that can run, the idle task. -/
def orIdle (next : Option Ptr) : SchedM (Option Ptr) := do
  match next with
  | none => pure (← get).idleTask
  | some p =>
    let t ← load p
    if t.state.runnable then pure (some p) else pure (← get).idleTask

/-- The stacks, `current_task` and CR3 of the task that is switched to. -/
def switchTo (old next : Ptr) : SchedM Unit := do
  let n ← load next
  modify fun k => { k with
    rsp0 := n.stackBase + taskStackSize
    syscallKernelStackTop := n.stackBase + taskStackSize
    currentTask := some next }
  setState next .running
  let o ← load old
  if o.cr3 ≠ n.cr3 then modify fun k => { k with cr3 := n.cr3 }

def schedule : SchedM Unit := do
  let k ← get
  match k.currentTask with
  | none => pure ()
  | some cur =>
    let found ← findRunnable k.taskCount.toNat (← loadNext .run cur)
    match ← orIdle (← retire cur found) with
    | none => setState cur .running
    | some next => if next = cur then setState cur .running else switchTo cur next

/-- `current_task`, which the kernel dereferences in every call. -/
def current : SchedM Ptr := do
  match (← get).currentTask with
  | none => throw .page
  | some cur => pure cur

/-! ## Creating tasks -/

/-- What the allocators do in a fork; the last case carries the new stack and the root that
`vmm_clone_user_address_space` returned. -/
inductive ForkOutcome where
  | noTask
  | noStack
  | noSpace
  | done (stackBase : Word) (root : Nat)

/-- `next_pid++`. -/
def takePid : SchedM Word32 := fun k =>
  .ok k.nextPid { k with nextPid := k.nextPid + 1#32 }

/-- The new address space of a task. -/
def adoptSpace (root : Nat) : SchedM Unit := modify fun k => { k with spaces := root :: k.spaces }

/-- The common end of `task_fork_from_frame` and the two `task_create` functions. -/
def startTask (t : Ptr) (cr3 : Nat) (stackBase : Word) (userMode : Bool) : SchedM Word32 := do
  let pid ← takePid
  edit t fun task => { task with
    pid := pid
    state := .ready
    cr3 := cr3
    stackBase := stackBase
    userMode := userMode }
  taskRegister t
  schedAdd t
  pure pid

/-- The pid of the child and its task, or the error. -/
def taskForkFromFrame (outcome : ForkOutcome) : SchedM (Except Int (Ptr × Word32)) := do
  let cur ← current
  let task ← load cur
  if ¬ task.userMode then pure (.error (-einval))
  else match outcome with
    | .noTask => pure (.error (-enomem))
    | .noStack | .noSpace => do
      let child ← kzallocTask
      kfreeTask child
      pure (.error (-enomem))
    | .done stackBase root => do
      let child ← kzallocTask
      adoptSpace root
      let pid ← startTask child root stackBase true
      pure (.ok (child, pid))

/-- `task_create_user_elf` once its image is loaded. -/
def taskCreateUserElf (stackBase : Word) (root : Nat) : SchedM Ptr := do
  let t ← kzallocTask
  adoptSpace root
  let _ ← startTask t root stackBase true
  pure t

def taskCreate (stackBase : Word) : SchedM Ptr := do
  let t ← kzallocTask
  let cr3 := (← get).cr3
  let _ ← startTask t cr3 stackBase false
  pure t

def schedStart (first : Ptr) (idleStack : Word) : SchedM Unit := do
  let idle ← taskCreate idleStack
  let task ← load first
  modify fun k => { k with
    idleTask := some idle
    currentTask := some first
    rsp0 := task.stackBase + taskStackSize
    syscallKernelStackTop := task.stackBase + taskStackSize
    cr3 := task.cr3 }
  setState first .running

/-! ## System calls -/

def taskExit (code : Word32) : SchedM Unit := do
  let cur ← current
  edit cur fun task => { task with exitCode := code, state := .dead }
  schedule

/-- What `task_waitpid` returns: `-EINVAL`, the child's pid, `-ECHILD` or 0; or it sleeps. -/
inductive WaitResult where
  | invalid
  | reaped (child : Ptr) (pid status : Word32)
  | noChild
  | nobody
  | blocked

def waitStatus (code : Word32) : Word32 := (code &&& 0xFF#32) <<< 8

/-- One round of the loop of `task_waitpid`. -/
def waitRound (pid options : Word32) : SchedM WaitResult := do
  let cur ← current
  match ← takeZombie (some cur) pid with
  | some z =>
    let task ← load z
    taskFree z
    edit cur fun t => { t with resume := .user }
    pure (.reaped z task.pid (waitStatus task.exitCode))
  | none =>
    if ← taskHasChild (some cur) pid then
      if options &&& wnohang ≠ 0#32 then pure .nobody
      else
        edit cur fun t => { t with state := .blocked, resume := .waiting pid options }
        schedule
        pure .blocked
    else
      edit cur fun t => { t with resume := .user }
      pure .noChild

def waitArgsOk (pid options : Word32) : Bool :=
  pid ≠ 0#32 ∧ ¬ pid.slt (-1#32) ∧ options &&& ~~~wnohang = 0#32

def taskWaitpid (pid options : Word32) : SchedM WaitResult :=
  if waitArgsOk pid options then waitRound pid options else pure .invalid

/-- `task_replace_user_elf` for the current task; `root` is that of the new image, if it
can be loaded. -/
def taskReplaceUserElf (root : Option Nat) : SchedM Bool := do
  let cur ← current
  let task ← load cur
  if ¬ task.userMode then pure false
  else match root with
    | none => pure false
    | some r => do
      adoptSpace r
      edit cur fun t => { t with cr3 := r }
      modify fun k => { k with cr3 := r }
      if task.cr3 ≠ 0 then destroySpace task.cr3
      pure true

/-- One round of `idle_fn`. -/
def idleRound : SchedM Unit := do
  taskReapDetachedZombies
  schedule

end LithiumKernel.Sched
