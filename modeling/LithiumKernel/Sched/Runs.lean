import LithiumKernel.Sched.Loaded

/-!
# Runs of the scheduler

The calls of user tasks and the rounds of the idle task as steps, from the state `sched_start` leaves
behind. The current task does the next step: the idle task goes round its loop, a task that slept in
`task_waitpid` goes on there, and any other makes a call. Nothing else switches tasks: the timer does
not. The outcomes of the allocators are part of a call; all that is known of them is that the root of
a new address space is a frame that was free.
-/
namespace LithiumKernel.Sched

open LithiumKernel.Lib

inductive Call where
  | fork (outcome : ForkOutcome)
  | exit (code : Word32)
  | waitpid (pid options : Word32)
  | yield
  | execve (root : Option Nat)

def userCall : Call → SchedM Unit
  | .fork outcome => do
    let _ ← taskForkFromFrame outcome
    pure ()
  | .exit code => taskExit code
  | .waitpid pid options => do
    let _ ← taskWaitpid pid options
    pure ()
  | .yield => schedule
  | .execve root => do
    let _ ← taskReplaceUserElf root
    pure ()

def act (call : Call) : SchedM Unit := do
  let cur ← current
  let task ← load cur
  if (← get).idleTask = some cur then idleRound
  else match task.resume with
    | .waiting pid options => do
      let _ ← waitRound pid options
      pure ()
    | .user => userCall call

/-- The root of a new address space is not in use, and not the `0` of a failed allocation. -/
def Call.Fresh (k : Kernel) : Call → Prop
  | .fork (.done _ root) => root ∉ k.spaces ∧ root ≠ 0
  | .execve (some root) => root ∉ k.spaces ∧ root ≠ 0
  | _ => True

def Step (k : Kernel) (call : Call) (k' : Kernel) : Prop := call.Fresh k ∧ act call k = .ok () k'

/-- The step in which the task `init_task` points to exits. -/
def InitExits (k : Kernel) (call : Call) : Prop :=
  ∃ code c, call = .exit code ∧ k.currentTask = some c ∧ k.initTask = some c

/-- Before the first task is created. -/
def emptyKernel (kernelRoot : Nat) : Kernel where
  task := fun _ => zeroTask
  fresh := 0
  currentTask := none
  idleTask := none
  initTask := none
  nextPid := 1#32
  cr3 := kernelRoot
  rsp0 := 0#64
  syscallKernelStackTop := 0#64
  spaces := [kernelRoot]
  next := fun _ _ => none
  head := fun _ => none
  taskCount := 0#32
  live := fun _ => false

/-- What `kmain` does to start the first user task. -/
def startInit (stack : Mm.Word) (root : Nat) (idleStack : Mm.Word) : SchedM Unit := do
  let first ← taskCreateUserElf stack root
  schedStart first idleStack

def started (kernelRoot root : Nat) (stack idleStack : Mm.Word) : Kernel :=
  resultState (startInit stack root idleStack (emptyKernel kernelRoot))

variable {stays : Prop} {kernelRoot root : Nat} {stack idleStack : Mm.Word} {g : Ghost} {k : Kernel}
  {c : Ptr} {calls : List Call}

/-! ## Each step -/

theorem kzallocTask_view : wp kzallocTask (fun t k' => t = k.view.fresh ∧ k'.view = { k.view with
    live := Function.update k.view.live k.view.fresh true
    fresh := k.view.fresh + 1
    task := Function.update k.view.task k.view.fresh zeroTask.seen
    link := Function.update k.view.link (some k.view.fresh) none }) stops k := by
  refine ⟨rfl, ?_⟩
  simp only [Kernel.view, seen_update, View.mk.injEq, true_and, and_true]
  funext l
  cases l with
  | none => simp
  | some x => by_cases same : x = k.fresh <;> simp [same]

/-- A new user task gets its record, and perhaps becomes `init_task`. -/
theorem startTask_view (t : Ptr) (r : Nat) (stackBase : Mm.Word) :
    wp (startTask t r stackBase true) (fun _ k' => ∃ o, (o = k.initTask ∨ o = some t) ∧
      k'.view = { k.view with
        init := o
        task := Function.update k.view.task t
          ⟨k.nextPid, .ready, r, stackBase, true, k.currentTask, (k.task t).exitCode, .user⟩ })
      stops k := by
  have rest : ∀ v, Unseen (setNext .all t v >>= fun _ => setHead .all (some t)) := fun v =>
    (unseen_setNext (by simp) _ _).bind fun _ => unseen_setHead (by simp) _
  have add : Unseen (schedAdd t >>= fun _ => pure k.nextPid) :=
    (unseen_schedAdd t).bind fun _ => .pure _
  unfold startTask taskRegister
  rw [wp_bind]
  change wp (edit t _ >>= _) _ stops { k with nextPid := k.nextPid + 1#32 }
  rw [wp_bind, wp_edit]
  intro _
  rw [wp_bind, wp_bind, wp_get, wp_bind, wp_edit]
  intro _
  rw [wp_bind, wp_load]
  refine fun _ => wp_ite (fun _ => ?_) fun _ => ?_
  · rw [wp_bind, wp_modify]
    refine wp_imp (rest _ _) fun _ k₁ same => wp_imp (add k₁) fun _ k₂ same₂ =>
      ⟨some t, .inr rfl, (same₂.trans same).trans ?_⟩
    simp only [Kernel.view, seen_update, Function.update_idem]
    simp [Task.seen]
  · refine wp_imp (rest _ _) fun _ k₁ same => wp_imp (add k₁) fun _ k₂ same₂ =>
      ⟨_, .inl rfl, (same₂.trans same).trans ?_⟩
    simp only [Kernel.view, seen_update, Function.update_idem]
    simp [Task.seen]

theorem taskForkFromFrame_runs {outcome : ForkOutcome} (h : Held g c k.view)
    (runs : (k.view.task c).state = .running) (fresh : (Call.fork outcome).Fresh k) :
    wp (taskForkFromFrame outcome) (fun _ k' => Runs g k'.view) stops k := by
  have now : Runs g k.view := ⟨g.own, c, h, runs⟩
  have old : c ≠ k.view.fresh := Nat.ne_of_lt (h.bound c h.here)
  -- a record that is given back at once
  have failed : wp (do let child ← kzallocTask; kfreeTask child; pure (.error (-enomem)) :
      SchedM (Except Int (Ptr × Word32))) (fun _ k' => Runs g k'.view) stops k := by
    refine wp_seq kzallocTask_view ?_
    rintro _ k₁ ⟨rfl, view⟩
    have freed : Kernel.view { k₁ with live := Function.update k₁.live k.view.fresh false } =
        { k₁.view with live := Function.update k₁.view.live k.view.fresh false } := rfl
    change Runs g (Kernel.view { k₁ with live := _ })
    rw [freed, view]
    exact ⟨g.own, c, h.discard zeroTask.seen, by simpa [old] using runs⟩
  unfold taskForkFromFrame
  rw [wp_current h.cur, wp_bind, wp_load]
  refine fun _ => wp_ite (fun _ => now) fun _ => ?_
  cases outcome with
  | noTask => exact now
  | noStack => exact failed
  | noSpace => exact failed
  | done stackBase r =>
    refine wp_seq kzallocTask_view ?_
    rintro _ k₁ ⟨rfl, view₁⟩
    unfold adoptSpace
    rw [wp_bind, wp_modify]
    refine wp_seq (startTask_view _ r stackBase) ?_
    rintro _ k₂ ⟨o, named, view₂⟩
    have init : k₁.initTask = k.view.init := congrArg View.init view₁
    have seen : Kernel.view { k₁ with spaces := r :: k₁.spaces } =
        { k₁.view with spaces := r :: k₁.view.spaces } := rfl
    rw [seen, view₁] at view₂
    change Runs g k₂.view
    rw [view₂]
    refine ⟨Function.update g.own r k.view.fresh, c, ?_, by simpa [old] using runs⟩
    exact h.spawn fresh.1 fresh.2 zeroTask.seen (named.imp_left fun same => same.trans init)
      ⟨rfl, rfl, rfl⟩

theorem taskReplaceUserElf_runs {r : Option Nat} (h : Held g c k.view)
    (runs : (k.view.task c).state = .running) (user : (k.view.task c).userMode = true)
    (fresh : (Call.execve r).Fresh k) :
    wp (taskReplaceUserElf r) (fun _ k' => Runs g k'.view) stops k := by
  have now : Runs g k.view := ⟨g.own, c, h, runs⟩
  unfold taskReplaceUserElf
  rw [wp_current h.cur, wp_bind, wp_load]
  refine fun _ => wp_ite (fun _ => now) fun _ => ?_
  cases r with
  | none => exact now
  | some r =>
    unfold adoptSpace
    rw [wp_bind, wp_modify, wp_bind, wp_edit]
    intro _
    rw [wp_bind, wp_modify]
    refine wp_ite (fun _ => ⟨Function.update g.own r c, c, ?_, ?_⟩) fun zero =>
      absurd (h.user c ⟨h.here, user⟩).2.2.2 zero
    · have replaced := h.replace user fresh.1 fresh.2
      simp only [Kernel.view, seen_update]
      exact replaced
    · simpa [Kernel.view, Task.seen] using runs

theorem act_runs {call : Call} (h : Held g c k.view) (runs : (k.view.task c).state = .running)
    (fresh : call.Fresh k) (spared : g.initStays → ¬ InitExits k call)
    (spares : Spares g c k.view.task) :
    wp (act call) (fun _ k' => Runs g k'.view) stops k := by
  unfold act
  rw [wp_current h.cur, wp_bind, wp_load]
  intro _
  rw [wp_bind, wp_get]
  refine wp_ite (fun _ => idleRound_runs h runs spares) fun notIdle => ?_
  have user : (k.view.task c).userMode = true := by
    by_contra plain
    exact notIdle (h.plain c h.here (by simpa using plain)).1
  have waits := waitRound_runs h runs user spares
  cases (k.task c).resume with
  | waiting pid options => exact wp_seq (waits pid options) fun _ _ after => after.1
  | user =>
    cases call with
    | fork outcome => exact wp_seq (taskForkFromFrame_runs h runs fresh) fun _ _ => id
    | exit code =>
      refine taskExit_runs h user (fun stays isInit => ?_) code
      exact spared stays ⟨code, c, rfl, h.cur, isInit⟩
    | waitpid pid options =>
      refine wp_seq (wp_ite (fun _ => wp_imp (waits pid options) fun _ _ after => after.1) fun _ => ?_)
        fun _ _ => id
      exact ⟨g.own, c, h, runs⟩
    | yield => exact schedule_runs h
    | execve r => exact wp_seq (taskReplaceUserElf_runs h runs user fresh) fun _ _ => id

/-- Task 0 is `init`, task 1 the idle task. -/
theorem started_view : (started kernelRoot root stack idleStack).view = {
    live := Function.update (Function.update (fun _ => false) 0 true) 1 true
    fresh := 2
    task := Function.update (Function.update (fun _ => zeroTask.seen) 0
      ⟨1#32, .running, root, stack, true, none, 0#32, .user⟩) 1
      ⟨2#32, .ready, kernelRoot, idleStack, false, none, 0#32, .user⟩
    link := fun _ => none
    cur := some 0
    idle := some 1
    init := some 0
    cr3 := root
    rsp0 := stack + taskStackSize
    top := stack + taskStackSize
    spaces := [root, kernelRoot] } := by
  refine View.ext rfl rfl (funext fun p => ?_) (funext fun l => ?_) rfl rfl rfl rfl rfl rfl rfl
  · rcases p with _ | _ | p <;> rfl
  · rcases l with _ | _ | _ | p <;> rfl

/-! ## Whole runs -/

/-- A task that is gone in `k'` had exited, and had no parent or was a child of the current task. -/
def FreesExited (k k' : Kernel) : Prop :=
  ∀ z, k.live z = true → k'.live z = true ∨ (k.task z).state = .dead ∧
    ((k.task z).parent = none ∨ (k.task z).parent = k.currentTask)

/-- Any task may be freed. -/
def ghost (stays : Prop) (kernelRoot : Nat) : Ghost := ⟨stays, kernelRoot, fun _ => 0, fun _ => False⟩

section Started

variable (apart : root ≠ kernelRoot) (nonzero : root ≠ 0)
include apart nonzero

theorem started_runs :
    Runs (ghost stays kernelRoot) (started kernelRoot root stack idleStack).view := by
  rw [started_view]
  refine ⟨fun _ => 0, 0, ?_, by simp⟩
  constructor
  case idle => exact ⟨1, rfl, by simp [TaskState.runnable]⟩
  all_goals grind [ghost, Task.top, View.User, Function.update_apply]

theorem run_runs (run : Run (fun k call k' => Step k call k' ∧ (stays → ¬ InitExits k call))
    (started kernelRoot root stack idleStack) calls k) : Runs (ghost stays kernelRoot) k.view := by
  refine run.invariant (fun k => Runs _ k.view) (started_runs apart nonzero) ?_
  rintro k call k' ⟨own, c, h, runs⟩ ⟨⟨fresh, ran⟩, spared⟩
  exact (wp_ok (act_runs h runs fresh spared fun _ _ _ => id) ran :)

variable (run : Run Step (started kernelRoot root stack idleStack) calls k)
include run

theorem reachable_runs : Runs (ghost False kernelRoot) k.view :=
  run_runs apart nonzero (run.mono fun _ _ _ step => ⟨step, False.elim⟩)

/-- A wait of a user task. -/
theorem wait_reports_exited_child {pid options : Word32} {r : WaitResult} {k' : Kernel}
    (user : k.idleTask ≠ k.currentTask) (waited : waitRound pid options k = .ok r k') :
    Waited pid k r k' := by
  obtain ⟨own, c, h, runs⟩ := reachable_runs apart nonzero run
  have mode : (k.view.task c).userMode = true := by
    by_contra plain
    exact user ((h.plain c h.here (by simpa using plain)).1.trans h.cur.symm)
  exact (wp_ok (waitRound_runs h runs mode (fun _ _ _ => id) pid options) waited).2

/-- No step frees a task that has not exited, or one its parent can still wait for. -/
theorem step_frees_exited {call : Call} {k' : Kernel} (step : Step k call k') : FreesExited k k' := by
  obtain ⟨own, c, h, runs⟩ := reachable_runs apart nonzero run
  intro z lived
  by_contra gone
  obtain ⟨freed, other⟩ := not_or.mp gone
  have cur : k.currentTask = some c := h.cur
  -- the invariant with this task as one that stays
  have keeps : Held ⟨False, kernelRoot, own, (· = z)⟩ c k.view :=
    { h with init := False.elim, kept := fun p same => same ▸ lived }
  have after := wp_ok (act_runs keeps runs step.1 False.elim ?_) step.2
  · obtain ⟨_, _, h', -⟩ := after
    exact freed (h'.kept z rfl)
  · rintro _ dead free rfl
    exact other ⟨dead, cur ▸ free⟩

end Started

abbrev booted : Kernel := started 0x1000 0x2000 0#64 0#64

theorem wait_reports_exited_child_first :
    Waited (-1#32) booted .noChild (resultState (waitRound (-1#32) 0#32 booted)) :=
  wait_reports_exited_child (by decide) (by decide) .nil (by decide)
    (show waitRound _ 0#32 _ = _ from rfl)

theorem step_frees_exited_first : FreesExited booted (resultState (act .yield booted)) :=
  step_frees_exited (by decide) (by decide) .nil (show Step _ .yield _ from ⟨trivial, rfl⟩)

end LithiumKernel.Sched
