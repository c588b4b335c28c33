import LithiumKernel.Lib.Run
import LithiumKernel.Sched.Task
import Mathlib.Data.List.Nodup

/-!
# The address space and the stack of the running task

Of the kernel's state, a switch and the freeing of a task depend on which tasks exist, on their
records, and on the list in which the idle task and `task_waitpid` find the tasks they free.
`Kernel.view` is this part. The run queue and `all_tasks` are not in it: whatever the walks over them
find, the code that follows checks what it needs. So the statements here are about calls that return;
a fault stops the machine.
-/
namespace LithiumKernel.Sched

open LithiumKernel.Lib

/-- All of a task but where it goes on. -/
def Task.seen (t : Task) : Task := { t with resume := .user }

/-- The top of its kernel stack. -/
def Task.top (t : Task) : Mm.Word := t.stackBase + taskStackSize

@[ext] structure View where
  live : Ptr → Bool
  fresh : Ptr
  task : Ptr → Task
  /-- `*link` for the links of `zombie_tasks`; `none` is its head. -/
  link : Option Ptr → Option Ptr
  cur : Option Ptr
  idle : Option Ptr
  init : Option Ptr
  cr3 : Nat
  rsp0 : Mm.Word
  top : Mm.Word
  spaces : List Nat

def Kernel.view (k : Kernel) : View where
  live := k.live
  fresh := k.fresh
  task p := (k.task p).seen
  link l := l.elim (k.head .zombie) (k.next .zombie)
  cur := k.currentTask
  idle := k.idleTask
  init := k.initTask
  cr3 := k.cr3
  rsp0 := k.rsp0
  top := k.syscallKernelStackTop
  spaces := k.spaces

/-- Nothing is asked of a fault. -/
abbrev stops : Fault → Kernel → Prop := fun _ _ => True

variable {k : Kernel} {p : Ptr} {q : Queue}

/-- An access to a task returns if the task exists. -/
theorem wp_access {α : Type} {m : SchedM α} {a : α} {k' : Kernel}
    (run : m k = if k.live p then .ok a k' else .error .page k) (post : α → Kernel → Prop) :
    wp m post stops k ↔ (k.live p = true → post a k') := by
  rw [wp, run]
  by_cases alive : k.live p = true <;> simp [alive]

@[simp] theorem wp_load (post : Task → Kernel → Prop) :
    wp (load p) post stops k ↔ (k.live p = true → post (k.task p) k) :=
  wp_access rfl post

@[simp] theorem wp_loadNext (post : Option Ptr → Kernel → Prop) :
    wp (loadNext q p) post stops k ↔ (k.live p = true → post (k.next q p) k) :=
  wp_access rfl post

@[simp] theorem wp_edit (f : Task → Task) (post : Unit → Kernel → Prop) :
    wp (edit p f) post stops k ↔
      (k.live p = true → post () { k with task := Function.update k.task p (f (k.task p)) }) :=
  wp_access rfl post

@[simp] theorem wp_setNext (v : Option Ptr) (post : Unit → Kernel → Prop) :
    wp (setNext q p v) post stops k ↔ (k.live p = true →
      post () { k with next := Function.update k.next q (Function.update (k.next q) p v) }) :=
  wp_access rfl post

theorem seen_update (f : Ptr → Task) (t : Task) :
    (fun x => (Function.update f p t x).seen) = Function.update (fun x => (f x).seen) p t.seen :=
  Function.comp_update Task.seen f p t

theorem view_edit (t : Task) : Kernel.view { k with task := Function.update k.task p t } =
    { k.view with task := Function.update k.view.task p t.seen } := by
  simp only [Kernel.view, seen_update]

/-- `*link` is read, in the list of the zombies. -/
theorem wp_readLink (l : Option Ptr) :
    wp (readLink .zombie l) (fun r k' => r = k.view.link l ∧ k' = k) stops k := by
  cases l with
  | none => exact ⟨rfl, rfl⟩
  | some p => exact (wp_loadNext _).mpr fun _ => ⟨rfl, rfl⟩

theorem wp_writeLink (l o : Option Ptr) : wp (writeLink .zombie l o)
    (fun _ k' => k'.view = { k.view with link := Function.update k.view.link l o }) stops k := by
  cases l with
  | none =>
    refine congrArg (fun link => { k.view with link := link }) (funext fun x => ?_)
    cases x <;> simp [Kernel.view]
  | some p =>
    refine (wp_setNext _ _).mpr fun _ => congrArg (fun link => { k.view with link := link }) ?_
    funext x
    cases x <;> simp [Kernel.view, Function.update_apply]

/-! ## What stays as it is -/

abbrev Unseen {α : Type} (m : SchedM α) : Prop := Keeps Kernel.view m

theorem unseen_get : Unseen (get : SchedM Kernel) := Keeps.get

theorem unseen_load (p : Ptr) : Unseen (load p) := fun _ => (wp_load _).mpr fun _ => rfl

theorem unseen_loadNext (q : Queue) (p : Ptr) : Unseen (loadNext q p) :=
  fun _ => (wp_loadNext _).mpr fun _ => rfl

theorem unseen_edit {f : Task → Task} (same : ∀ t, (f t).seen = t.seen) (p : Ptr) :
    Unseen (edit p f) := by
  intro k
  refine (wp_edit _ _).mpr fun _ => ?_
  rw [view_edit, same]
  exact congrArg (fun t => { k.view with task := t }) (Function.update_eq_self p k.view.task)

theorem unseen_setNext (other : q ≠ .zombie) (p : Ptr) (v : Option Ptr) : Unseen (setNext q p v) := by
  intro k
  refine (wp_setNext _ _).mpr fun _ => ?_
  simp [Kernel.view, Function.update_of_ne (Ne.symm other)]

theorem unseen_setHead (other : q ≠ .zombie) (v : Option Ptr) : Unseen (setHead q v) := by
  intro k
  change Kernel.view { k with head := Function.update k.head q v } = k.view
  simp [Kernel.view, Function.update_of_ne (Ne.symm other)]

theorem unseen_count (f : Word32 → Word32) :
    Unseen (modify fun k => { k with taskCount := f k.taskCount } : SchedM Unit) := fun _ => rfl

theorem unseen_schedAdd (t : Ptr) : Unseen (schedAdd t) := by
  have next := fun p v => unseen_setNext (q := .run) (by simp) p v
  unfold schedAdd
  refine Keeps.get.bind fun k => ?_
  cases k.head .run with
  | none =>
    exact (next t _).bind fun _ => (unseen_setHead (by simp) _).bind fun _ => unseen_count (· + 1#32)
  | some head =>
    exact (unseen_loadNext _ _).bind fun n => (next t n).bind fun _ => (next _ _).bind fun _ =>
      unseen_count (· + 1#32)

theorem unseen_findPrev (t head : Ptr) (fuel : Nat) (prev : Ptr) :
    Unseen (findPrev t head fuel prev) := by
  fun_induction findPrev t head fuel prev with
  | case1 => exact .throw _
  | case2 fuel prev ih =>
    refine (unseen_loadNext _ _).bind fun n => .ite (.pure _) ?_
    cases n with
    | none => exact .throw _
    | some p => exact ih p

theorem unseen_schedRemove (t : Ptr) : Unseen (schedRemove t) := by
  have count := unseen_count (· - 1#32)
  have head := fun v => (unseen_setHead (q := .run) (by simp) v).bind fun _ => count
  unfold schedRemove
  refine Keeps.get.bind fun k => ?_
  cases k.head .run with
  | none => exact .pure _
  | some first =>
    refine .ite (.pure _) ((unseen_findPrev t first _ _).bind fun prev =>
      (unseen_loadNext _ _).bind fun n => ?_)
    refine .ite ((unseen_loadNext _ _).bind fun after => .ite (head _) ?_) (.pure _)
    exact (unseen_setNext (by simp) _ _).bind fun _ => .ite (head _) count

theorem unseen_findRunnable (n : Nat) (o : Option Ptr) : Unseen (findRunnable n o) := by
  fun_induction findRunnable n o with
  | case1 => exact .pure _
  | case2 n ih => exact ih
  | case3 n p ih =>
    exact (unseen_load p).bind fun t => .ite (.pure _) ((unseen_loadNext _ _).bind fun o => ih o)

theorem unseen_hasChildFrom (parent : Option Ptr) (pid : Word32) (fuel : Nat) (o : Option Ptr) :
    Unseen (hasChildFrom parent pid fuel o) := by
  fun_induction hasChildFrom parent pid fuel o with
  | case1 => exact .pure _
  | case2 => exact .throw _
  | case3 fuel t ih =>
    exact (unseen_load t).bind fun task => .ite (.pure _) ((unseen_loadNext _ _).bind fun o => ih o)

theorem unseen_unregisterFrom (t : Ptr) (fuel : Nat) (l : Option Ptr) :
    Unseen (unregisterFrom t fuel l) := by
  fun_induction unregisterFrom t fuel l with
  | case1 => exact .throw _
  | case2 fuel l ih =>
    have links : Unseen (readLink .all l) ∧ ∀ v, Unseen (writeLink .all l v) := by
      cases l with
      | none => exact ⟨fun _ => rfl, unseen_setHead (by simp)⟩
      | some p => exact ⟨unseen_loadNext .all p, unseen_setNext (by simp) p⟩
    refine links.1.bind fun o => ?_
    cases o with
    | none => exact .pure _
    | some p =>
      refine .ite ((unseen_loadNext .all t).bind fun v => (links.2 v).bind fun _ => ?_) (ih p)
      exact unseen_setNext (by simp) t none

theorem unseen_newParentOf (parent : Ptr) : Unseen (newParentOf parent) := by
  unfold newParentOf
  refine Keeps.get.bind fun k => ?_
  cases k.initTask with
  | none => exact .pure _
  | some i => exact .ite (.pure _) ((unseen_load i).bind fun _ => .pure _)

/-! ## What is kept -/

/-- `m` keeps a property of the view. -/
def Kept {α : Type} (P : View → Prop) (m : SchedM α) : Prop :=
  ∀ k, P k.view → wp m (fun _ k' => P k'.view) stops k

section Kept

variable {α β : Type} {P : View → Prop} {m m' : SchedM α} {rest : α → SchedM β}
  {post : β → Kernel → Prop}

theorem Unseen.kept (unseen : Unseen m) : Kept P m := fun k holds =>
  wp_imp (unseen k) fun _ _ same => same ▸ holds

theorem Kept.bind (first : Kept P m) (after : ∀ a, Kept P (rest a)) : Kept P (m >>= rest) :=
  fun k holds => wp_seq (first k holds) fun a k' => after a k'

theorem Kept.ite {b : Prop} [Decidable b] (yes : Kept P m) (no : Kept P m') :
    Kept P (if b then m else m') :=
  fun k holds => wp_ite (fun _ => yes k holds) fun _ => no k holds

theorem wp_current {rest : Ptr → SchedM β} (cur : k.currentTask = some p) :
    wp (current >>= rest) post stops k ↔ wp (rest p) post stops k := by
  unfold current
  rw [wp_bind, wp_bind, wp_get, cur]
  rfl

end Kept

/-! ## The invariant -/

/-- What the code does not know: whether `init_task` is known not to exit, the kernel's root, the task
each other root belongs to, and the tasks that are not freed. -/
structure Ghost where
  initStays : Prop
  kernelRoot : Nat
  own : Nat → Ptr
  keep : Ptr → Prop

/-- A user task that exists. -/
def View.User (v : View) (p : Ptr) : Prop := v.live p = true ∧ (v.task p).userMode = true

/-- The registers are those of the task `c`. The address spaces that exist are the kernel's and one for
each user task, nothing but dead tasks is on the way to be freed, and the idle task can always run. -/
structure Held (g : Ghost) (c : Ptr) (v : View) : Prop where
  here : v.live c = true
  cur : v.cur = some c
  cr3 : v.cr3 = (v.task c).cr3
  rsp0 : v.rsp0 = (v.task c).top
  top : v.top = (v.task c).top
  bound : ∀ p, v.live p = true → p < v.fresh
  listed : ∀ l z, v.link l = some z → z < v.fresh ∧ (v.task z).state = .dead
  idle : ∃ i, v.idle = some i ∧ v.live i = true ∧ (v.task i).userMode = false ∧
    (v.task i).state.runnable = true
  plain : ∀ p, v.live p = true → (v.task p).userMode = false →
    v.idle = some p ∧ (v.task p).cr3 = g.kernelRoot
  kernel : g.kernelRoot ∈ v.spaces
  distinct : v.spaces.Nodup
  user : ∀ p, v.User p → (v.task p).cr3 ∈ v.spaces ∧ g.own (v.task p).cr3 = p ∧
    (v.task p).cr3 ≠ g.kernelRoot ∧ (v.task p).cr3 ≠ 0
  owner : ∀ r ∈ v.spaces, r ≠ g.kernelRoot → v.User (g.own r) ∧ (v.task (g.own r)).cr3 = r
  init : g.initStays → ∀ i, v.init = some i → v.live i = true ∧ (v.task i).state ≠ .dead
  kept : ∀ p, g.keep p → v.live p = true

variable {g : Ghost} {v : View} {k : Kernel} {r : Nat} {c p z : Ptr} {l o : Option Ptr}

namespace Held

/-- A task is changed: the dead stay dead, and the idle task can run. -/
theorem edit {t : Task} (h : Held g c v) (same : t.cr3 = (v.task p).cr3 ∧
    t.top = (v.task p).top ∧ t.userMode = (v.task p).userMode)
    (state : t.state = (v.task p).state ∨ ((v.task p).state = .dead → t.state = .dead) ∧
      (v.idle = some p → t.state.runnable = true) ∧
      (g.initStays → v.init = some p → t.state ≠ .dead)) :
    Held g c { v with task := Function.update v.task p t } ∧
      ∀ z, (v.task z).state = .dead → (Function.update v.task p t z).state = .dead := by
  refine ⟨?_, by grind [Function.update_apply]⟩
  rcases h with ⟨⟩
  constructor <;> grind -linarith [View.User, Function.update_apply]

/-- A link of the zombies is written. -/
theorem relink (h : Held g c v) (only : ∀ z, o = some z → z < v.fresh ∧ (v.task z).state = .dead) :
    Held g c { v with link := Function.update v.link l o } :=
  { h with listed := by grind [Function.update_apply, h.listed] }

/-- A dead task is freed, and its address space with it: it is not the idle task. -/
theorem free (h : Held g c v) (dead : (v.task z).state = .dead) (ne : c ≠ z) (alive : v.live z = true)
    (free : ¬ g.keep z) : ((v.task z).userMode = true ∧ (v.task z).cr3 ≠ 0) ∧ Held g c { v with
      live := Function.update v.live z false
      spaces := v.spaces.erase (v.task z).cr3 } := by
  have user : (v.task z).userMode = true := by grind [TaskState.runnable, h.plain z alive, h.idle]
  refine ⟨⟨user, (h.user z ⟨alive, user⟩).2.2.2⟩, ?_⟩
  rcases h with ⟨⟩
  constructor <;> grind -linarith [View.User, Function.update_apply, List.Nodup.mem_erase_iff,
    List.Nodup.erase]

/-- A record is allocated and given back. -/
theorem discard (h : Held g c v) (t : Task) :
    Held g c { v with
      live := Function.update (Function.update v.live v.fresh true) v.fresh false
      fresh := v.fresh + 1
      task := Function.update v.task v.fresh t
      link := Function.update v.link (some v.fresh) none } := by
  rcases h with ⟨⟩
  constructor <;> grind -linarith [View.User, Function.update_apply]

/-- A new user task with a new address space, perhaps `init_task`. -/
theorem spawn (h : Held g c v) (new : r ∉ v.spaces) (nonzero : r ≠ 0) (t : Task) {t' : Task}
    (named : o = v.init ∨ o = some v.fresh)
    (made : t'.state = .ready ∧ t'.cr3 = r ∧ t'.userMode = true) :
    Held { g with own := Function.update g.own r v.fresh } c { v with
      live := Function.update v.live v.fresh true
      fresh := v.fresh + 1
      task := Function.update (Function.update v.task v.fresh t) v.fresh t'
      link := Function.update v.link (some v.fresh) none
      init := o
      spaces := r :: v.spaces } := by
  rcases h with ⟨⟩
  constructor <;> grind -linarith [View.User, Function.update_apply]

/-- The running task changes its address space. -/
theorem replace (h : Held g c v) (user : (v.task c).userMode = true) (new : r ∉ v.spaces)
    (nonzero : r ≠ 0) :
    Held { g with own := Function.update g.own r c } c { v with
      cr3 := r
      task := Function.update v.task c { v.task c with cr3 := r }
      spaces := (r :: v.spaces).erase (v.task c).cr3 } := by
  have both : (r :: v.spaces).Nodup := List.nodup_cons.mpr ⟨new, h.distinct⟩
  rcases h with ⟨⟩
  constructor <;> grind -linarith [Task.top, View.User, Function.update_apply, List.Nodup.mem_erase_iff,
    List.Nodup.erase]

theorem not_idle (h : Held g c v) (user : (v.task p).userMode = true) : v.idle ≠ some p := by
  obtain ⟨i, isIdle, -, plain, -⟩ := h.idle
  intro same
  obtain rfl := Option.some.inj (isIdle.symm.trans same)
  simp [user] at plain

end Held

/-! ## Scheduling -/

/-- Some task executes, with the roots assigned to tasks in some way. -/
def Runs (g : Ghost) (v : View) : Prop :=
  ∃ own c, Held { g with own := own } c v ∧ (v.task c).state = .running

theorem runnable_ne_dead {s : TaskState} (can : s.runnable = true) : s ≠ .dead := by
  rintro rfl
  cases can

theorem setState_held {s : TaskState} (h : Held g c k.view) (was : (k.view.task p).state ≠ .dead)
    (now : s.runnable = true) : wp (setState p s) (fun _ k' => (Held g c k'.view ∧
        ∀ z, (k.view.task z).state = .dead → (k'.view.task z).state = .dead) ∧
      k'.view = { k.view with task := Function.update k.view.task p { k.view.task p with state := s } })
      stops k := by
  refine (wp_edit _ _).mpr fun _ => ?_
  rw [view_edit]
  exact ⟨h.edit ⟨rfl, rfl, rfl⟩ (.inr ⟨fun dead => absurd dead was, fun _ => now,
    fun _ _ => runnable_ne_dead now⟩), rfl⟩

/-- The invariant, with more about the records. -/
def With (g : Ghost) (c : Ptr) (facts : (Ptr → Bool) → Ptr → (Ptr → Task) → Prop) (v : View) : Prop :=
  Held g c v ∧ facts v.live v.fresh v.task

/-- Links to dead tasks are written. -/
theorem writeLink_with {facts : (Ptr → Bool) → Ptr → (Ptr → Task) → Prop} (w : With g c facts k.view)
    (only : ∀ z, o = some z → z < k.view.fresh ∧ (k.view.task z).state = .dead) :
    wp (writeLink .zombie l o) (fun _ k' => With g c facts k'.view) stops k := by
  refine wp_imp (wp_writeLink l o) fun _ k' view => ?_
  rw [view]
  exact ⟨w.1.relink only, w.2⟩

/-- While `z` is on its way to the zombies. -/
abbrev Dying (g : Ghost) (c z : Ptr) : View → Prop :=
  With g c fun _ fresh task => z < fresh ∧ (task z).state = .dead

theorem kept_wake (o : Option Ptr) : Kept (Dying g c z) (wake o) := by
  rintro k ⟨h, old, dead⟩
  cases o with
  | none => exact ⟨h, old, dead⟩
  | some p =>
    unfold wake
    rw [wp_bind, wp_load]
    refine fun _ => wp_ite (fun blocked => ?_) fun _ => ⟨h, old, dead⟩
    have was : (k.view.task p).state ≠ .dead := by simp [Kernel.view, Task.seen, blocked]
    refine wp_imp (setState_held h was rfl) fun _ k' ⟨⟨h', still⟩, view⟩ => ⟨h', ?_, still z dead⟩
    rw [view]
    exact old

theorem kept_reparentFrom (parent : Ptr) (newParent : Option Ptr) (fuel : Nat) (o : Option Ptr) :
    Kept (Dying g c z) (reparentFrom parent newParent fuel o) := by
  fun_induction reparentFrom parent newParent fuel o with
  | case1 => exact fun _ dying => dying
  | case2 => exact fun _ _ => trivial
  | case3 fuel t ih =>
    have rest := (unseen_loadNext .all t).kept.bind fun o => ih o
    refine (unseen_load t).kept.bind fun task => .ite (Kept.bind ?_ fun _ => rest) rest
    rintro k ⟨h, old, dead⟩
    refine (wp_edit _ _).mpr fun _ => ?_
    rw [view_edit]
    have moved := h.edit (p := t) (t := Task.seen { k.task t with parent := newParent })
      ⟨rfl, rfl, rfl⟩ (.inl rfl)
    exact ⟨moved.1, old, moved.2 z dead⟩

theorem kept_reparentChildren (t : Ptr) : Kept (Dying g c z) (reparentChildren t) :=
  (unseen_newParentOf t).kept.bind fun o => unseen_get.kept.bind fun _ =>
    (kept_reparentFrom t o _ _).bind fun _ => kept_wake o

theorem kept_taskZombify : Kept (Dying g c z) (taskZombify z) := by
  refine (unseen_loadNext _ _).kept.bind fun o => ?_
  cases o with
  | some _ => exact fun _ dying => dying
  | none =>
    refine (kept_reparentChildren z).bind fun _ k dying => ?_
    rw [wp_bind, wp_get]
    -- the task is put in front: its own link is written, then the head
    refine wp_seq (writeLink_with (l := some z) dying (dying.1.listed none)) fun _ k₁ dying₁ => ?_
    refine wp_seq (writeLink_with (l := none) (o := some z) dying₁ ?_) fun _ k₂ dying₂ => ?_
    · rintro _ ⟨⟩
      exact dying₁.2
    · exact ((unseen_load z).kept.bind fun t => kept_wake _) k₂ dying₂

theorem kept_retire (next : Option Ptr) : Kept (Held g c) (retire c next) := by
  intro k h
  unfold retire
  rw [wp_bind, wp_load]
  intro _
  cases state : (k.task c).state with
  | dead =>
    have dying : Dying g c c k.view := ⟨h, h.bound c h.here, state⟩
    refine wp_seq ((unseen_schedRemove c).kept k dying) fun _ k₁ dying₁ => ?_
    refine wp_seq (kept_taskZombify k₁ dying₁) fun _ k₂ dying₂ => ?_
    cases (k.task c).parent with
    | none => exact dying₂.1
    | some p => exact ((unseen_load p).kept.bind fun _ _ held => held) k₂ dying₂.1
  | running =>
    have was : (k.view.task c).state ≠ .dead := by simp [Kernel.view, Task.seen, state]
    exact wp_seq (setState_held h was rfl) fun _ _ after => after.1.1
  | ready => exact h
  | blocked => exact h

/-- Whatever was found, what is switched to exists and can run. -/
theorem orIdle_held (h : Held g c k.view) (next : Option Ptr) :
    wp (orIdle next) (fun r k' => k' = k ∧ ∃ n, r = some n ∧ k.live n = true ∧
      (k.view.task n).state.runnable = true) stops k := by
  obtain ⟨i, isIdle, alive, -, runs⟩ := h.idle
  cases next with
  | none => exact ⟨rfl, i, isIdle, alive, runs⟩
  | some p =>
    unfold orIdle
    rw [wp_bind, wp_load]
    exact fun here => wp_ite (fun can => ⟨rfl, p, rfl, here, can⟩)
      fun _ => ⟨rfl, i, isIdle, alive, runs⟩

theorem switchTo_runs {n : Ptr} (h : Held g c k.view) (can : (k.view.task n).state.runnable = true) :
    wp (switchTo c n) (fun _ k' => Runs g k'.view) stops k := by
  unfold switchTo setState
  rw [wp_bind, wp_load]
  intro alive
  rw [wp_bind, wp_modify, wp_bind, wp_edit]
  intro _
  rw [wp_bind, wp_load]
  intro _
  have next := (h.edit (t := { k.view.task n with state := .running }) ⟨rfl, rfl, rfl⟩
    (.inr ⟨fun dead => absurd dead (runnable_ne_dead can), fun _ => rfl, by simp⟩)).1
  -- the register holds the root of the new task, whether or not it was written
  have finish : ∀ cr3, cr3 = (k.task n).cr3 → Runs g (Kernel.view { k with
      rsp0 := (k.task n).stackBase + taskStackSize
      syscallKernelStackTop := (k.task n).stackBase + taskStackSize
      currentTask := some n
      task := Function.update k.task n { k.task n with state := .running }
      cr3 := cr3 }) := by
    rintro _ rfl
    refine ⟨g.own, n, ?_, by simp [Kernel.view, Task.seen]⟩
    simp only [Kernel.view, seen_update]
    exact { next with
      here := alive
      cur := rfl
      cr3 := by simp [Task.seen]
      rsp0 := by simp [Task.seen, Task.top]
      top := by simp [Task.seen, Task.top] }
  refine wp_ite (fun _ => finish _ rfl) fun same => finish _ ?_
  rw [show k.cr3 = (k.task c).cr3 from h.cr3]
  by_cases self : c = n
  · rw [self]
  · simpa [self] using same

theorem schedule_runs (h : Held g c k.view) : wp schedule (fun _ k' => Runs g k'.view) stops k := by
  have cur : k.currentTask = some c := h.cur
  unfold schedule
  rw [wp_bind, wp_get, cur]
  refine wp_seq ((unseen_loadNext .run c).kept k h) fun first k₁ h₁ => ?_
  refine wp_seq ((unseen_findRunnable _ first).kept k₁ h₁) fun found k₂ h₂ => ?_
  refine wp_seq (kept_retire found k₂ h₂) fun next k₃ h₃ => ?_
  refine wp_seq (orIdle_held h₃ next) ?_
  rintro _ _ ⟨rfl, n, rfl, alive, can⟩
  refine wp_ite (fun here => ?_) fun _ => switchTo_runs h₃ can
  subst here
  refine wp_imp (setState_held h₃ (runnable_ne_dead can) rfl) fun _ k' ⟨held, view⟩ =>
    ⟨g.own, n, held.1, ?_⟩
  rw [view]
  simp

/-! ## Freeing tasks -/

/-- While `c` frees tasks, the records are as they were. -/
abbrev Fixed (g : Ghost) (c : Ptr) (f : Ptr → Task) : View → Prop := With g c fun _ _ task => task = f

/-- Dead tasks without a parent and dead children of `c` may be freed. -/
def Spares (g : Ghost) (c : Ptr) (f : Ptr → Task) : Prop :=
  ∀ z, (f z).state = .dead → (f z).parent = none ∨ (f z).parent = some c → ¬ g.keep z

variable {f : Ptr → Task}

theorem kept_unlinkZombie {facts : (Ptr → Bool) → Ptr → (Ptr → Task) → Prop} :
    Kept (With g c facts) (unlinkZombie l z) := by
  intro k held
  unfold unlinkZombie
  rw [wp_bind, wp_loadNext]
  intro _
  refine wp_seq (writeLink_with held (held.1.listed (some z))) fun _ k₁ held₁ => ?_
  refine wp_seq (writeLink_with (l := some z) (o := none) held₁ (by simp)) fun _ k₂ held₂ => ?_
  exact (unseen_get.kept.bind fun k => (unseen_unregisterFrom z _ none).kept) k₂ held₂

theorem taskFree_fixed (fixed : Fixed g c f k.view) (dead : (f z).state = .dead) (free : ¬ g.keep z)
    (runs : (f c).state = .running) : wp (taskFree z) (fun _ k' =>
      Fixed g c f k'.view ∧ k'.view.live = Function.update k.view.live z false) stops k := by
  obtain ⟨h, rfl⟩ := fixed
  have ne : c ≠ z := by
    rintro rfl
    rw [dead] at runs
    cases runs
  unfold taskFree
  rw [wp_bind, wp_load]
  intro alive
  obtain ⟨own, freed⟩ := h.free dead ne alive free
  exact wp_ite (fun _ => ⟨⟨freed, rfl⟩, rfl⟩) fun shared => absurd own shared

/-- No task has been freed or changed. -/
abbrev Still (g : Ghost) (c : Ptr) (v : View) : View → Prop :=
  With g c fun live _ task => live = v.live ∧ task = v.task

/-- A zombie that is taken is a dead child, and still exists; without one, nothing has changed. -/
theorem takeZombieFrom_held (parent : Option Ptr) (pid : Word32) (fuel : Nat) (l : Option Ptr)
    (h : Held g c k.view) : wp (takeZombieFrom parent pid fuel l) (fun r k' => match r with
      | none => k' = k
      | some z => Still g c k.view k'.view ∧ (k.task z).state = .dead ∧
        (k.task z).parent = parent ∧ matchesPid pid (k.task z) = true) stops k := by
  fun_induction takeZombieFrom parent pid fuel l with
  | case1 => trivial
  | case2 fuel l ih =>
    refine wp_seq (wp_readLink l) ?_
    rintro (_ | z) _ ⟨found, rfl⟩
    · exact rfl
    · rw [wp_bind, wp_load]
      refine fun _ => wp_ite (fun mine => ?_) fun _ => ih z
      have now : Still g c _ _ := ⟨h, rfl, rfl⟩
      refine wp_seq (kept_unlinkZombie _ now) fun _ k' after => ?_
      exact ⟨after, (h.listed l z found.symm).2, mine⟩

theorem kept_reapFrom (runs : (f c).state = .running) (spares : Spares g c f) (fuel : Nat)
    (l : Option Ptr) : Kept (Fixed g c f) (reapFrom fuel l) := by
  fun_induction reapFrom fuel l with
  | case1 => exact fun _ _ => trivial
  | case2 fuel l ih₁ ih₂ =>
    intro k fixed
    refine wp_seq (wp_readLink l) ?_
    rintro (_ | z) _ ⟨found, rfl⟩
    · exact fixed
    · rw [wp_bind, wp_load]
      intro _
      rw [wp_bind, wp_get]
      refine wp_ite (fun _ => ih₁ z _ fixed) fun detached => ?_
      have dead : (f z).state = .dead := fixed.2 ▸ (fixed.1.listed l z found.symm).2
      have orphan : (f z).parent = none := fixed.2 ▸ not_not.mp (not_or.mp detached).2
      have free : Kept (Fixed g c f) (taskFree z) := fun k fixed =>
        wp_imp (taskFree_fixed fixed dead (spares z dead (.inl orphan)) runs) fun _ _ after => after.1
      exact (kept_unlinkZombie.bind fun _ => free.bind fun _ => ih₂) _ fixed

/-! ## Calls -/

/-- What a round of a wait has done when it reports `r`. A child it reports was a dead task of the
caller; this task is freed, and the records of all tasks are as they were. -/
def Waited (pid : Word32) (k : Kernel) (r : WaitResult) (k' : Kernel) : Prop :=
  match r with
  | .reaped z childPid status => (k.task z).state = .dead ∧ (k.task z).parent = k.currentTask ∧
      matchesPid pid (k.task z) = true ∧ childPid = (k.task z).pid ∧
      status = waitStatus (k.task z).exitCode ∧
      k'.view.task = k.view.task ∧ k'.live = Function.update k.live z false
  | .blocked => True
  | _ => k'.view = k.view

theorem waitRound_runs (h : Held g c k.view) (runs : (k.view.task c).state = .running)
    (user : (k.view.task c).userMode = true) (spares : Spares g c k.view.task) (pid options : Word32) :
    wp (waitRound pid options) (fun r k' => Runs g k'.view ∧ Waited pid k r k') stops k := by
  have resumes : Unseen (edit c fun t => { t with resume := .user }) :=
    unseen_edit (by simp [Task.seen]) c
  have same : ∀ k' : Kernel, k'.view = k.view → Runs g k'.view := fun k' same =>
    same ▸ ⟨g.own, c, h, runs⟩
  unfold waitRound
  rw [wp_current h.cur]
  unfold takeZombie
  rw [wp_bind, wp_bind, wp_get]
  refine wp_imp (takeZombieFrom_held _ _ _ _ h) ?_
  rintro (_ | z) k₁ taken
  · obtain rfl := taken
    have child : Unseen (taskHasChild (some c) pid) :=
      unseen_get.bind fun k => unseen_hasChildFrom _ _ _ _
    refine wp_seq (child _) fun b k₂ same₂ => ?_
    refine wp_ite (fun _ => wp_ite (fun _ => ⟨same k₂ same₂, same₂⟩) fun _ => ?_) fun _ => ?_
    · rw [wp_bind, wp_edit]
      intro _
      have h₂ : Held g c k₂.view := same₂ ▸ h
      refine wp_seq (schedule_runs (c := c) ?_) fun _ _ after => ⟨after, trivial⟩
      rw [view_edit]
      exact And.left (h₂.edit ⟨rfl, rfl, rfl⟩ (.inr ⟨by simp [same₂, runs],
        fun idle => absurd idle (h₂.not_idle (same₂ ▸ user)), by simp [Task.seen]⟩))
    · exact wp_seq (resumes k₂) fun _ k₃ same₃ => ⟨same k₃ (same₃.trans same₂), same₃.trans same₂⟩
  · obtain ⟨⟨h₁, live, task⟩, dead, mine⟩ := taken
    have cur : k.currentTask = some c := h.cur
    rw [wp_bind, wp_load]
    intro _
    refine wp_seq (taskFree_fixed ⟨h₁, task⟩ dead (spares z dead (.inr mine.1)) runs) ?_
    rintro _ k₂ ⟨fixed, freed⟩
    refine wp_seq (resumes k₂) fun _ k₃ same₃ => ?_
    have record : k₁.view.task z = k.view.task z := congrFun task z
    refine ⟨same₃ ▸ ⟨g.own, c, fixed.1, fixed.2 ▸ runs⟩, dead, mine.1.trans cur.symm, mine.2,
      (congrArg Task.pid record :), (congrArg (fun t => waitStatus t.exitCode) record :),
      same₃ ▸ fixed.2, ?_⟩
    rw [live] at freed
    exact (congrArg View.live same₃).trans freed

theorem idleRound_runs (h : Held g c k.view) (runs : (k.view.task c).state = .running)
    (spares : Spares g c k.view.task) : wp idleRound (fun _ k' => Runs g k'.view) stops k := by
  unfold idleRound taskReapDetachedZombies
  rw [wp_bind, wp_bind, wp_get]
  exact wp_imp (kept_reapFrom runs spares _ none k ⟨h, rfl⟩) fun _ _ fixed => schedule_runs fixed.1

theorem taskExit_runs (h : Held g c k.view) (user : (k.view.task c).userMode = true)
    (spared : g.initStays → k.initTask ≠ some c) (code : Word32) :
    wp (taskExit code) (fun _ k' => Runs g k'.view) stops k := by
  unfold taskExit
  rw [wp_current h.cur, wp_bind, wp_edit]
  intro _
  refine schedule_runs (c := c) ?_
  rw [view_edit]
  exact And.left (h.edit ⟨rfl, rfl, rfl⟩ (.inr ⟨fun _ => rfl,
    fun idle => absurd idle (h.not_idle user), fun stays init => absurd init (spared stays)⟩))

end LithiumKernel.Sched
