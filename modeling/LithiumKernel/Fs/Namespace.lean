import LithiumKernel.Fs.Calls

/-!
# Names and working directories

Over any run of the system the vnodes are a tree, names never change, and `vfs_lookup`
agrees with the names; every task's working directory is a canonical path to a directory.
Only `creat` and the kernel's own calls change the tree, and only `chdir` a working
directory: the other calls keep both (`held`).
-/
namespace LithiumKernel.Fs

open LithiumKernel.Lib

variable {φ : Type} {ops : FileOps φ}

/-! ## What the calls leave alone -/

/-- The tree and the working directory. -/
def held (k : Calling φ) : (Nat → Vnode) × Nat × Nat × List Byte :=
  (k.vfs.node, k.vfs.count, k.vfs.root, k.self.cwd)

theorem keeps_findChild (name : CString) (fuel : Nat) :
    ∀ h, Keeps id (findChild name fuel h : VfsM φ (Option Nat)) := by
  induction fuel with
  | zero =>
    rintro (_ | c)
    · exact .pure _
    · exact .throw _
  | succ fuel ih =>
    rintro (_ | c)
    · exact .pure _
    · exact Keeps.get.bind fun v => .ite (.pure _) (ih _)

theorem keeps_lookupFrom (fuel : Nat) :
    ∀ n tok, Keeps id (lookupFrom fuel n tok : VfsM φ (Option Nat)) := by
  induction fuel with
  | zero => exact fun _ _ => .throw _
  | succ fuel ih =>
    intro n tok
    unfold lookupFrom
    refine .ite (.pure _) (Keeps.get.bind fun v => (keeps_findChild _ _ _).bind fun child => ?_)
    cases child with
    | none => exact .pure _
    | some c =>
      cases tok.dropWhile (· ≠ slash) with
      | nil => exact .pure _
      | cons _ rest => exact ih c rest

theorem keeps_vfsLookup (path : CString) : Keeps id (vfsLookup path : VfsM φ (Option Nat)) := by
  unfold vfsLookup
  exact .ite (.pure _) (Keeps.get.bind fun v =>
    .ite (.pure _) (.ite (.throw _) (keeps_lookupFrom _ _ _)))

theorem keeps_onVfs {α : Type} {m : VfsM φ α} (keeps : Keeps (fun v => (v.node, v.count, v.root)) m) :
    Keeps held (onVfs m) := by
  intro k
  rw [wp_onVfs]
  refine wp_imp (keeps k.vfs) ?_
  intro _ v same
  obtain ⟨node, rest⟩ := Prod.mk.inj same
  obtain ⟨count, root⟩ := Prod.mk.inj rest
  rw [held, node, count, root, held]

theorem keeps_lookup (path : CString) : Keeps held (onVfs (vfsLookup path : VfsM φ (Option Nat))) := by
  refine keeps_onVfs fun v => wp_imp (keeps_vfsLookup path v) ?_
  intro _ v' same
  rw [show v' = v from same]

theorem keeps_onFile (n : Nat) (f : φ → Except VfsHalt (Option Nat × φ)) :
    Keeps held (onVfs (onFile n f)) := by
  refine keeps_onVfs fun v => ?_
  unfold onFile
  rw [wp_bind, wp_get]
  cases f (v.file n) with
  | error e => trivial
  | ok r => exact rfl

theorem keeps_setFile (fd : Nat) (f : File) : Keeps held (setFile fd f : CallM φ Unit) := fun _ => rfl

theorem keeps_vfsOpenIn (path : CString) : Keeps held (vfsOpenIn path : CallM φ Int) := by
  refine (keeps_lookup path).bind fun n => ?_
  cases n with
  | none => exact .pure _
  | some n =>
    refine Keeps.get.bind fun k => ?_
    dsimp only
    cases ((List.range vfsMaxFds).drop 3).find? fun i => ¬ (k.self.files i).valid with
    | none => exact .pure _
    | some i => exact (keeps_setFile _ _).bind fun _ => .pure _

theorem keeps_vfsReadIn (fd : Int) (count : Nat) : Keeps held (vfsReadIn ops fd count) := by
  refine Keeps.get.bind fun k => ?_
  cases k.self.opened fd with
  | none => exact .pure _
  | some f =>
    dsimp only
    cases (k.vfs.node f.vnode).ops with
    | tmpfsFile =>
      dsimp only
      cases ops.read (k.vfs.file f.vnode) count f.offset with
      | error e => exact .throw _
      | ok bytes => exact (keeps_setFile _ _).bind fun _ => .pure _
    | devNull => exact .pure _
    | tmpfsDir => exact .pure _
    | devTty => exact .pure _

theorem keeps_vfsWriteIn (mem : Alloc) (fd : Int) (buf : List Byte) :
    Keeps held (vfsWriteIn ops mem fd buf) := by
  refine Keeps.get.bind fun k => ?_
  cases k.self.opened fd with
  | none => exact .pure _
  | some f =>
    dsimp only
    cases (k.vfs.node f.vnode).ops with
    | tmpfsFile =>
      refine (keeps_onFile _ _).bind fun r => ?_
      cases r with
      | none => exact .pure _
      | some n => exact (keeps_setFile _ _).bind fun _ => .pure _
    | devNull => exact (keeps_setFile _ _).bind fun _ => .pure _
    | tmpfsDir => exact .pure _
    | devTty => exact .pure _

theorem keeps_userPath (user : Nat → Option Byte) :
    Keeps held (userPath user : CallM φ (Except Int CString)) := by
  unfold userPath
  cases copyUserString user vfsMaxPath with
  | error rc => exact .pure _
  | ok raw =>
    refine Keeps.get.bind fun k => ?_
    cases resolvePath (cstr k.self.cwd) raw with
    | none => exact .pure _
    | some path => exact .pure _

theorem keeps_sysOpen (user : Nat → Option Byte) : Keeps held (sysOpen user : CallM φ Int) := by
  refine (keeps_userPath user).bind fun r => ?_
  cases r with
  | error rc => exact .pure _
  | ok path => exact keeps_vfsOpenIn path

theorem keeps_sysClose (fd : Int) : Keeps held (sysClose fd : CallM φ Int) := by
  refine Keeps.get.bind fun k => ?_
  cases k.self.opened fd with
  | none => exact .pure _
  | some f => exact (keeps_setFile _ _).bind fun _ => .pure _

theorem keeps_sysDup2 (oldfd newfd : Int) : Keeps held (sysDup2 oldfd newfd : CallM φ Int) := by
  refine Keeps.get.bind fun k => ?_
  cases k.self.opened oldfd with
  | none => exact .pure _
  | some f =>
    exact .ite (.pure _) (.ite (.pure _) ((keeps_setFile _ _).bind fun _ => .pure _))

theorem keeps_sysReadFrom (fd : Int) (writable : Nat → Bool) (count : Nat) (fuel : Nat) :
    ∀ done bytes, Keeps held (sysReadFrom ops fd writable count fuel done bytes) := by
  induction fuel with
  | zero => exact fun _ _ => .pure _
  | succ fuel ih =>
    intro done bytes
    unfold sysReadFrom
    refine .ite (.pure _) ((keeps_vfsReadIn fd _).bind fun r => ?_)
    cases r with
    | none => exact .pure _
    | some chunk => exact .ite (.pure _) (.ite (.pure _) (.ite (.pure _) (ih _ _)))

theorem keeps_sysRead (fd : Int) (writable : Nat → Bool) (count : Nat) :
    Keeps held (sysRead ops fd writable count) :=
  Keeps.get.bind fun _ => .ite (.pure _) ((keeps_sysReadFrom _ _ _ _ _ _).bind fun _ => .pure _)

theorem keeps_sysWriteFrom (mem : Nat → Alloc) (fd : Int) (user : Nat → Option Byte) (count : Nat)
    (fuel : Nat) : ∀ done, Keeps held (sysWriteFrom ops mem fd user count fuel done) := by
  induction fuel with
  | zero => exact fun _ => .pure _
  | succ fuel ih =>
    intro done
    unfold sysWriteFrom
    refine .ite (.pure _) ?_
    dsimp only
    cases copyFromUser user done (min chunkSize (count - done)) with
    | none => exact .pure _
    | some chunk =>
      refine Keeps.get.bind fun k => .ite (ih _) ((keeps_vfsWriteIn _ _ _).bind fun r => ?_)
      cases r with
      | none => exact .pure _
      | some written => exact .ite (.pure _) (ih _)

theorem keeps_vfsReadAll (mem : Alloc) (path : CString) :
    Keeps held (onVfs (vfsReadAll ops mem path)) := by
  have all : Keeps id (vfsReadAll ops mem path) := by
    refine (keeps_vfsLookup path).bind fun n => ?_
    cases n with
    | none => exact .pure _
    | some n =>
      refine Keeps.get.bind fun v => .ite (.pure _) (.ite (.pure _) ?_)
      cases ops.read (v.file n) (ops.size (v.file n)) 0 with
      | error e => exact .throw _
      | ok bytes => exact .ite (.pure _) (.pure _)
  refine keeps_onVfs fun v => wp_imp (all v) ?_
  intro _ v' same
  rw [show v' = v from same]

theorem keeps_sysExecveImage (mem : Alloc) (user : Nat → Option Byte) :
    Keeps held (sysExecveImage ops mem user) := by
  refine (keeps_userPath user).bind fun r => ?_
  cases r with
  | error rc => exact .pure _
  | ok path =>
    refine (keeps_vfsReadAll mem path).bind fun image => ?_
    cases image with
    | none => exact .pure _
    | some image => exact .pure _

/-! ## Paths from user memory -/

theorem copyUserStringFrom_clean {user : Nat → Option Byte} {s : CString} : ∀ {n i : Nat}
    {done : CString}, 0#8 ∉ done → copyUserStringFrom user n i done = .ok s → 0#8 ∉ s := by
  intro n
  induction n with
  | zero =>
    intro i done _ copied
    cases copied
  | succ n ih =>
    intro i done clean copied
    unfold copyUserStringFrom at copied
    split at copied
    · cases copied
    · rename_i b _
      split at copied
      · obtain rfl := Except.ok.inj copied
        exact clean
      · rename_i ne
        refine ih ?_ copied
        intro member
        rcases List.mem_append.mp member with old | new
        · exact clean old
        · exact ne (List.mem_singleton.mp new).symm

theorem copyUserStringFrom_negative {user : Nat → Option Byte} {rc : Int} : ∀ {n i : Nat}
    {done : CString}, copyUserStringFrom user n i done = .error rc → rc < 0 := by
  intro n
  induction n with
  | zero =>
    intro i done failed
    obtain rfl := Except.error.inj failed
    decide
  | succ n ih =>
    intro i done failed
    unfold copyUserStringFrom at failed
    split at failed
    · obtain rfl := Except.error.inj failed
      decide
    · split at failed
      · cases failed
      · exact ih failed

theorem userPath_spec (user : Nat → Option Byte) (k : Calling φ) {halt : VfsHalt → Calling φ → Prop} :
    wp (userPath user) (fun r k' => k' = k ∧ (∀ rc, r = .error rc → rc < 0) ∧
      ∀ path, r = .ok path → Canonical path) halt k := by
  unfold userPath
  cases copied : copyUserString user vfsMaxPath with
  | error rc =>
    refine ⟨rfl, ?_, by simp⟩
    intro rc' same
    obtain rfl := Except.error.inj same
    exact copyUserStringFrom_negative copied
  | ok raw =>
    have clean : 0#8 ∉ raw := copyUserStringFrom_clean (by simp) copied
    dsimp only
    rw [wp_bind, wp_get]
    cases resolved : resolvePath (cstr k.self.cwd) raw with
    | none =>
      refine ⟨rfl, ?_, by simp⟩
      intro rc same
      obtain rfl := Except.error.inj same
      decide
    | some path =>
      refine ⟨rfl, by simp, ?_⟩
      intro path' same
      obtain rfl := Except.ok.inj same
      exact resolvePath_canonical (zero_not_mem_cstr _) clean resolved

/-! ## Working directories -/

/-- A terminated, canonical path to a directory. -/
structure CwdOk (v : Vfs φ) (cwd : List Byte) : Prop where
  size : cwd.length = vfsMaxPath
  terminated : Terminated cwd
  canonical : Canonical (cstr cwd)
  dir : ∃ n, vfsLookup (cstr cwd) v = .ok (some n) v ∧ (v.node n).type = .dir

variable {v v' : Vfs φ} {kids : Nat → List Nat}

theorem Spells.extends {n : Nat} {names : List CString} (spells : Spells v n names)
    (ext : Extends v v') : Spells v' n names := by
  induction spells with
  | root =>
    rw [← ext.root]
    exact .root
  | child _ lt parent ih =>
    rw [← ext.nameOf lt]
    exact .child ih (lt_of_lt_of_le lt ext.count) ((ext.parent _ lt).trans parent)

/-- A directory stays where it is. -/
theorem CwdOk.kept {cwd : List Byte} (inv : TreeInv v kids) (ok : CwdOk v cwd) (kept : Kept v v') :
    CwdOk v' cwd := by
  refine ⟨ok.size, ok.terminated, ok.canonical, ?_⟩
  obtain ⟨n, found, dir⟩ := ok.dir
  obtain ⟨short, names, components, spelled⟩ := ok.canonical
  obtain ⟨⟨kids', inv'⟩, ext⟩ := kept
  rw [spelled] at short found ⊢
  rw [inv.vfsLookup_eq components short] at found
  have here : v.descend kids v.root names = some n := by
    injection found
  have lt := inv.descend_lt here
  have there := inv'.descend_iff.mpr ((inv.descend_iff.mp here).extends ext)
  refine ⟨n, ?_, (ext.type n lt).trans dir⟩
  rw [inv'.vfsLookup_eq components short, there]

theorem CwdOk.same {cwd : List Byte} (inv : TreeInv v kids) (ok : CwdOk v cwd) (same : SameTree v v') :
    CwdOk v' cwd := ok.kept inv ⟨⟨kids, inv.same same⟩, same.extends⟩

theorem blank_room : vfsMaxPath - 1 < (List.replicate vfsMaxPath 0#8).length := by
  rw [List.length_replicate]
  decide

/-- The copy for a forked task. -/
theorem CwdOk.forked {self : FsTask} (ok : CwdOk v self.cwd) : CwdOk v self.forked.cwd := by
  have short := ok.canonical.short
  have copy := @cstr_strncpy (List.replicate vfsMaxPath 0#8) (cstr self.cwd) (vfsMaxPath - 1)
    (zero_not_mem_cstr _) (by omega) (fun _ => rfl)
  refine ⟨?_, copy.2, ?_, ?_⟩
  · exact (strncpy_length blank_room).trans List.length_replicate
  · exact copy.1.symm ▸ ok.canonical
  · exact copy.1.symm ▸ ok.dir

theorem newTask_cwd (inv : TreeInv v kids) : CwdOk v newTask.cwd := by
  have copy := @cstr_strncpy (List.replicate vfsMaxPath 0#8) [slash] (vfsMaxPath - 1) (by decide)
    (by decide) (fun _ => rfl)
  have root : cstr newTask.cwd = render [] := copy.1
  refine ⟨?_, copy.2, ?_, ?_⟩
  · exact (strncpy_length blank_room).trans List.length_replicate
  · rw [root]
    exact ⟨by decide, [], by simp, rfl⟩
  · rw [root]
    exact ⟨v.root, inv.vfsLookup_eq (by simp) (by decide), inv.root.2.2⟩

/-! ## The calls keep names and directories -/

section Calls

variable {k : Calling φ} (inv : TreeInv k.vfs kids) (cwd : CwdOk k.vfs k.self.cwd)

/-- What every call leaves. -/
def CallKept (k k' : Calling φ) : Prop := Kept k.vfs k'.vfs ∧ CwdOk k'.vfs k'.self.cwd

include inv cwd

theorem callKept_of_held {k' : Calling φ} (same : held k' = held k) : CallKept k k' := by
  obtain ⟨node, rest⟩ := Prod.mk.inj same
  obtain ⟨count, rest⟩ := Prod.mk.inj rest
  obtain ⟨root, path⟩ := Prod.mk.inj rest
  have tree : SameTree k.vfs k'.vfs := ⟨node, count, root⟩
  refine ⟨⟨⟨kids, inv.same tree⟩, tree.extends⟩, ?_⟩
  rw [path]
  exact cwd.same inv tree

theorem keeps_call {α : Type} {m : CallM φ α} (keeps : Keeps held m) (f : α → FsResult) :
    wp (m >>= fun a => pure (f a)) (fun _ k' => CallKept k k') (fun _ _ => True) k := by
  refine wp_seq (keeps k) ?_
  intro _ k' same
  exact callKept_of_held inv cwd same

theorem sysCreat_kept (safe : ops.Safe) (mem : Alloc) (user : Nat → Option Byte) :
    wp (sysCreat ops mem user) (fun _ k' => CallKept k k') (fun _ _ => True) k := by
  unfold sysCreat
  refine wp_seq (userPath_spec user k) ?_
  rintro r _ ⟨same, _, canonical⟩
  rw [same]
  cases r with
  | error rc => exact callKept_of_held inv cwd rfl
  | ok path =>
    dsimp only
    rw [wp_bind, wp_onVfs]
    refine wp_imp (inv.createFile (canonical path rfl) safe) ?_
    intro r v' kept
    have here : CallKept k { k with vfs := v' } := ⟨kept, cwd.kept inv kept⟩
    obtain ⟨⟨kids', inv'⟩, _⟩ := kept
    apply wp_ite
    · exact fun _ => here
    · intro _
      refine wp_imp (keeps_vfsOpenIn path { k with vfs := v' }) ?_
      intro _ k' same
      have after := callKept_of_held inv' here.2 same
      exact ⟨here.1.trans after.1, after.2⟩

/-- `chdir` either fails and changes nothing, or leaves a path to a directory. -/
theorem sysChdir_spec (user : Nat → Option Byte) {halt : VfsHalt → Calling φ → Prop} :
    wp (sysChdir user) (fun r k' => (r < 0 ∧ k' = k) ∨
      (r = 0 ∧ k'.vfs = k.vfs ∧ CwdOk k'.vfs k'.self.cwd)) halt k := by
  unfold sysChdir
  refine wp_seq (userPath_spec user k) ?_
  rintro r _ ⟨same, negative, canonical⟩
  rw [same]
  cases r with
  | error rc => exact .inl ⟨negative rc rfl, rfl⟩
  | ok path =>
    have ok := canonical path rfl
    obtain ⟨short, names, components, spelled⟩ := canonical path rfl
    have lookup := inv.vfsLookup_eq components (spelled ▸ short)
    dsimp only
    rw [wp_bind, wp_onVfs, spelled, wp_run lookup]
    cases found : k.vfs.descend kids k.vfs.root names with
    | none => exact .inl ⟨by decide, rfl⟩
    | some n =>
      dsimp only
      rw [wp_bind, wp_get]
      apply wp_ite
      · exact fun _ => .inl ⟨by decide, rfl⟩
      · intro dir
        rw [found] at lookup
        rw [← spelled] at lookup ⊢
        have size := cwd.size
        have room : vfsMaxPath - 1 < k.self.cwd.length := by
          rw [size]
          decide
        have copy := @cstr_strncpy_set k.self.cwd path (vfsMaxPath - 1) ok.noNul (by omega) room
        refine .inr ⟨rfl, rfl, ?_, copy.2, ?_, ?_⟩
        · change (List.set _ _ _).length = _
          rw [List.length_set, strncpy_length room, size]
        · exact copy.1.symm ▸ ok
        · exact ⟨n, copy.1.symm ▸ lookup, by simpa using dir⟩

theorem fsCall_kept (safe : ops.Safe) (c : FsCall) :
    wp (fsCall ops c) (fun _ k' => CallKept k k') (fun _ _ => True) k := by
  cases c with
  | open_ user => exact keeps_call inv cwd (keeps_sysOpen user) _
  | creat mem user =>
    refine wp_seq (sysCreat_kept inv cwd safe mem user) ?_
    exact fun _ _ kept => kept
  | chdir user =>
    refine wp_seq (sysChdir_spec inv cwd user) ?_
    rintro _ k' (⟨_, same⟩ | ⟨_, same, ok⟩)
    · exact callKept_of_held inv cwd (congrArg held same)
    · refine ⟨?_, ok⟩
      rw [same]
      exact inv.kept
  | close fd => exact keeps_call inv cwd (keeps_sysClose fd) _
  | dup2 oldfd newfd => exact keeps_call inv cwd (keeps_sysDup2 oldfd newfd) _
  | read fd writable count =>
    refine wp_seq (keeps_sysRead fd writable count k) ?_
    intro r k' same
    cases r <;> exact callKept_of_held inv cwd same
  | write mem fd user count => exact keeps_call inv cwd (keeps_sysWriteFrom mem fd user count _ _) _
  | execve mem user =>
    refine wp_seq (keeps_sysExecveImage mem user k) ?_
    intro r k' same
    cases r <;> exact callKept_of_held inv cwd same

end Calls

/-! ## Runs -/

variable {sys sys' : FsSystem φ}

structure FsInv (sys : FsSystem φ) : Prop where
  tree : ∃ kids, TreeInv sys.vfs kids
  cwd : ∀ t self, sys.task t = some self → CwdOk sys.vfs self.cwd

theorem wp_kernelCall (m : VfsM φ Int) (post : FsResult → FsSystem φ → Prop)
    (halt : VfsHalt → FsSystem φ → Prop) :
    wp (kernelCall m) post halt sys ↔
      wp m (fun r v => post (.int r) { sys with vfs := v }) (fun e v => halt e { sys with vfs := v })
        sys.vfs := by
  unfold wp kernelCall
  cases m sys.vfs <;> rfl

theorem wp_taskCall {t : Nat} {self : FsTask} (here : sys.task t = some self)
    (m : CallM φ FsResult) (post : FsResult → FsSystem φ → Prop)
    (halt : VfsHalt → FsSystem φ → Prop) :
    wp (taskCall t m) post halt sys ↔
      wp m (fun r k => post r ⟨k.vfs, Function.update sys.task t (some k.self)⟩)
        (fun e k => halt e ⟨k.vfs, Function.update sys.task t (some k.self)⟩) ⟨sys.vfs, self⟩ := by
  unfold wp taskCall
  rw [here]
  dsimp only
  cases m ⟨sys.vfs, self⟩ <;> rfl

namespace FsInv

/-- The tree has grown and one task has a new working directory. -/
theorem update {kids : Nat → List Nat} (inv : FsInv sys) (tree : TreeInv sys.vfs kids) {v : Vfs φ}
    (kept : Kept sys.vfs v) (t : Nat) (new : Option FsTask)
    (ok : ∀ self, new = some self → CwdOk v self.cwd) :
    FsInv ⟨v, Function.update sys.task t new⟩ := by
  refine ⟨kept.1, ?_⟩
  intro u self here
  by_cases same : u = t
  · subst same
    exact ok self (by simpa using here)
  · have old : sys.task u = some self := by
      simpa [Function.update_of_ne same] using here
    exact (inv.cwd u self old).kept tree kept

theorem kernel (inv : FsInv sys) {kids : Nat → List Nat} (tree : TreeInv sys.vfs kids) {v : Vfs φ}
    (kept : Kept sys.vfs v) : FsInv { sys with vfs := v } :=
  ⟨kept.1, fun t self here => (inv.cwd t self here).kept tree kept⟩

theorem exec (inv : FsInv sys) (safe : ops.Safe) {op : FsOp} (allowed : FsAllowed sys op) :
    wp (fsExec ops op) (fun _ sys' => FsInv sys' ∧ Extends sys.vfs sys'.vfs) (fun _ _ => True) sys := by
  obtain ⟨kids, tree⟩ := inv.tree
  cases op with
  | mkdir mem path =>
    rw [fsExec, wp_kernelCall]
    refine wp_imp (tree.mkdir allowed) ?_
    exact fun _ v kept => ⟨inv.kernel tree kept, kept.2⟩
  | createFile mem path data size =>
    rw [fsExec, wp_kernelCall]
    refine wp_imp (tree.createFile allowed.1 safe) ?_
    exact fun _ v kept => ⟨inv.kernel tree kept, kept.2⟩
  | call t c =>
    obtain ⟨self, here⟩ := Option.isSome_iff_exists.mp allowed
    rw [fsExec, wp_taskCall here]
    refine wp_imp (fsCall_kept tree (inv.cwd t self here) safe c) ?_
    rintro _ k ⟨kept, ok⟩
    refine ⟨inv.update tree kept t (some k.self) ?_, kept.2⟩
    intro self' same
    obtain rfl := Option.some.inj same
    exact ok
  | fork t child =>
    obtain ⟨self, here⟩ := Option.isSome_iff_exists.mp allowed.1
    refine ⟨inv.update tree tree.kept child _ ?_, Extends.refl _⟩
    intro self' same
    rw [here] at same
    obtain rfl := Option.some.inj same
    exact (inv.cwd t self here).forked
  | exit t =>
    refine ⟨inv.update tree tree.kept t none ?_, Extends.refl _⟩
    intro self' same
    cases same

theorem step (inv : FsInv sys) (safe : ops.Safe) {l : FsOp × FsResult} (step : FsStep ops sys l sys') :
    FsInv sys' ∧ Extends sys.vfs sys'.vfs := by
  have all := wp_ok (inv.exec safe step.allowed) step.ran
  exact all

end FsInv

theorem FsBoot.inv (safe : ops.Safe) (boot : FsBoot ops sys) : FsInv sys := by
  obtain ⟨mem, motd, init⟩ := boot.init
  obtain ⟨kids, tree⟩ := wp_ok (vfsInit_tree safe motd) init
  refine ⟨⟨kids, tree⟩, ?_⟩
  intro t self here
  rw [boot.tasks t self here]
  exact newTask_cwd tree

theorem FsBoot.run (safe : ops.Safe) {labels : List (FsOp × FsResult)} (boot : FsBoot ops sys)
    (run : Run (FsStep ops) sys labels sys') : FsInv sys' :=
  run.invariant FsInv (boot.inv safe) fun _ _ _ inv step => (inv.step safe step).1

theorem FsInv.run_extends (safe : ops.Safe) {labels : List (FsOp × FsResult)} (inv : FsInv sys)
    (run : Run (FsStep ops) sys labels sys') : Extends sys.vfs sys'.vfs := by
  have both : FsInv sys' ∧ Extends sys.vfs sys'.vfs := by
    refine run.invariant (fun s => FsInv s ∧ Extends sys.vfs s.vfs) ⟨inv, Extends.refl _⟩ ?_
    rintro s l s' ⟨before, ext⟩ step
    obtain ⟨after, ext'⟩ := before.step safe step
    exact ⟨after, ext.trans ext'⟩
  exact both.2

theorem tmpfsFileOps_safe : tmpfsFileOps.Safe := by
  intro mem file buf off
  change ∃ r, tmpfsWrite mem file buf off = .ok r
  unfold tmpfsWrite
  split
  · exact ⟨_, rfl⟩
  · split
    · exact ⟨_, rfl⟩
    · rename_i tf _ tf' grown
      have room : off + buf.length ≤ tf'.cap := by
        unfold tmpfsGrow at grown
        split at grown
        · rename_i fits
          obtain rfl := Option.some.inj grown
          exact fits
        · split at grown
          · cases grown
          · obtain rfl := Option.some.inj grown
            dsimp only
            omega
      rw [if_neg (by omega)]
      exact ⟨_, rfl⟩

/-- The vnodes are a tree with names, and `vfs_lookup` agrees with it. -/
structure VfsTree (v : Vfs φ) : Prop where
  root : v.root < v.count ∧ (v.node v.root).parent = none ∧ (v.node v.root).type = .dir
  reached : ∀ n < v.count, ∃ names, Spells v n names
  children : ∀ n < v.count, ∃ kids, Links (fun c => (v.node c).nextSib) (v.node n).children kids ∧
    kids.Nodup ∧ ∀ c, c ∈ kids ↔ c < v.count ∧ (v.node c).parent = some n
  dirs : ∀ c < v.count, ∀ p, (v.node c).parent = some p → p < v.count ∧ (v.node p).type = .dir
  siblings : ∀ c < v.count, ∀ d < v.count, (v.node c).parent = (v.node d).parent →
    v.nameOf c = v.nameOf d → c = d
  names : ∀ c < v.count, c ≠ v.root → Component (v.nameOf c) ∧ (v.nameOf c).length ≤ 63
  lookup : ∀ names, (∀ c ∈ names, Component c) → (render names).length < vfsMaxPath →
    ∃ r, vfsLookup (render names) v = .ok r v ∧ ∀ n, r = some n ↔ Spells v n names

theorem TreeInv.reached (inv : TreeInv v kids) : ∀ n < v.count, ∃ names, Spells v n names := by
  intro n
  induction n using Nat.strong_induction_on with
  | _ n ih =>
    intro lt
    by_cases isRoot : n = v.root
    · exact ⟨[], isRoot ▸ .root⟩
    · obtain ⟨p, older, parent, _⟩ := inv.parent n lt isRoot
      obtain ⟨names, spells⟩ := ih p older (by omega)
      exact ⟨_, .child spells lt parent⟩

theorem TreeInv.vfsTree (inv : TreeInv v kids) : VfsTree v where
  root := inv.root
  reached := inv.reached
  children n lt := ⟨kids n, inv.links n lt, inv.nodup n lt, inv.kid n lt⟩
  dirs := by
    intro c lt p parent
    have notRoot : c ≠ v.root := by
      rintro rfl
      rw [inv.root.2.1] at parent
      cases parent
    obtain ⟨q, older, same, dir⟩ := inv.parent c lt notRoot
    obtain rfl := Option.some.inj (same.symm.trans parent)
    exact ⟨by omega, dir⟩
  siblings := inv.distinct
  names := by
    intro c lt notRoot
    obtain ⟨component, short⟩ := inv.named c lt notRoot
    exact ⟨component, Nat.le_of_lt_succ short⟩
  lookup := by
    intro names components short
    exact ⟨_, inv.vfsLookup_eq components short, fun n => inv.descend_iff⟩

/-- **VFS tree.** After any run from the state `vfs_init` leaves the vnodes are a tree with
names, `vfs_lookup` follows the names, and nothing that happens later moves, renames or
retypes a node. -/
theorem vfs_tree_invariant {sys₀ sys : FsSystem TmpfsData} {labels : List (FsOp × FsResult)}
    (boot : FsBoot tmpfsFileOps sys₀) (run : Run (FsStep tmpfsFileOps) sys₀ labels sys) :
    VfsTree sys.vfs ∧
      ∀ labels' sys', Run (FsStep tmpfsFileOps) sys labels' sys' → Extends sys.vfs sys'.vfs := by
  have inv := boot.run tmpfsFileOps_safe run
  obtain ⟨kids, tree⟩ := inv.tree
  exact ⟨tree.vfsTree, fun _ _ later => inv.run_extends tmpfsFileOps_safe later⟩

/-! ## A small system -/

/-- Every allocation succeeds; new memory is not clear. -/
def richAlloc : Alloc := ⟨true, true, true, some fun _ => 0xAA#8⟩

def bootVfs : Vfs TmpfsData := resultState (vfsInit tmpfsFileOps richAlloc [] (vfsEmpty tmpfsFileOps))

def bootSystem : FsSystem TmpfsData := ⟨bootVfs, fun t => if t = 1 then some newTask else none⟩

theorem bootSystem_boot : FsBoot tmpfsFileOps bootSystem where
  init := ⟨richAlloc, [], result_eq (by decide +kernel)⟩
  tasks := by
    intro t self here
    change (if t = 1 then some newTask else none) = some self at here
    split at here
    · exact (Option.some.inj here).symm
    · cases here

def FsSystem.after (ops : FileOps φ) (sys : FsSystem φ) (op : FsOp) : FsSystem φ :=
  resultState (fsExec ops op sys)

theorem FsStep.eval {op : FsOp} {r : FsResult} (allowed : FsAllowed sys op)
    (value : resultValue (fsExec ops op sys) = some r) :
    FsStep ops sys (op, r) (sys.after ops op) := ⟨allowed, result_eq value⟩

/-- A string in user memory. -/
def userText (s : List Char) : Nat → Option Byte := fun i => some ((asciiBytes s).getD i 0#8)

def binPath : CString := asciiBytes ['/', 'b', 'i', 'n']

theorem binPath_canonical : Canonical binPath :=
  ⟨by decide, [asciiBytes ['b', 'i', 'n']], by decide, by decide⟩

/-- A directory and a file in it. -/
theorem vfs_tree_invariant_bin :
    ∃ sys, Run (FsStep tmpfsFileOps) bootSystem [(.mkdir richAlloc binPath, .int 0),
        (.call 1 (.creat richAlloc (userText ['/', 'b', 'i', 'n', '/', 'a'])), .int 3)] sys ∧
      sys.vfs.count = 12 ∧ VfsTree sys.vfs := by
  have first : FsStep tmpfsFileOps bootSystem (.mkdir richAlloc binPath, .int 0) _ :=
    .eval binPath_canonical (by decide +kernel)
  have caller : ((bootSystem.after tmpfsFileOps (.mkdir richAlloc binPath)).task 1).isSome := by decide +kernel
  have second : FsStep tmpfsFileOps (bootSystem.after tmpfsFileOps (.mkdir richAlloc binPath))
      (.call 1 (.creat richAlloc (userText ['/', 'b', 'i', 'n', '/', 'a'])), .int 3) _ :=
    .eval caller (by decide +kernel)
  have run := (Run.nil.snoc first).snoc second
  exact ⟨_, run, by decide +kernel, (vfs_tree_invariant bootSystem_boot run).1⟩

/-- **Working directories.** After any run every task's working directory is a terminated
canonical path to a directory, and a `chdir` that does not return 0 leaves it as it was. -/
theorem working_directories {sys₀ sys : FsSystem TmpfsData} {labels : List (FsOp × FsResult)}
    (boot : FsBoot tmpfsFileOps sys₀) (run : Run (FsStep tmpfsFileOps) sys₀ labels sys) :
    (∀ t self, sys.task t = some self → CwdOk sys.vfs self.cwd) ∧
      ∀ t self user r sys', sys.task t = some self →
        FsStep tmpfsFileOps sys (.call t (.chdir user), r) sys' → r ≠ .int 0 →
        ∃ self', sys'.task t = some self' ∧ self'.cwd = self.cwd := by
  have inv := boot.run tmpfsFileOps_safe run
  obtain ⟨kids, tree⟩ := inv.tree
  refine ⟨inv.cwd, ?_⟩
  intro t self user r sys' here step failed
  have spec : wp (fsExec tmpfsFileOps (.call t (.chdir user))) (fun r sys' => r ≠ .int 0 →
      ∃ self', sys'.task t = some self' ∧ self'.cwd = self.cwd) (fun _ _ => True) sys := by
    rw [fsExec, wp_taskCall here]
    refine wp_seq (sysChdir_spec tree (inv.cwd t self here) user) ?_
    rintro r k (⟨_, same⟩ | ⟨zero, _⟩) ne
    · refine ⟨self, ?_, rfl⟩
      dsimp only
      rw [Function.update_self, same]
    · exact absurd (congrArg FsResult.int zero) ne
  exact wp_ok spec step.ran failed

/-- A task changes to a directory by a relative path and forks. -/
theorem working_directories_child :
    ∃ sys self, Run (FsStep tmpfsFileOps) bootSystem
        [(.call 1 (.chdir (userText ['e', 't', 'c', '/'])), .int 0), (.fork 1 2, .int 2)] sys ∧
      sys.task 2 = some self ∧ cstr self.cwd = asciiBytes ['/', 'e', 't', 'c'] ∧
      CwdOk sys.vfs self.cwd := by
  let moved := bootSystem.after tmpfsFileOps (.call 1 (.chdir (userText ['e', 't', 'c', '/'])))
  have first : FsStep tmpfsFileOps bootSystem
      (.call 1 (.chdir (userText ['e', 't', 'c', '/'])), .int 0) moved :=
    .eval (show (bootSystem.task 1).isSome from rfl) (by decide +kernel)
  have second : FsStep tmpfsFileOps moved (.fork 1 2, .int 2) _ :=
    .eval ⟨by decide +kernel, by decide +kernel⟩ rfl
  have run := (Run.nil.snoc first).snoc second
  have some_ : ((moved.after tmpfsFileOps (.fork 1 2)).task 2).isSome := by decide +kernel
  obtain ⟨self, here⟩ := Option.isSome_iff_exists.mp some_
  have path : ((moved.after tmpfsFileOps (.fork 1 2)).task 2).map (fun self => cstr self.cwd) =
      some (asciiBytes ['/', 'e', 't', 'c']) := by decide +kernel
  rw [here] at path
  exact ⟨_, self, run, here, Option.some.inj path,
    (working_directories bootSystem_boot run).1 2 self here⟩

end LithiumKernel.Fs
