import LithiumKernel.Fs.ByteFiles

/-!
# What `vfs_create_file` stores is what `vfs_read_all` returns (kernel/fs/vfs.c)

A call of `vfs_create_file` that returns 0 leaves the tree with the file in it and one stored file
changed. Reading that file gives the data back, and no other path leads to it: the only text besides
the path itself that `vfs_lookup` takes there is the path with a slash behind it.
-/
namespace LithiumKernel.Fs

open LithiumKernel.Lib

variable {φ : Type} {ops : FileOps φ} {mem : Alloc} {v v' : Vfs φ} {kids : Nat → List Nat}

/-! ## Regular files are files of tmpfs -/

def FilesOnTmpfs (v : Vfs φ) : Prop := ∀ n < v.count, (v.node n).type = .file → (v.node n).ops = .tmpfsFile

theorem FilesOnTmpfs.same (typed : FilesOnTmpfs v) (node : v'.node = v.node) (count : v'.count = v.count) :
    FilesOnTmpfs v' := by
  intro n lt isFile
  rw [count] at lt
  rw [node] at isFile ⊢
  exact typed n lt isFile

theorem FilesOnTmpfs.create (typed : FilesOnTmpfs v) (parent : Option Nat) (name : CString)
    {type : VnodeType} {table : VfsOps} (fits : type = .file → table = .tmpfsFile) :
    wp (vnodeCreate ops mem parent name type table) (fun _ v' => FilesOnTmpfs v') (fun _ _ => True) v := by
  have link : ∀ (node : Nat → Vnode) (n : Nat),
      (linkChild node parent v.count n).type = (node n).type ∧
        (linkChild node parent v.count n).ops = (node n).ops := by
    intro node n
    cases parent with
    | none => exact ⟨rfl, rfl⟩
    | some p =>
      by_cases here : n = p
      · rw [here]
        simp [linkChild]
      · simp [linkChild, Function.update_of_ne here]
  unfold vnodeCreate
  apply wp_ite
  · intro _
    rw [wp_bind, wp_get]
    change FilesOnTmpfs _
    intro n below isFile
    dsimp only at below isFile ⊢
    rw [(link _ n).1] at isFile
    rw [(link _ n).2]
    by_cases new : n = v.count
    · rw [new, Function.update_self] at isFile ⊢
      exact fits isFile
    · rw [Function.update_of_ne new] at isFile ⊢
      exact typed n (by omega) isFile
  · exact fun _ => typed

/-- The table of nodes. -/
def nodesOf (v : Vfs φ) : (Nat → Vnode) × Nat × Nat := (v.node, v.count, v.root)

theorem keeps_file (n : Nat) (f : φ → Except VfsHalt (Option Nat × φ)) : Keeps nodesOf (onFile n f) := by
  intro v
  unfold onFile
  rw [wp_bind, wp_get]
  cases f (v.file n) with
  | error e => trivial
  | ok r => exact rfl

theorem keeps_fillFile (n : Nat) (data : Option (List Byte)) (size : Nat) :
    Keeps nodesOf (fillFile ops mem n data size) := by
  refine (keeps_file n _).bind fun _ => .ite (.pure _) ?_
  cases data with
  | none => exact .pure _
  | some bytes => exact (keeps_file n _).bind fun _ => .ite (.pure _) (.pure _)

theorem FilesOnTmpfs.kept {α : Type} (typed : FilesOnTmpfs v) {m : VfsM φ α} (keeps : Keeps nodesOf m) :
    wp m (fun _ v' => FilesOnTmpfs v') (fun _ _ => True) v := by
  refine wp_imp (keeps v) ?_
  intro _ v' same
  obtain ⟨node, rest⟩ := Prod.mk.inj same
  exact typed.same node (Prod.mk.inj rest).1

theorem FilesOnTmpfs.mkdir (typed : FilesOnTmpfs v) (path : CString) :
    wp (vfsMkdir ops mem path) (fun _ v' => FilesOnTmpfs v') (fun _ _ => True) v := by
  unfold vfsMkdir
  refine wp_seq (keeps_vfsLookup path v) ?_
  intro found w same
  obtain rfl : w = v := same
  cases found with
  | some n =>
    rw [wp_bind, wp_get]
    exact wp_ite (fun _ => typed) (fun _ => typed)
  | none =>
    cases splitParentPath path with
    | none => exact typed
    | some parts =>
      refine wp_seq (keeps_vfsLookup parts.1 w) ?_
      intro parent u same
      obtain rfl : u = w := same
      cases parent with
      | none => exact typed
      | some p =>
        rw [wp_bind, wp_get]
        refine wp_ite (fun _ => typed) fun _ => wp_seq (typed.create _ _ nofun) ?_
        intro made _ typed'
        cases made <;> exact typed'

theorem FilesOnTmpfs.createFile (typed : FilesOnTmpfs v) (path : CString) (data : Option (List Byte))
    (size : Nat) :
    wp (vfsCreateFile ops mem path data size) (fun _ v' => FilesOnTmpfs v') (fun _ _ => True) v := by
  unfold vfsCreateFile
  cases splitParentPath path with
  | none => exact typed
  | some parts =>
    refine wp_seq (keeps_vfsLookup parts.1 v) ?_
    intro parent w same
    obtain rfl : w = v := same
    cases parent with
    | none => exact typed
    | some p =>
      rw [wp_bind, wp_get]
      refine wp_ite (fun _ => typed) fun _ => wp_seq (keeps_vfsLookup path w) ?_
      intro found u same
      obtain rfl : u = w := same
      cases found with
      | some n =>
        rw [wp_bind, wp_get]
        exact wp_ite (fun _ => typed) (fun _ => typed.kept (keeps_fillFile n data size))
      | none =>
        refine wp_seq (typed.create _ _ fun _ => rfl) ?_
        intro made _ typed'
        cases made with
        | none => exact typed'
        | some n => exact typed'.kept (keeps_fillFile n data size)

theorem FilesOnTmpfs.initFile (typed : FilesOnTmpfs v) (parent : Option Nat) (name : List Char)
    (text : List Byte) :
    wp (initFile ops mem parent name text) (fun _ v' => FilesOnTmpfs v') (fun _ _ => True) v := by
  unfold Fs.initFile
  refine wp_seq (typed.create _ _ fun _ => rfl) ?_
  intro made w typed'
  cases made with
  | none => trivial
  | some n => exact typed'.kept ((keeps_file n _).bind fun _ => .pure _)

theorem vfsInit_typed (motd : List Byte) :
    wp (vfsInit ops mem motd) (fun _ v' => FilesOnTmpfs v') (fun _ _ => True) (vfsEmpty ops) := by
  have start : FilesOnTmpfs (vfsEmpty ops) := fun _ _ => nofun
  unfold vfsInit
  rw [wp_bind, wp_get]
  refine wp_seq (start.create _ _ nofun) fun dev _ t₁ => ?_
  refine wp_seq (t₁.create _ _ nofun) fun _ _ t₂ => ?_
  refine wp_seq (t₂.create _ _ nofun) fun _ _ t₃ => ?_
  refine wp_seq (t₃.create _ _ nofun) fun _ _ t₄ => ?_
  refine wp_seq (t₄.create _ _ nofun) fun etc _ t₅ => ?_
  refine wp_seq (t₅.initFile _ _ _) fun _ _ t₆ => ?_
  refine wp_seq (t₆.initFile _ _ _) fun _ _ t₇ => ?_
  refine wp_seq (t₇.create _ _ nofun) fun _ _ t₈ => ?_
  refine wp_seq (t₈.create _ _ nofun) fun _ _ t₉ => ?_
  exact t₉

theorem FilesOnTmpfs.held {k k' : Calling φ} (typed : FilesOnTmpfs k.vfs) (same : held k' = held k) :
    FilesOnTmpfs k'.vfs := by
  obtain ⟨node, rest⟩ := Prod.mk.inj same
  exact typed.same node (Prod.mk.inj rest).1

theorem FilesOnTmpfs.creat {k : Calling φ} (typed : FilesOnTmpfs k.vfs) (user : Nat → Option Byte) :
    wp (sysCreat ops mem user) (fun _ k' => FilesOnTmpfs k'.vfs) (fun _ _ => True) k := by
  unfold sysCreat
  refine wp_seq (userPath_spec user k) ?_
  rintro r _ ⟨rfl, _, _⟩
  cases r with
  | error rc => exact typed
  | ok path =>
    dsimp only
    rw [wp_bind, wp_onVfs]
    refine wp_imp (typed.createFile path none 0) ?_
    intro r v' typed'
    refine wp_ite (fun _ => typed') fun _ => wp_imp (keeps_vfsOpenIn path _) ?_
    exact fun _ k' same => FilesOnTmpfs.held typed' same

theorem FilesOnTmpfs.call {k : Calling φ} (typed : FilesOnTmpfs k.vfs) (tree : TreeInv k.vfs kids)
    (cwd : CwdOk k.vfs k.self.cwd) (c : FsCall) :
    wp (fsCall ops c) (fun _ k' => FilesOnTmpfs k'.vfs) (fun _ _ => True) k := by
  have keeps : ∀ {α : Type} {m : CallM φ α}, Keeps Fs.held m → ∀ f : α → CallM φ FsResult,
      (∀ a k', FilesOnTmpfs k'.vfs → wp (f a) (fun _ k' => FilesOnTmpfs k'.vfs) (fun _ _ => True) k') →
      wp (m >>= f) (fun _ k' => FilesOnTmpfs k'.vfs) (fun _ _ => True) k := by
    intro α m kept f rest
    refine wp_seq (kept k) ?_
    exact fun a k' same => rest a k' (typed.held same)
  cases c with
  | open_ user => exact keeps (keeps_sysOpen user) _ fun _ _ typed' => typed'
  | creat mem user => exact wp_seq (typed.creat user) fun _ _ typed' => typed'
  | chdir user =>
    refine wp_seq (sysChdir_spec tree cwd user) ?_
    rintro _ k' (⟨_, rfl⟩ | ⟨_, same, _⟩)
    · exact typed
    · change FilesOnTmpfs k'.vfs
      rw [same]
      exact typed
  | close fd => exact keeps (keeps_sysClose fd) _ fun _ _ typed' => typed'
  | dup2 oldfd newfd => exact keeps (keeps_sysDup2 oldfd newfd) _ fun _ _ typed' => typed'
  | read fd writable count =>
    refine keeps (keeps_sysRead fd writable count) _ fun r _ typed' => ?_
    cases r <;> exact typed'
  | write mem fd user count =>
    exact keeps (keeps_sysWriteFrom mem fd user count _ _) _ fun _ _ typed' => typed'
  | execve mem user =>
    refine keeps (keeps_sysExecveImage mem user) _ fun r _ typed' => ?_
    cases r <;> exact typed'

variable {sys sys' : FsSystem φ}

theorem FilesOnTmpfs.step (typed : FilesOnTmpfs sys.vfs) (inv : FsInv sys) {l : FsOp × FsResult}
    (step : FsStep ops sys l sys') : FilesOnTmpfs sys'.vfs := by
  have all : wp (fsExec ops l.1) (fun _ sys' => FilesOnTmpfs sys'.vfs) (fun _ _ => True) sys := by
    cases op : l.1 with
    | mkdir mem path =>
      rw [fsExec, wp_kernelCall]
      exact typed.mkdir path
    | createFile mem path data size =>
      rw [fsExec, wp_kernelCall]
      exact typed.createFile path data size
    | call t c =>
      have allowed := step.allowed
      rw [op] at allowed
      obtain ⟨self, here⟩ := Option.isSome_iff_exists.mp allowed
      obtain ⟨kids, tree⟩ := inv.tree
      rw [fsExec, wp_taskCall here]
      exact FilesOnTmpfs.call typed tree (inv.cwd t self here) c
    | fork t child => exact typed
    | exit t => exact typed
  exact wp_ok all step.ran

theorem FsBoot.typed {sys₀ : FsSystem φ} (safe : ops.Safe) {labels : List (FsOp × FsResult)}
    (boot : FsBoot ops sys₀) (run : Run (FsStep ops) sys₀ labels sys) : FilesOnTmpfs sys.vfs := by
  have both : FsInv sys ∧ FilesOnTmpfs sys.vfs := by
    refine run.invariant (fun s => FsInv s ∧ FilesOnTmpfs s.vfs) ⟨boot.inv safe, ?_⟩ ?_
    · obtain ⟨mem, motd, init⟩ := boot.init
      exact wp_ok (vfsInit_typed motd) init
    · rintro s l s' ⟨inv, typed⟩ step
      exact ⟨(inv.step safe step).1, typed.step inv step⟩
  exact both.2

/-! ## Texts of a path -/

/-- A node is reached by one sequence of names. -/
theorem TreeInv.spells_unique (tree : TreeInv v kids) {n : Nat} {names names' : List CString}
    (first : Spells v n names) (second : Spells v n names') : names = names' := by
  induction first generalizing names' with
  | root =>
    cases second with
    | root => rfl
    | child _ _ parent =>
      rw [tree.root.2.1] at parent
      cases parent
  | child _ _ parent ih =>
    cases second with
    | root =>
      rw [tree.root.2.1] at parent
      cases parent
    | child upper _ parent' =>
      obtain rfl := Option.some.inj (parent.symm.trans parent')
      rw [ih upper]

/-- The texts behind the first slash in which the same names are looked for. -/
theorem eq_tokens_of_pieces : ∀ {names : List CString} {tok : CString}, pieces tok = names →
    tok = tokens names ∨ names ≠ [] ∧ tok = tokens names ++ [slash] := by
  intro names
  induction names with
  | nil =>
    intro tok none_
    by_contra other
    have some_ : tok ≠ [] := fun empty => other (.inl empty)
    rw [pieces_split some_] at none_
    cases none_
  | cons c cs ih =>
    intro tok same
    have some_ : tok ≠ [] := by
      rintro rfl
      cases same
    have whole := @List.takeWhile_append_dropWhile _ (· ≠ slash) tok
    have stop := List.head?_dropWhile_not (fun b => decide (b ≠ slash)) tok
    rw [pieces_split some_] at same
    obtain ⟨rfl, rest_eq⟩ := List.cons.inj same
    generalize tok.takeWhile (· ≠ slash) = part at whole
    generalize tok.dropWhile (· ≠ slash) = behind at whole stop rest_eq
    cases behind with
    | nil =>
      subst rest_eq
      rw [← whole]
      exact .inl rfl
    | cons b rest =>
      obtain rfl : b = slash := by simpa using stop
      have front : cs ≠ [] → tokens (part :: cs) = part ++ slash :: tokens cs := by
        intro ne
        obtain ⟨d, ds, rfl⟩ := List.exists_cons_of_ne_nil ne
        rw [tokens, List.flatMap_cons]
        rfl
      rw [← whole]
      by_cases last : cs = []
      · rcases ih rest_eq with empty | ⟨ne, _⟩
        · rw [empty, last]
          exact .inr ⟨by simp, by simp [tokens]⟩
        · exact absurd last ne
      · rw [front last]
        rcases ih rest_eq with text | ⟨_, text⟩
        · exact .inl (by rw [text])
        · exact .inr ⟨by simp, by rw [text]; simp⟩

/-! ## The stored file -/

theorem toInt_of_lt {n : Nat} (small : n < 2 ^ 31) : toInt n = n := by
  unfold toInt
  rw [Int.bmod_eq_of_le] <;> omega

/-- The tail of `vfs_create_file` leaves the data in the file it was given. -/
theorem fillFile_stored {v v' : Vfs TmpfsData} {n : Nat} {data : Option (List Byte)}
    (small : (data.getD []).length < 2 ^ 31)
    (ran : fillFile tmpfsFileOps mem n data (data.getD []).length v = .ok 0 v') :
    ∃ d, FileRel d (data.getD []) ∧ v' = { v with file := Function.update v.file n d } := by
  have spec : wp (fillFile tmpfsFileOps mem n data (data.getD []).length)
      (fun r w => r = 0 → ∃ d, FileRel d (data.getD []) ∧
        w = { v with file := Function.update v.file n d }) (fun _ _ => True) v := by
    unfold fillFile
    rw [wp_bind, wp_run (onFile_ok rfl)]
    apply wp_ite
    · intro none_ _
      rw [List.eq_nil_of_length_eq_zero none_]
      exact ⟨_, .clear _, rfl⟩
    · intro some_
      cases data with
      | none => exact absurd rfl some_
      | some bytes =>
        rw [Option.getD_some] at small ⊢
        dsimp only
        rw [List.take_length, wp_bind]
        obtain ⟨⟨written, d⟩, done⟩ := tmpfsFileOps_safe mem (tmpfsClear (v.file n)) bytes 0
        have there : Function.update v.file n (tmpfsClear (v.file n)) n = tmpfsClear (v.file n) :=
          Function.update_self ..
        rw [wp_run (onFile_ok (by rw [← there] at done; exact done))]
        dsimp only
        rw [Function.update_idem]
        apply wp_ite
        · intro all _
          cases written with
          | none =>
            rw [toInt_of_lt small] at all
            exact absurd all (by rw [intResult]; omega)
          | some k =>
            obtain ⟨_, holds, _⟩ := (FileRel.clear (v.file n)).written (Nat.zero_le _) done
            have same : writeAt [] bytes 0 = bytes := by simp [writeAt]
            rw [same] at holds
            exact ⟨d, holds, rfl⟩
        · intro _ zero
          cases zero
  exact wp_ok spec ran rfl

/-! ## The place of the file -/

/-- The table with the file in its place; `names` leads to it, and nothing else has moved. -/
structure Placed (v : Vfs φ) (kids : Nat → List Nat) (names : List CString) (n : Nat) (w : Vfs φ)
    (kids' : Nat → List Nat) : Prop where
  tree : TreeInv w kids'
  extends_ : Extends v w
  here : w.descend kids' w.root names = some n
  file : (w.node n).type = .file
  others : ∀ names', names' ≠ names → w.descend kids' w.root names' = v.descend kids v.root names'
  stored : ∀ m < v.count, w.file m = v.file m

theorem TreeInv.placed (tree : TreeInv v kids) {names : List CString} {n : Nat}
    (here : v.descend kids v.root names = some n) (file : (v.node n).type = .file) :
    Placed v kids names n v kids :=
  ⟨tree, .refl v, here, file, fun _ _ => rfl, fun _ _ => rfl⟩

/-- The names of the nodes with a new one below `p`. -/
theorem TreeInv.spells_grown (tree : TreeInv v kids) {p n : Nat} {name : CString} {type : VnodeType}
    {table : VfsOps} {fresh : φ} {front names : List CString} (clean : 0#8 ∉ name)
    (short : name.length < vfsNameMax) (upper : Spells v p front) (lt : p < v.count) :
    Spells (v.grown p name type table fresh) n names ↔
      Spells v n names ∨ n = v.count ∧ names = front ++ [name] := by
  have ext : Extends v (v.grown p name type table fresh) := grown_extends lt
  have named := @grown_nameOf φ v p name type table fresh lt clean short
  have parent : ((v.grown p name type table fresh).node v.count).parent = some p := by
    rw [grown_new lt]
    rfl
  constructor
  · intro spells
    induction spells with
    | root => exact .inl .root
    | @child m c names _ below up ih =>
      have split : c < v.count ∨ c = v.count := by
        have : c < v.count + 1 := below
        omega
      rcases split with old | rfl
      · rw [ext.parent c old] at up
        have notNew : m ≠ v.count := by
          rintro rfl
          have notRoot : c ≠ v.root := by
            rintro rfl
            rw [tree.root.2.1] at up
            cases up
          obtain ⟨q, less, same, _⟩ := tree.parent c old notRoot
          obtain rfl := Option.some.inj (same.symm.trans up)
          omega
        rw [ext.nameOf old]
        exact .inl (.child (ih.resolve_right fun new => notNew new.1) old up)
      · obtain rfl : p = m := Option.some.inj (parent.symm.trans up)
        have above := ih.resolve_right fun new => absurd new.1 (by omega)
        rw [named, tree.spells_unique above upper]
        exact .inr ⟨rfl, rfl⟩
  · rintro (old | ⟨rfl, rfl⟩)
    · exact old.extends ext
    · have new := Spells.child (upper.extends ext) (Nat.lt_succ_self v.count) parent
      rwa [named] at new

theorem TreeInv.placed_new (tree : TreeInv v kids) {p : Nat} {front : List CString} {name : CString}
    (upper : v.descend kids v.root front = some p) (dir : (v.node p).type = .dir)
    (component : Component name) (short : name.length < vfsNameMax)
    (missing : v.descend kids v.root (front ++ [name]) = none) (fresh : φ) :
    Placed v kids (front ++ [name]) v.count (v.grown p name .file .tmpfsFile fresh)
      (Function.update (Function.update kids v.count []) p (v.count :: kids p)) := by
  have lt := tree.descend_lt upper
  have grown : TreeInv (v.grown p name .file .tmpfsFile fresh) _ :=
    tree.grown lt dir component short (child_free missing upper)
  refine ⟨grown, grown_extends lt, ?_, ?_, ?_, ?_⟩
  · rw [grown.descend_iff, tree.spells_grown component.noNul short (tree.descend_iff.mp upper) lt]
    exact .inr ⟨rfl, rfl⟩
  · rw [grown_new lt]
    rfl
  · intro names' other
    apply Option.ext
    intro m
    rw [grown.descend_iff, tree.spells_grown component.noNul short (tree.descend_iff.mp upper) lt,
      tree.descend_iff]
    exact or_iff_left fun new => other new.2
  · intro m below
    exact Function.update_of_ne (by omega) _ _

/-- `vfs_create_file` finds or makes the place and fills the file. -/
theorem createFile_effects (tree : TreeInv v kids) {names : List CString}
    (ok : ∀ c ∈ names, Component c) (short : (render names).length < vfsMaxPath)
    {data : Option (List Byte)} {size : Nat}
    (created : vfsCreateFile ops mem (render names) data size v = .ok 0 v') :
    ∃ n w kids', Placed v kids names n w kids' ∧ fillFile ops mem n data size w = .ok 0 v' := by
  have spec : wp (vfsCreateFile ops mem (render names) data size)
      (fun r u => r = 0 → ∃ n w kids', Placed v kids names n w kids' ∧
        fillFile ops mem n data size w = .ok 0 u) (fun _ _ => True) v := by
    have fill : ∀ {n w kids'}, Placed v kids names n w kids' →
        wp (fillFile ops mem n data size) (fun r u => r = 0 → ∃ n w kids',
          Placed v kids names n w kids' ∧ fillFile ops mem n data size w = .ok 0 u)
          (fun _ _ => True) w := by
      intro n w kids' placed
      unfold wp
      split
      · rename_i r u ran
        rintro rfl
        exact ⟨n, w, kids', placed, ran⟩
      · trivial
    unfold vfsCreateFile
    rcases splitParentPath_cases ok short with split | ⟨front, c, rfl, okFront, last, fits, up, split⟩
    · rw [split]
      exact fun failed => absurd failed (by decide)
    rw [split]
    dsimp only
    rw [wp_bind, wp_run (tree.vfsLookup_eq okFront up)]
    cases upper : v.descend kids v.root front with
    | none => exact fun failed => absurd failed (by decide)
    | some p =>
      dsimp only
      rw [wp_bind, wp_get]
      apply wp_ite
      · exact fun _ failed => absurd failed (by decide)
      intro dir
      rw [wp_bind, wp_run (tree.vfsLookup_eq ok short)]
      cases found : v.descend kids v.root (front ++ [c]) with
      | some n =>
        rw [wp_bind, wp_get]
        apply wp_ite
        · exact fun _ failed => absurd failed (by decide)
        · exact fun isFile => fill (tree.placed found (not_not.mp isFile))
      | none =>
        dsimp only
        cases yes : mem.vnode with
        | false =>
          rw [wp_bind, wp_run (vnodeCreate_null yes)]
          exact fun failed => absurd failed (by decide)
        | true =>
          rw [wp_bind, wp_run (vnodeCreate_eq yes)]
          exact fill (tree.placed_new upper (not_not.mp dir) last fits found ops.fresh)
  exact wp_ok spec created rfl

/-! ## Reading -/

/-- What `vfs_read_all` does with the vnode it has found. -/
def readNode (ops : FileOps φ) (mem : Alloc) (type : VnodeType) (table : VfsOps) (file : φ) :
    Except VfsHalt (Option (List Byte)) :=
  if type ≠ .file ∨ table ≠ .tmpfsFile then .ok none
  else if ¬ mem.image then .ok none
  else match ops.read file (ops.size file) 0 with
    | .error e => .error e
    | .ok bytes => if shortRead bytes.length (ops.size file) then .ok none else .ok (some bytes)

theorem vfsReadAll_eq {path : CString} {found : Option Nat} (lookup : vfsLookup path v = .ok found v) :
    vfsReadAll ops mem path v =
      match found.elim (.ok none) fun n =>
        readNode ops mem (v.node n).type (v.node n).ops (v.file n) with
      | .ok r => .ok r v
      | .error e => .error e v := by
  refine result_of_wp ?_
  unfold vfsReadAll
  rw [wp_bind, wp_run lookup]
  cases found with
  | none => rfl
  | some n =>
    dsimp only
    rw [wp_bind, wp_get, Option.elim_some, readNode]
    apply wp_ite
    · intro other
      rw [if_pos other]
      rfl
    intro isFile
    rw [if_neg isFile]
    apply wp_ite
    · intro full
      rw [if_pos full]
      rfl
    intro served
    rw [if_neg served]
    cases ops.read (v.file n) (ops.size (v.file n)) 0 with
    | error e => rfl
    | ok bytes =>
      dsimp only
      cases shortRead bytes.length (ops.size (v.file n)) <;> rfl

theorem vfsReadAll_error {path : CString} {e : VfsHalt} (lookup : vfsLookup path v = .error e v) :
    vfsReadAll ops mem path v = .error e v := by
  unfold vfsReadAll
  change EStateM.bind _ _ v = _
  unfold EStateM.bind
  rw [lookup]

/-- A path that sees the same vnode with the same file sees the same contents. -/
theorem readAll_same {q : CString} (mem : Alloc) (tree : TreeInv v kids) {kids' : Nat → List Nat}
    (tree' : TreeInv v' kids')
    (lookup : resultValue (vfsLookup q v') = resultValue (vfsLookup q v))
    (same : ∀ m, vfsLookup q v = .ok (some m) v → (v'.node m).type = (v.node m).type ∧
      (v'.node m).ops = (v.node m).ops ∧ v'.file m = v.file m) :
    resultValue (vfsReadAll ops mem q v') = resultValue (vfsReadAll ops mem q v) := by
  have ends : ∀ {u : Vfs φ} {kids : Nat → List Nat}, TreeInv u kids →
      (∃ r, vfsLookup q u = .ok r u) ∨ vfsLookup q u = .error .unterminated u := by
    intro u kids tree
    rw [tree.vfsLookup_text]
    split
    · exact .inl ⟨_, rfl⟩
    split
    · exact .inr rfl
    · exact .inl ⟨_, rfl⟩
  rcases ends tree with ⟨r, here⟩ | here <;> rcases ends tree' with ⟨r', there⟩ | there <;>
    rw [here, there] at lookup
  · obtain rfl : r' = r := Option.some.inj lookup
    rw [vfsReadAll_eq here, vfsReadAll_eq there]
    cases r' with
    | none => rfl
    | some m =>
      obtain ⟨type, table, file⟩ := same m here
      rw [Option.elim_some, Option.elim_some, type, table, file]
      cases readNode ops mem (v.node m).type (v.node m).ops (v.file m) <;> rfl
  · cases lookup
  · cases lookup
  · rw [vfsReadAll_error here, vfsReadAll_error there]
    rfl

/-- **Create, then read.** In every reachable file system: after a `vfs_create_file` of less than 2^31
bytes that returns 0, `vfs_read_all` of the path returns the data, and what any other path leads to
and holds is what it was. The path with a slash behind it is the same path to `vfs_lookup`. -/
theorem create_then_read {sys₀ sys : FsSystem TmpfsData} {labels : List (FsOp × FsResult)}
    (boot : FsBoot tmpfsFileOps sys₀) (run : Run (FsStep tmpfsFileOps) sys₀ labels sys)
    {path : CString} (canonical : Canonical path) {data : Option (List Byte)}
    (small : (data.getD []).length < 2 ^ 31) {v' : Vfs TmpfsData}
    (created : vfsCreateFile tmpfsFileOps mem path data (data.getD []).length sys.vfs = .ok 0 v') :
    (∀ mem', mem'.image = true →
      vfsReadAll tmpfsFileOps mem' path v' = .ok (some (data.getD [])) v') ∧
    ∀ q, q ≠ path → q ≠ path ++ [slash] →
      resultValue (vfsLookup q v') = resultValue (vfsLookup q sys.vfs) ∧
      ∀ mem', resultValue (vfsReadAll tmpfsFileOps mem' q v') =
        resultValue (vfsReadAll tmpfsFileOps mem' q sys.vfs) := by
  obtain ⟨kids, tree⟩ := (boot.run tmpfsFileOps_safe run).tree
  have typed := wp_ok ((boot.typed tmpfsFileOps_safe run).createFile path data _) created
  obtain ⟨short, names, ok, rfl⟩ := canonical
  obtain ⟨n, w, kids', placed, filled⟩ := createFile_effects tree ok short created
  obtain ⟨d, holds, rfl⟩ := fillFile_stored small filled
  have tree' : TreeInv { w with file := Function.update w.file n d } kids' :=
    placed.tree.same ⟨rfl, rfl, rfl⟩
  have descend' : ∀ names' m, Vfs.descend { w with file := Function.update w.file n d } kids' m names' =
      w.descend kids' m names' := by
    intro names'
    induction names' with
    | nil => exact fun _ => rfl
    | cons c cs ih => exact fun m => congrArg _ (funext ih)
  constructor
  · intro mem' served
    have lookup := tree'.vfsLookup_eq ok short
    rw [descend', placed.here] at lookup
    have table := typed n (placed.tree.descend_lt placed.here) placed.file
    have read : tmpfsRead d d.size 0 = .ok (data.getD []) := by
      rw [holds.read, holds.size, List.drop_zero, List.take_length]
    have whole : shortRead (data.getD []).length d.size = false := by
      rw [shortRead, holds.size, Nat.mod_eq_of_lt (by omega)]
      simpa using small
    rw [vfsReadAll_eq lookup, Option.elim_some, table]
    dsimp only
    rw [placed.file, Function.update_self, readNode, if_neg (by simp), if_neg (by simp [served])]
    have bytes : tmpfsFileOps.read d (tmpfsFileOps.size d) 0 = .ok (data.getD []) := read
    have size : tmpfsFileOps.size d = d.size := rfl
    rw [bytes, size]
    dsimp only
    rw [whole]
    rfl
  · intro q other slashed
    have texts : q.head? = some slash → pieces q.tail ≠ names := by
      intro absolute same
      obtain ⟨tail, rfl⟩ := List.head?_eq_some_iff.mp absolute
      obtain ⟨tok, whole⟩ := List.head?_eq_some_iff.mp (render_head names)
      have behind := tail_render names
      rw [whole] at other slashed behind
      rw [List.tail_cons] at same behind
      rcases eq_tokens_of_pieces same with text | ⟨_, text⟩
      · exact other (by rw [text, ← behind])
      · exact slashed (by rw [text, ← behind]; rfl)
    have lookup : resultValue (vfsLookup q { w with file := Function.update w.file n d }) =
        resultValue (vfsLookup q sys.vfs) := by
      rw [tree'.vfsLookup_text, tree.vfsLookup_text]
      by_cases relative : q.head? ≠ some slash
      · rw [if_pos relative, if_pos relative]
        rfl
      rw [if_neg relative, if_neg relative]
      split
      · rfl
      · rw [descend', placed.others _ (texts (not_not.mp relative))]
        rfl
    refine ⟨lookup, fun mem' => readAll_same mem' tree tree' lookup ?_⟩
    intro m found
    obtain ⟨absolute, reached⟩ := tree.lookup_inv found
    have lt := tree.descend_lt reached
    -- the file that was filled has other names
    have apart : m ≠ n := by
      rintro rfl
      rw [← placed.others _ (texts absolute)] at reached
      exact texts absolute (placed.tree.spells_unique (placed.tree.descend_iff.mp reached)
        (placed.tree.descend_iff.mp placed.here))
    refine ⟨placed.extends_.type m lt, placed.extends_.ops m lt, ?_⟩
    dsimp only
    rw [Function.update_of_ne apart, placed.stored m lt]

def hostnamePath : CString := asciiBytes ['/', 'e', 't', 'c', '/', 'h', 'o', 's', 't', 'n', 'a', 'm', 'e']

/-- A shorter text in `/etc/hostname`. -/
theorem create_then_read_hostname :
    ∃ v', vfsCreateFile tmpfsFileOps richAlloc hostnamePath (some (asciiBytes ['p', 'c'])) 2 bootVfs =
        .ok 0 v' ∧
      vfsReadAll tmpfsFileOps richAlloc hostnamePath v' = .ok (some (asciiBytes ['p', 'c'])) v' := by
  have created : vfsCreateFile tmpfsFileOps richAlloc hostnamePath (some (asciiBytes ['p', 'c'])) 2
      bootVfs = .ok 0 _ := result_eq (by decide +kernel)
  have canonical : Canonical hostnamePath :=
    ⟨by decide, [asciiBytes ['e', 't', 'c'], asciiBytes ['h', 'o', 's', 't', 'n', 'a', 'm', 'e']],
      by decide, by decide⟩
  have stored := create_then_read bootSystem_boot .nil canonical (by decide) created
  exact ⟨_, created, stored.1 richAlloc rfl⟩

end LithiumKernel.Fs
