import LithiumKernel.Fs.Normalize
import LithiumKernel.Fs.Tree

/-!
# Resolution against the walk over the tree

`resolve_path` cancels `..` in the text, before the tree is looked at. The walk below goes over the
vnodes one name at a time and follows the parent pointer at `..`. Where each name but the last is
that of a directory, `vfs_lookup` of the resolved text ends at the vnode the walk ends at.
-/
namespace LithiumKernel.Fs

open LithiumKernel.Lib

variable {φ : Type} {v : Vfs φ} {kids : Nat → List Nat}

/-- One name of the walk. The root has no parent and stays. -/
def Vfs.stepTo (v : Vfs φ) (kids : Nat → List Nat) (n : Nat) (c : CString) : Option Nat :=
  if c = [dot] then some n
  else if c = [dot, dot] then some ((v.node n).parent.getD n)
  else v.child kids n c

def Vfs.walk (v : Vfs φ) (kids : Nat → List Nat) (n : Nat) (cs : List CString) : Option Nat :=
  cs.foldlM (v.stepTo kids) n

/-- Where the walk of a path begins. -/
def Vfs.origin (v : Vfs φ) (home : Nat) (path : CString) : Nat :=
  if path.head? = some slash then v.root else home

theorem walk_snoc (n : Nat) (front : List CString) (c : CString) :
    v.walk kids n (front ++ [c]) = (v.walk kids n front).bind fun m => v.stepTo kids m c := by
  unfold Vfs.walk
  rw [List.foldlM_append]
  cases front.foldlM (v.stepTo kids) n <;> simp

/-! ## The text of a directory -/

/-- Where no name is empty, the names that are looked for are those between the slashes. -/
theorem components_eq_pieces {tok : CString} (named : ∀ c ∈ pieces tok, c ≠ []) :
    components tok = pieces tok := by
  have keep : ∀ {names : List CString}, (∀ c ∈ names, c ≠ []) → names.filter (· ≠ []) = names :=
    fun all => List.filter_eq_self.mpr fun c member => by simpa using all c member
  unfold components
  unfold pieces at named ⊢
  dsimp only at named ⊢
  split
  · rename_i last
    rw [if_pos last] at named
    have whole := List.dropLast_append_getLast? [] last
    rw [← whole, List.filter_append, keep named]
    simp
  · rename_i last
    rw [if_neg last] at named
    exact keep named

namespace TreeInv

/-- Names that lead somewhere are names of vnodes. -/
theorem descend_components (tree : TreeInv v kids) {d : Nat} :
    ∀ {names : List CString} {n : Nat}, n < v.count → v.descend kids n names = some d →
      ∀ c ∈ names, Component c := by
  intro names
  induction names with
  | nil => exact fun _ _ _ => nofun
  | cons name names ih =>
    intro n lt found
    obtain ⟨m, child, rest⟩ := Option.bind_eq_some_iff.mp found
    obtain ⟨below, parent, named⟩ := (tree.child_iff lt).mp child
    have notRoot : m ≠ v.root := by
      rintro rfl
      rw [tree.root.2.1] at parent
      cases parent
    intro c member
    rcases List.mem_cons.mp member with rfl | later
    · rw [← named]
      exact (tree.named m below notRoot).1
    · exact ih below rest c later

/-- The text of a working directory that exists. -/
theorem components_of_lookup (tree : TreeInv v kids) {cwd : CString} {home : Nat}
    (found : vfsLookup cwd v = .ok (some home) v) :
    cwd.head? = some slash ∧ (∀ c ∈ components cwd, Component c) ∧
      v.descend kids v.root (components cwd) = some home := by
  obtain ⟨absolute, reached⟩ := tree.lookup_inv found
  obtain ⟨tail, rfl⟩ := List.head?_eq_some_iff.mp absolute
  rw [List.tail_cons] at reached
  have ok := tree.descend_components tree.root.1 reached
  rw [components_slash, components_eq_pieces fun c member => (ok c member).nonempty]
  exact ⟨absolute, ok, reached⟩

/-! ## The stack of names follows the walk -/

theorem descend_dropLast (tree : TreeInv v kids) {names : List CString} {n : Nat}
    (here : v.descend kids v.root names = some n) :
    v.descend kids v.root names.dropLast = some ((v.node n).parent.getD n) := by
  rcases List.eq_nil_or_concat names with rfl | ⟨front, c, rfl⟩
  · obtain rfl := Option.some.inj here
    rw [tree.root.2.1]
    rfl
  · rw [List.concat_eq_append] at here ⊢
    rw [descend_snoc] at here
    obtain ⟨p, upper, child⟩ := Option.bind_eq_some_iff.mp here
    obtain ⟨_, parent, _⟩ := (tree.child_iff (tree.descend_lt upper)).mp child
    rw [List.dropLast_concat, upper, parent]
    rfl

/-- One name. -/
theorem descend_stackStep (tree : TreeInv v kids) {names : List CString} {n : Nat}
    (here : v.descend kids v.root names = some n) (c : CString) :
    v.descend kids v.root (stackStep names c) = v.stepTo kids n c := by
  unfold stackStep Vfs.stepTo
  split
  · exact here
  split
  · exact tree.descend_dropLast here
  · rw [descend_snoc, here]
    rfl

/-- All names: the stack is kept in step as long as the walk goes on. -/
theorem descend_fold (tree : TreeInv v kids) :
    ∀ {cs names : List CString} {n : Nat}, v.descend kids v.root names = some n →
      (∀ front, front <+: cs → front ≠ cs → ∃ m, v.walk kids n front = some m) →
      v.descend kids v.root (cs.foldl stackStep names) = v.walk kids n cs := by
  intro cs
  induction cs with
  | nil => exact fun here _ => here
  | cons c cs ih =>
    intro names n here goesOn
    have step := tree.descend_stackStep here c
    rw [List.foldl_cons, Vfs.walk, List.foldlM_cons]
    by_cases last : cs = []
    · rw [last, List.foldl_nil, step]
      exact (bind_pure _).symm
    obtain ⟨m, first⟩ := goesOn [c] ⟨cs, rfl⟩ (by simpa using Ne.symm last)
    have taken : v.stepTo kids n c = some m := by
      rw [Vfs.walk, List.foldlM_cons] at first
      simpa using first
    rw [taken] at step ⊢
    refine ih step ?_
    intro front before short
    obtain ⟨k, later⟩ := goesOn (c :: front) (List.cons_prefix_cons.mpr ⟨rfl, before⟩)
      (by simpa using short)
    rw [Vfs.walk, List.foldlM_cons, taken] at later
    exact ⟨k, later⟩

theorem walk_lt (tree : TreeInv v kids) {n m : Nat} {cs : List CString} (lt : n < v.count)
    (reached : v.walk kids n cs = some m) : m < v.count := by
  induction cs using List.reverseRecOn generalizing m with
  | nil =>
    obtain rfl := Option.some.inj reached
    exact lt
  | append_singleton front c ih =>
    rw [walk_snoc] at reached
    obtain ⟨k, before, last⟩ := Option.bind_eq_some_iff.mp reached
    have low := ih before
    unfold Vfs.stepTo at last
    split at last
    · obtain rfl := Option.some.inj last
      exact low
    split at last
    · obtain rfl := Option.some.inj last
      by_cases root : k = v.root
      · rw [root, tree.root.2.1]
        exact tree.root.1
      · obtain ⟨p, less, parent, _⟩ := tree.parent k low root
        rw [parent]
        exact Nat.lt_trans less low
    · exact tree.child_lt low last

/-- A walk ends nowhere just if its last name is missing. -/
theorem walk_eq_none_iff (tree : TreeInv v kids) {n : Nat} {cs : List CString} (lt : n < v.count)
    (goesOn : ∀ front, front <+: cs → front ≠ cs → ∃ m, v.walk kids n front = some m) :
    v.walk kids n cs = none ↔
      ∃ front c d, cs = front ++ [c] ∧ v.walk kids n front = some d ∧ c ≠ [dot] ∧ c ≠ [dot, dot] ∧
        ∀ m < v.count, (v.node m).parent = some d → v.nameOf m ≠ c := by
  have missing : ∀ {d : Nat}, d < v.count → ∀ c : CString, v.stepTo kids d c = none ↔
      c ≠ [dot] ∧ c ≠ [dot, dot] ∧ ∀ m < v.count, (v.node m).parent = some d → v.nameOf m ≠ c := by
    intro d low c
    unfold Vfs.stepTo
    by_cases isDot : c = [dot]
    · simp [isDot]
    by_cases isDotDot : c = [dot, dot]
    · simp [isDotDot]
    rw [if_neg isDot, if_neg isDotDot, Option.eq_none_iff_forall_ne_some]
    simp only [ne_eq, isDot, isDotDot, not_false_eq_true, true_and, tree.child_iff low, not_and]
  constructor
  · intro nowhere
    rcases List.eq_nil_or_concat cs with rfl | ⟨front, c, rfl⟩
    · cases nowhere
    rw [List.concat_eq_append] at nowhere goesOn ⊢
    obtain ⟨d, before⟩ := goesOn front ⟨[c], rfl⟩ (by simp)
    rw [walk_snoc, before] at nowhere
    exact ⟨front, c, d, rfl, before, (missing (tree.walk_lt lt before) c).mp nowhere⟩
  · rintro ⟨front, c, d, rfl, before, last⟩
    rw [walk_snoc, before]
    exact (missing (tree.walk_lt lt before) c).mpr last

end TreeInv

/-! ## Resolution -/

/-- The text that is normalised, by its names. -/
theorem resolvePath_eq {cwd path r : CString} (absolute : cwd.head? = some slash)
    (cleanCwd : 0#8 ∉ cwd) (clean : 0#8 ∉ path) (ok : ∀ c ∈ components cwd, Component c)
    (resolved : resolvePath cwd path = some r) :
    r = render ((components path).foldl stackStep
        (if path.head? = some slash then [] else components cwd)) := by
  unfold resolvePath at resolved
  split at resolved
  · cases resolved
  split at resolved
  · rename_i fromRoot
    obtain ⟨run, -, -⟩ := @normalizeAbsolutePath_eq vfsMaxPath path (by decide) fromRoot clean
    rw [if_pos fromRoot]
    rw [resolved, stackOf] at run
    simpa using run
  rename_i relative
  rw [if_neg relative]
  -- the names of the text are those of the working directory and those of the path
  have names : components (cwd ++ (if 1 < cwd.length then [slash] else []) ++ path) =
      components cwd ++ components path := by
    split
    · rw [List.append_assoc]
      exact components_append cwd path
    · rename_i root
      obtain ⟨tail, rfl⟩ := List.head?_eq_some_iff.mp absolute
      obtain rfl : tail = [] := List.eq_nil_of_length_eq_zero (by
        rw [List.length_cons] at root
        omega)
      exact components_append [] path
  have noNul : 0#8 ∉ (if 1 < cwd.length then [slash] else []) := by
    split <;> decide
  dsimp only at resolved
  generalize (if 1 < cwd.length then [slash] else []) = sep at resolved names noNul
  split at resolved
  · cases resolved
  have whole : 0#8 ∉ cwd ++ sep ++ path := by
    simp only [List.mem_append, not_or]
    exact ⟨⟨cleanCwd, noNul⟩, clean⟩
  have lead : (cwd ++ sep ++ path).head? = some slash := by
    obtain ⟨tail, rfl⟩ := List.head?_eq_some_iff.mp absolute
    rfl
  obtain ⟨run, -, -⟩ := @normalizeAbsolutePath_eq vfsMaxPath _ (by decide) lead whole
  have base := stackOf_names ok
  rw [stackOf] at base
  rw [resolved, names, stackOf, List.foldl_append, base] at run
  simpa using run

/-- The lookup of the resolved path ends where the walk ends, which is nowhere just if the last name
is that of no vnode in the directory reached before it. -/
theorem resolved_lookup_is_walk (tree : TreeInv v kids) {cwd path r : CString} {home : Nat}
    (cleanCwd : 0#8 ∉ cwd) (found : vfsLookup cwd v = .ok (some home) v) (clean : 0#8 ∉ path)
    (directories : ∀ front, front <+: components path → front ≠ components path →
      ∃ d, v.walk kids (v.origin home path) front = some d ∧ (v.node d).type = .dir)
    (resolved : resolvePath cwd path = some r) :
    vfsLookup r v = .ok (v.walk kids (v.origin home path) (components path)) v ∧
      (v.walk kids (v.origin home path) (components path) = none ↔
        ∃ front c d, components path = front ++ [c] ∧
          v.walk kids (v.origin home path) front = some d ∧ c ≠ [dot] ∧ c ≠ [dot, dot] ∧
          ∀ m < v.count, (v.node m).parent = some d → v.nameOf m ≠ c) := by
  obtain ⟨absolute, ok, reached⟩ := tree.components_of_lookup found
  have spelled := resolvePath_eq absolute cleanCwd clean ok resolved
  have short := (resolvePath_canonical cleanCwd clean resolved).short
  have base : v.descend kids v.root (if path.head? = some slash then [] else components cwd) =
      some (v.origin home path) := by
    unfold Vfs.origin
    split
    · rfl
    · exact reached
  have okBase : ∀ c ∈ (if path.head? = some slash then [] else components cwd), Component c := by
    split
    · exact fun _ => nofun
    · exact ok
  have okStack := (@fold_eq vfsMaxPath _ _ okBase (components_part clean)).2.1
  have same := tree.descend_fold base fun front before short =>
    (directories front before short).imp fun _ => And.left
  constructor
  · rw [spelled] at short ⊢
    rw [tree.vfsLookup_eq okStack short, same]
  · have below : v.origin home path < v.count := tree.descend_lt base
    exact tree.walk_eq_none_iff below fun front before short =>
      (directories front before short).imp fun _ => And.left

/-- The root and a directory `a`. -/
def oneDirectory : Vfs TmpfsData :=
  (vfsEmpty tmpfsFileOps).grown 0 (asciiBytes ['a']) .dir .tmpfsDir tmpfsFileOps.fresh

def oneDirectoryKids : Nat → List Nat :=
  Function.update (Function.update (fun _ => []) 1 []) 0 [1]

theorem oneDirectory_tree : TreeInv oneDirectory oneDirectoryKids :=
  (vfsEmpty_tree tmpfsFileOps).grown (by decide) rfl (by decide) (by decide) rfl

/-- `../a` in `/a`. -/
theorem resolved_lookup_is_walk_up :
    vfsLookup (asciiBytes ['/', 'a']) oneDirectory = .ok (some 1) oneDirectory := by
  have found : vfsLookup (asciiBytes ['/', 'a']) oneDirectory = .ok (some 1) oneDirectory := by
    have lookup := oneDirectory_tree.vfsLookup_text (asciiBytes ['/', 'a'])
    rw [if_neg (by decide), if_neg (by decide)] at lookup
    exact lookup
  have names : components (asciiBytes ['.', '.', '/', 'a']) = [[dot, dot], asciiBytes ['a']] := by
    decide
  have directories : ∀ front, front <+: components (asciiBytes ['.', '.', '/', 'a']) →
      front ≠ components (asciiBytes ['.', '.', '/', 'a']) →
      ∃ d, oneDirectory.walk oneDirectoryKids
          (oneDirectory.origin 1 (asciiBytes ['.', '.', '/', 'a'])) front = some d ∧
        (oneDirectory.node d).type = .dir := by
    rw [names]
    intro front before short
    match front, before, short with
    | [], _, _ => exact ⟨1, rfl, rfl⟩
    | [c], before, _ =>
      obtain ⟨rfl, _⟩ := List.cons_prefix_cons.mp before
      exact ⟨0, rfl, rfl⟩
    | c :: d :: rest, whole, short =>
      obtain ⟨first, tail⟩ := List.cons_prefix_cons.mp whole
      obtain ⟨second, empty⟩ := List.cons_prefix_cons.mp tail
      rw [first, second, List.prefix_nil.mp empty] at short
      exact absurd rfl short
  exact (resolved_lookup_is_walk oneDirectory_tree (by decide) found (by decide) directories
    (by decide : resolvePath (asciiBytes ['/', 'a']) (asciiBytes ['.', '.', '/', 'a']) =
      some (asciiBytes ['/', 'a']))).1

end LithiumKernel.Fs
