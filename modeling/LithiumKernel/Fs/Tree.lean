import LithiumKernel.Fs.Vfs
import LithiumKernel.Lib.Links
import Mathlib.Data.List.Induction
import Mathlib.Data.List.Perm.Subperm

/-!
# The tree of vnodes

`TreeInv` is the invariant of the vnode table: the sibling lists are the nodes with that
parent, parents are directories and older than their children, and names tell siblings
apart. Under it `vfs_lookup` of a canonical path follows the names (`vfsLookup_eq`), and
creating a node whose name is not taken keeps it.
-/
namespace LithiumKernel.Fs

open LithiumKernel.Lib

variable {φ : Type} {v v' : Vfs φ} {kids : Nat → List Nat}

def Vfs.nameOf (v : Vfs φ) (n : Nat) : CString := cstr (v.node n).name

/-- The names from the root down to a node. -/
inductive Spells (v : Vfs φ) : Nat → List CString → Prop where
  | root : Spells v v.root []
  | child {n c : Nat} {names : List CString} : Spells v n names → c < v.count →
      (v.node c).parent = some n → Spells v c (names ++ [v.nameOf c])

structure TreeInv (v : Vfs φ) (kids : Nat → List Nat) : Prop where
  root : v.root < v.count ∧ (v.node v.root).parent = none ∧ (v.node v.root).type = .dir
  links : ∀ n < v.count, Links (fun c => (v.node c).nextSib) (v.node n).children (kids n)
  nodup : ∀ n < v.count, (kids n).Nodup
  kid : ∀ n < v.count, ∀ c, c ∈ kids n ↔ c < v.count ∧ (v.node c).parent = some n
  parent : ∀ c < v.count, c ≠ v.root →
    ∃ p < c, (v.node c).parent = some p ∧ (v.node p).type = .dir
  distinct : ∀ c < v.count, ∀ d < v.count, (v.node c).parent = (v.node d).parent →
    v.nameOf c = v.nameOf d → c = d
  named : ∀ c < v.count, c ≠ v.root → Component (v.nameOf c) ∧ (v.nameOf c).length < vfsNameMax

/-! ## Lookup -/

/-- The child with a name. -/
def Vfs.child (v : Vfs φ) (kids : Nat → List Nat) (n : Nat) (name : CString) : Option Nat :=
  (kids n).find? fun c => v.nameOf c = name

def Vfs.descend (v : Vfs φ) (kids : Nat → List Nat) : Nat → List CString → Option Nat
  | n, [] => some n
  | n, c :: cs => (v.child kids n c).bind fun m => v.descend kids m cs

theorem descend_snoc (n : Nat) (names : List CString) (c : CString) :
    v.descend kids n (names ++ [c]) = (v.descend kids n names).bind fun m => v.child kids m c := by
  induction names generalizing n with
  | nil =>
    simp only [List.nil_append, Vfs.descend, Option.bind_some]
    cases v.child kids n c <;> rfl
  | cons d ds ih =>
    simp only [List.cons_append, Vfs.descend]
    cases v.child kids n d with
    | none => rfl
    | some m => exact ih m

/-- The walk over the siblings finds the first with the name. -/
theorem findChild_eq (name : CString) {h : Option Nat} {xs : List Nat} {fuel : Nat}
    (links : Links (fun c => (v.node c).nextSib) h xs) (enough : xs.length ≤ fuel) :
    findChild name fuel h v = .ok (xs.find? fun c => v.nameOf c = name) v := by
  induction xs generalizing h fuel with
  | nil =>
    obtain rfl : h = none := links
    cases fuel <;> rfl
  | cons x xs ih =>
    obtain ⟨rfl, rest⟩ := links
    obtain ⟨fuel, rfl⟩ := Nat.exists_eq_succ_of_ne_zero (show fuel ≠ 0 by simp at enough; omega)
    rw [List.length_cons] at enough
    refine run_of_wp ?_
    unfold findChild
    rw [wp_bind]
    apply wp_ite
    · intro same
      have found : v.nameOf x = name := same
      rw [List.find?_cons_of_pos (by simpa using found)]
      exact ⟨rfl, rfl⟩
    · intro other
      have next : ¬ v.nameOf x = name := other
      rw [wp_run (ih rest (by omega)), List.find?_cons_of_neg (by simpa using next)]
      exact ⟨rfl, rfl⟩

namespace TreeInv

theorem kids_length (inv : TreeInv v kids) {n : Nat} (lt : n < v.count) :
    (kids n).length ≤ v.count := by
  have subset : kids n ⊆ List.range v.count := by
    intro c member
    exact List.mem_range.mpr ((inv.kid n lt c).mp member).1
  have le := (List.subperm_of_subset (inv.nodup n lt) subset).length_le
  rwa [List.length_range] at le

theorem child_iff (inv : TreeInv v kids) {n c : Nat} (lt : n < v.count) {name : CString} :
    v.child kids n name = some c ↔
      c < v.count ∧ (v.node c).parent = some n ∧ v.nameOf c = name := by
  constructor
  · intro found
    obtain ⟨here, parent⟩ := (inv.kid n lt c).mp (List.mem_of_find?_eq_some found)
    exact ⟨here, parent, by simpa using List.find?_some found⟩
  · rintro ⟨here, parent, named⟩
    have member := (inv.kid n lt c).mpr ⟨here, parent⟩
    have some_ : (v.child kids n name).isSome := by
      rw [Vfs.child, List.find?_isSome]
      exact ⟨c, member, by simpa using named⟩
    obtain ⟨d, found⟩ := Option.isSome_iff_exists.mp some_
    obtain ⟨there, parent'⟩ := (inv.kid n lt d).mp (List.mem_of_find?_eq_some found)
    have named' : v.nameOf d = name := by simpa using List.find?_some found
    rw [found, inv.distinct d there c here (parent'.trans parent.symm) (named'.trans named.symm)]

theorem child_lt (inv : TreeInv v kids) {n c : Nat} (lt : n < v.count) {name : CString}
    (found : v.child kids n name = some c) : c < v.count := ((inv.child_iff lt).mp found).1

theorem descend_iff (inv : TreeInv v kids) {names : List CString} :
    ∀ {n}, v.descend kids v.root names = some n ↔ Spells v n names := by
  induction names using List.reverseRecOn with
  | nil =>
    intro n
    constructor
    · intro here
      obtain rfl := Option.some.inj here
      exact .root
    · intro spells
      generalize empty : [] = names at spells
      cases spells with
      | root => rfl
      | child => exact absurd empty (by simp)
  | append_singleton names c ih =>
    intro n
    have below : ∀ {m}, v.descend kids v.root names = some m → m < v.count := by
      intro m found
      cases ih.mp found with
      | root => exact inv.root.1
      | child _ lt _ => exact lt
    rw [descend_snoc]
    constructor
    · intro found
      obtain ⟨m, upper, last⟩ := Option.bind_eq_some_iff.mp found
      obtain ⟨lt, parent, rfl⟩ := (inv.child_iff (below upper)).mp last
      exact .child (ih.mp upper) lt parent
    · intro spells
      generalize whole : names ++ [c] = all at spells
      cases spells with
      | root => exact absurd whole (by simp)
      | @child m _ front upper lt parent =>
        obtain ⟨rfl, same⟩ := List.append_inj' whole rfl
        obtain rfl := List.singleton_inj.mp same
        have up := ih.mpr upper
        exact Option.bind_eq_some_iff.mpr ⟨m, up, (inv.child_iff (below up)).mpr ⟨lt, parent, rfl⟩⟩

end TreeInv

/-- The names `vfs_lookup` looks for: what stands between the slashes, but for an empty rest at the
end. -/
def pieces (tok : CString) : List CString :=
  let parts := tok.splitOn slash
  if parts.getLast? = some [] then parts.dropLast else parts

theorem pieces_single {c : CString} (clean : slash ∉ c) (nonempty : c ≠ []) : pieces c = [c] := by
  rw [pieces, List.splitOn_eq_singleton clean]
  exact if_neg (by simpa using nonempty)

theorem pieces_cons {c : CString} (clean : slash ∉ c) (rest : CString) :
    pieces (c ++ slash :: rest) = c :: pieces rest := by
  obtain ⟨d, ds, split⟩ := List.exists_cons_of_ne_nil (List.splitOn_ne_nil slash rest)
  simp only [pieces, List.splitOn_append_cons_self_of_not_mem clean, split, List.getLast?_cons_cons,
    List.dropLast_cons_cons]
  split <;> rfl

/-- The first name and the rest. -/
theorem pieces_split {tok : CString} (some_ : tok ≠ []) :
    pieces tok = tok.takeWhile (· ≠ slash) :: match tok.dropWhile (· ≠ slash) with
      | [] => []
      | _ :: rest => pieces rest := by
  have whole := @List.takeWhile_append_dropWhile _ (· ≠ slash) tok
  have clean : slash ∉ tok.takeWhile (· ≠ slash) := by
    intro member
    simpa using List.mem_takeWhile_imp member
  have stop := List.head?_dropWhile_not (fun b => decide (b ≠ slash)) tok
  generalize tok.takeWhile (· ≠ slash) = part at whole clean
  generalize tok.dropWhile (· ≠ slash) = behind at whole stop
  subst whole
  cases behind with
  | nil =>
    rw [List.append_nil] at some_ ⊢
    exact pieces_single clean some_
  | cons b rest =>
    obtain rfl : b = slash := by simpa using stop
    exact pieces_cons clean rest

/-- The path behind the first slash. -/
def tokens : List CString → CString
  | [] => []
  | c :: cs => c ++ cs.flatMap (slash :: ·)

theorem tail_render (names : List CString) : (render names).tail = tokens names := by
  cases names with
  | nil => rfl
  | cons c cs =>
    rw [render_of_ne (by simp), List.flatMap_cons]
    rfl

theorem pieces_tokens {names : List CString} (ok : ∀ c ∈ names, Component c) :
    pieces (tokens names) = names := by
  induction names with
  | nil => rfl
  | cons c cs ih =>
    have component := ok c List.mem_cons_self
    have rest := ih fun d member => ok d (List.mem_cons_of_mem _ member)
    cases cs with
    | nil =>
      rw [tokens, List.flatMap_nil, List.append_nil]
      exact pieces_single component.noSlash component.nonempty
    | cons d ds =>
      rw [tokens, List.flatMap_cons, List.cons_append, pieces_cons component.noSlash]
      exact congrArg _ rest

namespace TreeInv

theorem lookupFrom_eq (inv : TreeInv v kids) :
    ∀ {fuel n : Nat} {tok : CString}, tok.length < fuel → n < v.count →
      lookupFrom fuel n tok v = .ok (v.descend kids n (pieces tok)) v := by
  intro fuel
  induction fuel with
  | zero => exact fun enough => absurd enough (Nat.not_lt_zero _)
  | succ fuel ih =>
    intro n tok enough lt
    refine run_of_wp ?_
    unfold lookupFrom
    by_cases empty : tok = []
    · rw [if_pos empty, empty]
      exact ⟨rfl, rfl⟩
    have found := findChild_eq (tok.takeWhile (· ≠ slash)) (inv.links n lt) (inv.kids_length lt)
    have shorter := (List.dropWhile_sublist (l := tok) (· ≠ slash)).length_le
    rw [if_neg empty, wp_bind, wp_get, wp_bind, wp_run found, pieces_split empty, Vfs.descend,
      Vfs.child]
    cases child : (kids n).find? fun d => v.nameOf d = tok.takeWhile (· ≠ slash) with
    | none => exact ⟨rfl, rfl⟩
    | some m =>
      have below := inv.child_lt lt child
      dsimp only [Option.bind_some]
      cases behind : tok.dropWhile (· ≠ slash) with
      | nil => exact ⟨rfl, rfl⟩
      | cons b rest =>
        rw [behind, List.length_cons] at shorter
        dsimp only
        rw [wp_run (ih (by omega) below)]
        exact ⟨rfl, rfl⟩

/-- `vfs_lookup` of any text. -/
theorem vfsLookup_text (inv : TreeInv v kids) (path : CString) :
    vfsLookup path v =
      if path.head? ≠ some slash then .ok none v
      else if vfsMaxPath - 1 ≤ path.tail.length then .error .unterminated v
      else .ok (v.descend kids v.root (pieces path.tail)) v := by
  unfold vfsLookup
  split
  · rfl
  change (if path.tail = [] then pure (some v.root)
    else if vfsMaxPath - 1 ≤ path.tail.length then throw .unterminated
    else lookupFrom vfsMaxPath v.root path.tail : VfsM φ (Option Nat)) v = _
  by_cases empty : path.tail = []
  · rw [if_pos empty, empty]
    rfl
  rw [if_neg empty]
  split
  · rfl
  rename_i short
  exact inv.lookupFrom_eq (by simp only [vfsMaxPath] at short ⊢; omega) inv.root.1

/-- A lookup that finds a node has gone down to it. -/
theorem lookup_inv (inv : TreeInv v kids) {path : CString} {n : Nat}
    (found : vfsLookup path v = .ok (some n) v) :
    path.head? = some slash ∧ v.descend kids v.root (pieces path.tail) = some n := by
  rw [inv.vfsLookup_text] at found
  by_cases relative : path.head? ≠ some slash
  · rw [if_pos relative] at found
    cases found
  rw [if_neg relative] at found
  split at found
  · cases found
  · injection found with reached
    exact ⟨not_not.mp relative, reached⟩

/-- `vfs_lookup` of a canonical path follows its names from the root. -/
theorem vfsLookup_eq (inv : TreeInv v kids) {names : List CString} (ok : ∀ c ∈ names, Component c)
    (short : (render names).length < vfsMaxPath) :
    vfsLookup (render names) v = .ok (v.descend kids v.root names) v := by
  have pos := List.length_pos_iff.mpr (render_ne_nil names)
  rw [inv.vfsLookup_text, if_neg (by rw [render_head]; simp), List.length_tail, if_neg (by omega),
    tail_render, pieces_tokens ok]

end TreeInv

/-! ## Splitting a path -/

theorem strrchrFrom_clean {c : Byte} {s : CString} (clean : c ∉ s) (i : Nat) (last : Option Nat) :
    strrchrFrom c i last s = last := by
  induction s generalizing i with
  | nil => rfl
  | cons x xs ih =>
    obtain ⟨ne, rest⟩ := List.ne_and_not_mem_of_not_mem_cons clean
    rw [strrchrFrom, if_neg (Ne.symm ne), ih rest]

theorem strrchr_append {c : Byte} {s : CString} (clean : c ∉ s) (pre : CString) :
    strrchr (pre ++ c :: s) c = some pre.length := by
  have all : ∀ i last, strrchrFrom c i last (pre ++ c :: s) = some (i + pre.length) := by
    induction pre with
    | nil =>
      intro i last
      rw [List.nil_append, strrchrFrom, if_pos rfl, strrchrFrom_clean clean]
      simp
    | cons x xs ih =>
      intro i last
      rw [List.cons_append, strrchrFrom, ih, List.length_cons]
      congr 1
      omega
  rw [strrchr, all, Nat.zero_add]

theorem splitParentPath_root : splitParentPath (render []) = none := rfl

theorem splitParentPath_snoc {front : List CString} {c : CString} (ok : ∀ c ∈ front, Component c)
    (last : Component c) (short : (render (front ++ [c])).length < vfsMaxPath) :
    splitParentPath (render (front ++ [c])) =
      if vfsNameMax ≤ c.length then none else some (render front, c) := by
  have nonempty := List.length_pos_iff.mpr last.nonempty
  have tail : (render (front ++ [c])).tail ≠ [] := by
    have all : ∀ d ∈ front ++ [c], Component d := by
      intro d member
      rcases List.mem_append.mp member with old | new
      · exact ok d old
      · obtain rfl := List.mem_singleton.mp new
        exact last
    have long := (one_lt_render all).mpr (by simp)
    intro empty
    have := congrArg List.length empty
    rw [List.length_tail] at this
    simp at this
    omega
  unfold splitParentPath
  rw [if_neg (by rw [render_head]; simp [tail])]
  rw [render_snoc] at short ⊢
  rw [strrchr_append last.noSlash]
  dsimp only
  set pre := if front = [] then [] else render front with pre_eq
  have name : (pre ++ slash :: c).drop (pre.length + 1) = c := by
    rw [← List.drop_drop, List.drop_left]
    rfl
  rw [name]
  by_cases long : vfsNameMax ≤ c.length
  · rw [if_pos (.inr long), if_pos long]
  · rw [if_neg (by omega), if_neg long]
    by_cases none_ : front = []
    · rw [pre_eq, if_pos none_, none_]
      rfl
    · have size : pre = render front := by rw [pre_eq, if_neg none_]
      have pos := List.length_pos_iff.mpr (render_ne_nil front)
      rw [size] at short ⊢
      rw [List.length_append] at short
      rw [if_neg (by omega), if_neg (by simp only [vfsMaxPath] at short ⊢; omega), List.take_left]

/-- The two outcomes of the split. -/
theorem splitParentPath_cases {names : List CString} (ok : ∀ c ∈ names, Component c)
    (short : (render names).length < vfsMaxPath) :
    splitParentPath (render names) = none ∨
      ∃ front c, names = front ++ [c] ∧ (∀ d ∈ front, Component d) ∧ Component c ∧
        c.length < vfsNameMax ∧ (render front).length < vfsMaxPath ∧
        splitParentPath (render names) = some (render front, c) := by
  rcases List.eq_nil_or_concat names with rfl | ⟨front, c, rfl⟩
  · exact .inl splitParentPath_root
  rw [List.concat_eq_append] at short ok ⊢
  have okFront : ∀ d ∈ front, Component d := fun d member => ok d (by simp [member])
  have last : Component c := ok c (by simp)
  have shortFront : (render front).length < vfsMaxPath := by
    rw [render_snoc] at short
    by_cases none_ : front = []
    · rw [none_]
      decide
    · rw [if_neg none_, List.length_append] at short
      omega
  have split := splitParentPath_snoc okFront last short
  by_cases long : vfsNameMax ≤ c.length
  · rw [if_pos long] at split
    exact .inl split
  · rw [if_neg long] at split
    exact .inr ⟨front, c, rfl, okFront, last, by omega, shortFront, split⟩

/-! ## A new node -/

/-- The table with a new node, which gets the number `v.count`, below `p`. -/
def Vfs.grown (v : Vfs φ) (p : Nat) (name : CString) (type : VnodeType) (table : VfsOps) (fresh : φ) :
    Vfs φ :=
  { v with
    node := linkChild (Function.update v.node v.count (newVnode v (some p) name type table)) (some p)
      v.count
    file := Function.update v.file v.count fresh
    count := v.count + 1 }

variable {ops : FileOps φ} {mem : Alloc} {p : Nat} {name : CString} {type : VnodeType} {table : VfsOps}
  {fresh : φ}

theorem vnodeCreate_eq (yes : mem.vnode = true) :
    vnodeCreate ops mem (some p) name type table v =
      .ok (some v.count) (v.grown p name type table ops.fresh) := by
  unfold vnodeCreate
  rw [if_pos yes]
  rfl

theorem vnodeCreate_null (no : mem.vnode = false) {parent : Option Nat} :
    vnodeCreate ops mem parent name type table v = .ok none v := by
  unfold vnodeCreate
  rw [if_neg (by simp [no])]
  rfl

/-- Nodes keep their name, type and place. -/
structure Extends (v v' : Vfs φ) : Prop where
  count : v.count ≤ v'.count
  root : v'.root = v.root
  name : ∀ n < v.count, (v'.node n).name = (v.node n).name
  type : ∀ n < v.count, (v'.node n).type = (v.node n).type
  ops : ∀ n < v.count, (v'.node n).ops = (v.node n).ops
  parent : ∀ n < v.count, (v'.node n).parent = (v.node n).parent

theorem Extends.refl (v : Vfs φ) : Extends v v :=
  ⟨le_refl _, rfl, fun _ _ => rfl, fun _ _ => rfl, fun _ _ => rfl, fun _ _ => rfl⟩

theorem Extends.trans {w : Vfs φ} (first : Extends v v') (second : Extends v' w) : Extends v w where
  count := le_trans first.count second.count
  root := second.root.trans first.root
  name n lt := (second.name n (lt_of_lt_of_le lt first.count)).trans (first.name n lt)
  type n lt := (second.type n (lt_of_lt_of_le lt first.count)).trans (first.type n lt)
  ops n lt := (second.ops n (lt_of_lt_of_le lt first.count)).trans (first.ops n lt)
  parent n lt := (second.parent n (lt_of_lt_of_le lt first.count)).trans (first.parent n lt)

theorem Extends.nameOf (ext : Extends v v') {n : Nat} (lt : n < v.count) : v'.nameOf n = v.nameOf n := by
  rw [Vfs.nameOf, ext.name n lt, Vfs.nameOf]

theorem grown_new (lt : p < v.count) :
    (v.grown p name type table fresh).node v.count = newVnode v (some p) name type table := by
  have ne : v.count ≠ p := by omega
  change Function.update _ p _ v.count = _
  rw [Function.update_of_ne ne, Function.update_self]

theorem grown_other {n : Nat} (lt : n < v.count) (ne : n ≠ p) :
    (v.grown p name type table fresh).node n = v.node n := by
  change Function.update _ p _ n = _
  rw [Function.update_of_ne ne, Function.update_of_ne (by omega)]

theorem grown_parent (lt : p < v.count) :
    (v.grown p name type table fresh).node p = { v.node p with children := some v.count } := by
  have ne : p ≠ v.count := by omega
  change Function.update _ p _ p = _
  rw [Function.update_self, Function.update_of_ne ne]

theorem grown_extends (lt : p < v.count) : Extends v (v.grown p name type table fresh) := by
  have old : ∀ n < v.count, ∃ c, (v.grown p name type table fresh).node n =
      { v.node n with children := c } := by
    intro n below
    by_cases here : n = p
    · exact ⟨_, by rw [here]; exact grown_parent lt⟩
    · exact ⟨(v.node n).children, grown_other below here⟩
  refine ⟨Nat.le_succ _, rfl, ?_, ?_, ?_, ?_⟩ <;>
  · intro n below
    obtain ⟨c, same⟩ := old n below
    rw [same]

theorem grown_nextSib (lt : p < v.count) {n : Nat} (below : n < v.count) :
    ((v.grown p name type table fresh).node n).nextSib = (v.node n).nextSib := by
  by_cases here : n = p
  · rw [here, grown_parent lt]
  · rw [grown_other below here]

theorem grown_nameOf (lt : p < v.count) (clean : 0#8 ∉ name) (short : name.length < vfsNameMax) :
    (v.grown p name type table fresh).nameOf v.count = name := by
  rw [Vfs.nameOf, grown_new lt]
  refine (cstr_strncpy clean ?_ ?_).1
  · simp only [vfsNameMax] at short ⊢
    omega
  · intro _
    rfl

namespace TreeInv

/-- A node is added whose name is not taken. -/
theorem grown (inv : TreeInv v kids) (lt : p < v.count) (dir : (v.node p).type = .dir)
    (component : Component name) (short : name.length < vfsNameMax)
    (free : v.child kids p name = none) :
    TreeInv (v.grown p name type table fresh)
      (Function.update (Function.update kids v.count []) p (v.count :: kids p)) := by
  have ext : Extends v (v.grown p name type table fresh) := grown_extends lt
  have newNode := @grown_new φ v p name type table fresh lt
  have named := @grown_nameOf φ v p name type table fresh lt component.noNul short
  have split : ∀ n, n < (v.grown p name type table fresh).count → n < v.count ∨ n = v.count := by
    intro n below
    have : n < v.count + 1 := below
    omega
  have old : ∀ {n}, n < v.count → n ≠ p →
      Function.update (Function.update kids v.count []) p (v.count :: kids p) n = kids n := by
    intro n below ne
    rw [Function.update_of_ne ne, Function.update_of_ne (by omega)]
  have fresh_ : ∀ {n}, n < v.count → v.count ∉ kids n := by
    intro n below member
    exact absurd ((inv.kid n below _).mp member).1 (by omega)
  have sameLinks : ∀ {n h}, n < v.count → Links (fun c => (v.node c).nextSib) h (kids n) →
      Links (fun c => ((v.grown p name type table fresh).node c).nextSib) h (kids n) := by
    intro n h below links
    exact links.congr fun c member => grown_nextSib lt ((inv.kid n below c).mp member).1
  refine ⟨⟨?_, ?_, ?_⟩, ?_, ?_, ?_, ?_, ?_, ?_⟩
  · exact Nat.lt_succ_of_lt inv.root.1
  · rw [ext.root, ext.parent _ inv.root.1]
    exact inv.root.2.1
  · rw [ext.root, ext.type _ inv.root.1]
    exact inv.root.2.2
  · intro n below
    rcases split n below with below | rfl
    · by_cases here : n = p
      · subst here
        rw [Function.update_self, grown_parent lt]
        refine ⟨rfl, ?_⟩
        dsimp only
        rw [newNode]
        exact sameLinks lt (inv.links n lt)
      · rw [old below here, grown_other below here]
        exact sameLinks below (inv.links n below)
    · rw [newNode, Function.update_of_ne (by omega), Function.update_self]
      rfl
  · intro n below
    rcases split n below with below | rfl
    · by_cases here : n = p
      · subst here
        rw [Function.update_self]
        exact List.nodup_cons.mpr ⟨fresh_ lt, inv.nodup n lt⟩
      · rw [old below here]
        exact inv.nodup n below
    · rw [Function.update_of_ne (by omega), Function.update_self]
      exact List.nodup_nil
  · intro n below c
    have below' := split n below
    constructor
    · intro member
      by_cases here : n = p
      · rw [here, Function.update_self] at member
        rcases List.mem_cons.mp member with rfl | member
        · refine ⟨Nat.lt_succ_self _, ?_⟩
          rw [newNode, here]
          rfl
        · obtain ⟨there, parent⟩ := (inv.kid p lt c).mp member
          refine ⟨Nat.lt_succ_of_lt there, ?_⟩
          rw [ext.parent c there, parent, here]
      · rcases below' with below' | rfl
        · rw [old below' here] at member
          obtain ⟨there, parent⟩ := (inv.kid n below' c).mp member
          exact ⟨Nat.lt_succ_of_lt there, (ext.parent c there).trans parent⟩
        · rw [Function.update_of_ne here, Function.update_self] at member
          cases member
    · rintro ⟨there, parent⟩
      rcases split c there with known | rfl
      · rw [ext.parent c known] at parent
        have notNew : n ≠ v.count := by
          rintro rfl
          have notRoot : c ≠ v.root := by
            rintro rfl
            rw [inv.root.2.1] at parent
            cases parent
          obtain ⟨q, low, same, _⟩ := inv.parent c known notRoot
          rw [parent] at same
          obtain rfl := Option.some.inj same
          omega
        have lower : n < v.count := below'.resolve_right notNew
        by_cases here : n = p
        · subst here
          rw [Function.update_self]
          exact List.mem_cons_of_mem _ ((inv.kid n lt c).mpr ⟨known, parent⟩)
        · rw [old lower here]
          exact (inv.kid n lower c).mpr ⟨known, parent⟩
      · rw [newNode] at parent
        obtain rfl : p = n := Option.some.inj parent
        rw [Function.update_self]
        exact List.mem_cons_self
  · intro c there notRoot
    rcases split c there with there | rfl
    · obtain ⟨q, low, parent, isDir⟩ := inv.parent c there notRoot
      exact ⟨q, low, (ext.parent c there).trans parent, (ext.type q (by omega)).trans isDir⟩
    · refine ⟨p, lt, ?_, (ext.type p lt).trans dir⟩
      rw [newNode]
      rfl
  · have clash : ∀ d < v.count, (v.node d).parent = some p → v.nameOf d = name → False := by
      intro d below parent same
      rw [(inv.child_iff lt).mpr ⟨below, parent, same⟩] at free
      cases free
    have newParent : ((v.grown p name type table fresh).node v.count).parent = some p := by
      rw [newNode]
      rfl
    intro c cLt d dLt parents names
    rcases split c cLt with cLt | rfl <;> rcases split d dLt with dLt | rfl
    · rw [ext.parent c cLt, ext.parent d dLt] at parents
      rw [ext.nameOf cLt, ext.nameOf dLt] at names
      exact inv.distinct c cLt d dLt parents names
    · rw [ext.parent c cLt, newParent] at parents
      rw [ext.nameOf cLt, named] at names
      exact (clash c cLt parents names).elim
    · rw [ext.parent d dLt, newParent] at parents
      rw [ext.nameOf dLt, named] at names
      exact (clash d dLt parents.symm names.symm).elim
    · rfl
  · intro c there notRoot
    rcases split c there with there | rfl
    · rw [ext.nameOf there]
      exact inv.named c there notRoot
    · rw [named]
      exact ⟨component, short⟩

end TreeInv

/-! ## The functions keep the tree -/

/-- What a function leaves of the tree. -/
def Kept (v v' : Vfs φ) : Prop := (∃ kids, TreeInv v' kids) ∧ Extends v v'

/-- Only files have changed. -/
structure SameTree (v v' : Vfs φ) : Prop where
  node : v'.node = v.node
  count : v'.count = v.count
  root : v'.root = v.root

theorem TreeInv.same (inv : TreeInv v kids) (same : SameTree v v') : TreeInv v' kids := by
  obtain ⟨node, file, count, root⟩ := v'
  obtain ⟨rfl, rfl, rfl⟩ := same
  exact ⟨inv.root, inv.links, inv.nodup, inv.kid, inv.parent, inv.distinct, inv.named⟩

theorem SameTree.extends (same : SameTree v v') : Extends v v' := by
  obtain ⟨node, file, count, root⟩ := v'
  obtain ⟨rfl, rfl, rfl⟩ := same
  exact ⟨le_refl _, rfl, fun _ _ => rfl, fun _ _ => rfl, fun _ _ => rfl, fun _ _ => rfl⟩

theorem TreeInv.kept (inv : TreeInv v kids) : Kept v v := ⟨⟨kids, inv⟩, Extends.refl v⟩

theorem Kept.trans {w : Vfs φ} (first : Kept v v') (second : Kept v' w) : Kept v w :=
  ⟨second.1, first.2.trans second.2⟩

/-- The table's `write` stays inside its buffers. -/
def FileOps.Safe (ops : FileOps φ) : Prop :=
  ∀ mem file buf off, ∃ r, ops.write mem file buf off = .ok r

theorem onFile_same {n : Nat} {f : φ → Except VfsHalt (Option Nat × φ)}
    (total : ∀ file, ∃ r, f file = .ok r) (halt : VfsHalt → Vfs φ → Prop) :
    wp (onFile n f) (fun _ v' => SameTree v v') halt v := by
  obtain ⟨⟨r, file⟩, done⟩ := total (v.file n)
  unfold onFile
  rw [wp_bind, wp_get, done]
  exact ⟨rfl, rfl, rfl⟩

theorem TreeInv.fillFile (inv : TreeInv v kids) (safe : ops.Safe) {n size : Nat}
    {data : Option (List Byte)} {halt : VfsHalt → Vfs φ → Prop} :
    wp (fillFile ops mem n data size) (fun _ v' => Kept v v') halt v := by
  unfold Fs.fillFile
  refine wp_seq (onFile_same (fun file => ⟨_, rfl⟩) halt) ?_
  intro _ w same
  have kept : Kept v w := ⟨⟨kids, inv.same same⟩, same.extends⟩
  apply wp_ite
  · exact fun _ => kept
  · intro _
    cases data with
    | none => exact kept
    | some bytes =>
      refine wp_seq (onFile_same (fun file => safe _ _ _ _) halt) ?_
      intro _ w' same'
      have after : Kept v w' :=
        kept.trans ⟨⟨kids, (inv.same same).same same'⟩, same'.extends⟩
      exact wp_ite (fun _ => after) (fun _ => after)

/-- The parent of a path whose lookup fails, if it is a directory, has no child of that name. -/
theorem TreeInv.child_free {front : List CString} {c : CString}
    (missing : v.descend kids v.root (front ++ [c]) = none)
    (found : v.descend kids v.root front = some p) : v.child kids p c = none := by
  rw [descend_snoc, found] at missing
  exact missing

theorem TreeInv.descend_lt (inv : TreeInv v kids) {names : List CString} {n : Nat}
    (found : v.descend kids v.root names = some n) : n < v.count := by
  cases inv.descend_iff.mp found with
  | root => exact inv.root.1
  | child _ lt _ => exact lt

section Canonical

variable {path : CString} (canonical : Canonical path) {halt : VfsHalt → Vfs φ → Prop}

include canonical

theorem TreeInv.mkdir (inv : TreeInv v kids) :
    wp (vfsMkdir ops mem path) (fun _ v' => Kept v v') halt v := by
  obtain ⟨short, names, ok, rfl⟩ := canonical
  unfold vfsMkdir
  rw [wp_bind, wp_run (inv.vfsLookup_eq ok short)]
  cases found : v.descend kids v.root names with
  | some n =>
    rw [wp_bind, wp_get]
    exact wp_ite (fun _ => inv.kept) (fun _ => inv.kept)
  | none =>
    rcases splitParentPath_cases ok short with split | ⟨front, c, rfl, okFront, last, fits, up, split⟩
    · rw [split]
      exact inv.kept
    rw [split]
    dsimp only
    rw [wp_bind, wp_run (inv.vfsLookup_eq okFront up)]
    cases upper : v.descend kids v.root front with
    | none => exact inv.kept
    | some parent =>
      dsimp only
      rw [wp_bind, wp_get]
      apply wp_ite
      · exact fun _ => inv.kept
      · intro dir
        have lt := inv.descend_lt upper
        cases yes : mem.vnode with
        | false =>
          rw [wp_bind, wp_run (vnodeCreate_null yes)]
          exact inv.kept
        | true =>
          rw [wp_bind, wp_run (vnodeCreate_eq yes)]
          exact ⟨⟨_, inv.grown lt (by simpa using dir) last fits (TreeInv.child_free found upper)⟩,
            grown_extends lt⟩

theorem TreeInv.createFile (inv : TreeInv v kids) (safe : ops.Safe) {data : Option (List Byte)}
    {size : Nat} : wp (vfsCreateFile ops mem path data size) (fun _ v' => Kept v v') halt v := by
  obtain ⟨short, names, ok, rfl⟩ := canonical
  unfold vfsCreateFile
  rcases splitParentPath_cases ok short with split | ⟨front, c, rfl, okFront, last, fits, up, split⟩
  · rw [split]
    exact inv.kept
  rw [split]
  dsimp only
  rw [wp_bind, wp_run (inv.vfsLookup_eq okFront up)]
  cases upper : v.descend kids v.root front with
  | none => exact inv.kept
  | some parent =>
    dsimp only
    rw [wp_bind, wp_get]
    apply wp_ite
    · exact fun _ => inv.kept
    · intro dir
      have lt := inv.descend_lt upper
      rw [wp_bind, wp_run (inv.vfsLookup_eq ok short)]
      cases found : v.descend kids v.root (front ++ [c]) with
      | some n =>
        rw [wp_bind, wp_get]
        exact wp_ite (fun _ => inv.kept) (fun _ => inv.fillFile safe)
      | none =>
        dsimp only
        cases yes : mem.vnode with
        | false =>
          rw [wp_bind, wp_run (vnodeCreate_null yes)]
          exact inv.kept
        | true =>
          rw [wp_bind, wp_run (vnodeCreate_eq yes)]
          have grown : TreeInv (v.grown parent c .file .tmpfsFile ops.fresh) _ :=
            inv.grown lt (by simpa using dir) last fits (TreeInv.child_free found upper)
          refine wp_imp (grown.fillFile safe) ?_
          intro _ v' after
          exact ⟨after.1, (grown_extends lt).trans after.2⟩

end Canonical

/-! ## The tree at boot -/

/-- While `vfs_init` runs, no name is used twice at all. -/
structure InitInv (v : Vfs φ) (taken : List CString) : Prop where
  tree : ∃ kids, TreeInv v kids
  names : ∀ n < v.count, v.nameOf n ∈ taken

theorem InitInv.create {taken : List CString} (inv : InitInv v taken) (yes : mem.vnode = true)
    (lt : p < v.count) (dir : (v.node p).type = .dir) (component : Component name)
    (short : name.length < vfsNameMax) (new : name ∉ taken) {halt : VfsHalt → Vfs φ → Prop} :
    wp (vnodeCreate ops mem (some p) name type table)
      (fun r v' => r = some v.count ∧ v'.count = v.count + 1 ∧ (v'.node v.count).type = type ∧
        InitInv v' (name :: taken) ∧ Extends v v') halt v := by
  obtain ⟨kids, tree⟩ := inv.tree
  have free : v.child kids p name = none := by
    rw [Vfs.child, List.find?_eq_none]
    intro c member
    have known := inv.names c ((tree.kid p lt c).mp member).1
    have ne : v.nameOf c ≠ name := by
      rintro rfl
      exact new known
    simpa using ne
  have ext : Extends v (v.grown p name type table ops.fresh) := grown_extends lt
  rw [wp_run (vnodeCreate_eq yes)]
  refine ⟨rfl, rfl, ?_, ⟨⟨_, tree.grown lt dir component short free⟩, ?_⟩, ext⟩
  · rw [grown_new lt]
    rfl
  · intro n below
    by_cases old : n < v.count
    · rw [ext.nameOf old]
      exact List.mem_cons_of_mem _ (inv.names n old)
    · obtain rfl : n = v.count := by
        have : n < v.count + 1 := below
        omega
      rw [grown_nameOf lt component.noNul short]
      exact List.mem_cons_self

theorem InitInv.same {taken : List CString} (inv : InitInv v taken) (same : SameTree v v') :
    InitInv v' taken := by
  obtain ⟨kids, tree⟩ := inv.tree
  refine ⟨⟨kids, tree.same same⟩, ?_⟩
  intro n lt
  rw [same.count] at lt
  rw [same.extends.nameOf lt]
  exact inv.names n lt

theorem InitInv.file {taken : List CString} {word : List Char} {text : List Byte}
    (inv : InitInv v taken) (safe : ops.Safe) (yes : mem.vnode = true) (lt : p < v.count)
    (dir : (v.node p).type = .dir) (component : Component (asciiBytes word))
    (short : (asciiBytes word).length < vfsNameMax) (new : asciiBytes word ∉ taken)
    {halt : VfsHalt → Vfs φ → Prop} :
    wp (initFile ops mem (some p) word text)
      (fun _ v' => v'.count = v.count + 1 ∧ InitInv v' (asciiBytes word :: taken) ∧ Extends v v')
      halt v := by
  unfold initFile
  refine wp_seq (inv.create yes lt dir component short new) ?_
  rintro _ w ⟨rfl, count, _, after, ext⟩
  refine wp_seq (onFile_same (fun file => safe _ _ _ _) halt) ?_
  intro _ w' same
  exact ⟨same.count.trans count, after.same same, ext.trans same.extends⟩

theorem vfsEmpty_tree (ops : FileOps φ) : TreeInv (vfsEmpty ops) fun _ => [] := by
  refine ⟨⟨Nat.one_pos, rfl, rfl⟩, fun _ _ => rfl, by simp, ?_, ?_, ?_, ?_⟩
  · intro n _ c
    constructor
    · intro member
      cases member
    · rintro ⟨_, parent⟩
      cases parent
  · intro c lt notRoot
    exact absurd (Nat.lt_one_iff.mp lt) notRoot
  · intro c cLt d dLt _ _
    exact (Nat.lt_one_iff.mp cLt).trans (Nat.lt_one_iff.mp dLt).symm
  · intro c lt notRoot
    exact absurd (Nat.lt_one_iff.mp lt) notRoot

theorem vfsEmpty_init (ops : FileOps φ) : InitInv (vfsEmpty ops) [[slash]] := by
  refine ⟨⟨_, vfsEmpty_tree ops⟩, ?_⟩
  intro n _
  rw [List.mem_singleton]
  change cstr rootNode.name = [slash]
  decide

/-- The tree `vfs_init` leaves. -/
theorem vfsInit_tree (safe : ops.Safe) (motd : List Byte) :
    wp (vfsInit ops mem motd) (fun _ v' => ∃ kids, TreeInv v' kids) (fun _ _ => True)
      (vfsEmpty ops) := by
  unfold vfsInit
  rw [wp_bind, wp_get]
  cases yes : mem.vnode with
  | false =>
    -- the first file is used although it is `NULL`
    iterate 5 rw [wp_bind, wp_run (vnodeCreate_null yes)]
    rw [wp_bind]
    unfold initFile
    rw [wp_bind, wp_run (vnodeCreate_null yes)]
    trivial
  | true =>
    have start := vfsEmpty_init ops
    have one : (vfsEmpty ops).count = 1 := rfl
    refine wp_seq (start.create yes Nat.one_pos rfl (by decide) (by decide) (by decide)) ?_
    rintro _ v₁ ⟨rfl, c₁, dev₁, i₁, e₁⟩
    refine wp_seq (i₁.create yes (by omega) dev₁ (by decide) (by decide) (by decide)) ?_
    rintro _ v₂ ⟨-, c₂, -, i₂, e₂⟩
    have dev₂ := (e₂.type _ (by omega)).trans dev₁
    refine wp_seq (i₂.create yes (by omega) dev₂ (by decide) (by decide) (by decide)) ?_
    rintro _ v₃ ⟨-, c₃, -, i₃, e₃⟩
    have dev₃ := (e₃.type _ (by omega)).trans dev₂
    refine wp_seq (i₃.create yes (by omega) dev₃ (by decide) (by decide) (by decide)) ?_
    rintro _ v₄ ⟨-, c₄, -, i₄, e₄⟩
    have e₀₄ := ((e₁.trans e₂).trans e₃).trans e₄
    refine wp_seq (i₄.create yes (by omega) (e₀₄.type 0 Nat.one_pos) (by decide)
      (by decide) (by decide)) ?_
    rintro _ v₅ ⟨rfl, c₅, etc₅, i₅, e₅⟩
    refine wp_seq (i₅.file safe yes (by omega) etc₅ (by decide) (by decide) (by decide)) ?_
    rintro _ v₆ ⟨c₆, i₆, e₆⟩
    have etc₆ := (e₆.type _ (by omega)).trans etc₅
    refine wp_seq (i₆.file safe yes (by omega) etc₆ (by decide) (by decide) (by decide)) ?_
    rintro _ v₇ ⟨c₇, i₇, e₇⟩
    have e₀₇ := ((e₀₄.trans e₅).trans e₆).trans e₇
    refine wp_seq (i₇.create yes (by omega) (e₀₇.type 0 Nat.one_pos) (by decide)
      (by decide) (by decide)) ?_
    rintro _ v₈ ⟨-, c₈, -, i₈, e₈⟩
    refine wp_seq (i₈.create yes (by omega) ((e₀₇.trans e₈).type 0 Nat.one_pos)
      (by decide) (by decide) (by decide)) ?_
    rintro _ v₉ ⟨-, -, -, i₉, -⟩
    exact i₉.tree

end LithiumKernel.Fs
