import Mathlib.Data.Set.Card
import Mathlib.Logic.Function.Basic

/-!
# Reference-counted forests of fixed-depth radix trees

Frames hold arrays of words; a word is either empty or names another frame. Some
frames are tables of a forest: each belongs to an owner and sits at a path of
indices below that owner's base table, innermost index first. Tables at full depth
hold leaves, and a leaf names a frame that is not a table.

The ghost part says which frames are tables, what the leaves are (by owner and path,
independent of where the tables lie) and how many references are held outside the
forest. `WF` ties it to the words and to a counter per frame: one for being a table,
one for each leaf that names the frame, and the outside references. The lemmas
after it are the elementary moves a table manager is made of.
-/
namespace LithiumKernel.Lib.Forest

/-- How words are read and which slots of a table belong to the forest. Slots that
are not owned may hold anything. -/
structure Layout (O Idx W : Type) where
  depth : Nat
  empty : W
  target : W → Nat
  linkOk : W → Prop
  leafOk : O → W → Prop
  owns : O → List Idx → Idx → Prop
  base : O → List Idx
  baseFrame : O → Nat

structure Ghost (O Idx W : Type) where
  role : Nat → Option (O × List Idx)
  leaf : O × List Idx → W
  ext : Nat → Nat

variable {O Idx W : Type}

section Store

variable [DecidableEq Idx]

/-- Overwrite one slot of one frame. -/
def store (mem : Nat → Idx → W) (t : Nat) (i : Idx) (w : W) : Nat → Idx → W :=
  fun f j => if f = t ∧ j = i then w else mem f j

@[simp] theorem store_same (mem : Nat → Idx → W) (t : Nat) (i : Idx) (w : W) :
    store mem t i w t i = w := by simp [store]

theorem store_of_ne (mem : Nat → Idx → W) {t f : Nat} {i j : Idx} (w : W)
    (h : ¬ (f = t ∧ j = i)) : store mem t i w f j = mem f j := by simp [store, h]

theorem store_frame (mem : Nat → Idx → W) {t f : Nat} (i : Idx) (w : W) (h : f ≠ t) :
    store mem t i w f = mem f := by
  funext j
  exact store_of_ne mem w (fun both => h both.1)

theorem store_eq_update (mem : Nat → Idx → W) (t : Nat) (i : Idx) (w : W) :
    store mem t i w = Function.update mem t (Function.update (mem t) i w) := by
  funext f j
  by_cases here : f = t
  · subst here
    by_cases slot : j = i <;> simp [store, slot]
  · rw [store_frame mem i w here, Function.update_of_ne here]

theorem eq_of_store_ne {mem : Nat → Idx → W} {t f : Nat} {i j : Idx} {w : W}
    (h : store mem t i w f j ≠ mem f j) : f = t ∧ j = i := by
  by_contra off
  exact h (store_of_ne mem w off)

theorem store_eq_self {mem : Nat → Idx → W} {t : Nat} {i : Idx} {w : W} (h : mem t i = w) :
    store mem t i w = mem := by
  funext f j
  by_cases here : f = t ∧ j = i
  · obtain ⟨rfl, rfl⟩ := here
    rw [store_same, h]
  · exact store_of_ne mem w here

theorem store_comm (mem : Nat → Idx → W) {t t' : Nat} (i j : Idx) (v w : W) (h : t ≠ t') :
    store (store mem t i v) t' j w = store (store mem t' j w) t i v := by
  funext f l
  by_cases here : f = t
  · subst here
    rw [store_frame _ j w h]
    by_cases slot : l = i <;> simp [store, h, slot]
  · rw [store_frame _ i v here]
    by_cases there : f = t' ∧ l = j <;> simp [store, here, there]

@[simp] theorem store_store (mem : Nat → Idx → W) (t : Nat) (i : Idx) (v w : W) :
    store (store mem t i v) t i w = store mem t i w := by
  funext f j
  by_cases h : f = t ∧ j = i <;> simp [store, h]

end Store

namespace Layout

variable (L : Layout O Idx W)

/-- The leaves that name frame `f`. -/
def refSet (leaf : O × List Idx → W) (f : Nat) : Set (O × List Idx) :=
  {x | leaf x ≠ L.empty ∧ L.target (leaf x) = f}

noncomputable def leafRefs (leaf : O × List Idx → W) (f : Nat) : Nat := (L.refSet leaf f).ncard

/-- One when the frame is a table of the forest. -/
def tableRef (role : Nat → Option (O × List Idx)) (f : Nat) : Nat := (role f).isSome.toNat

/-- The forest invariant over `bound` frames with reference counts `rc`. -/
structure WF (bound : Nat) (rc : Nat → Nat) (mem : Nat → Idx → W) (g : Ghost O Idx W) : Prop where
  depth_le : ∀ {t o p}, g.role t = some (o, p) → p.length ≤ L.depth
  table_lt : ∀ {t o p}, g.role t = some (o, p) → t < bound
  link : ∀ {t o p i}, g.role t = some (o, p) → p.length < L.depth → L.owns o p i →
    mem t i ≠ L.empty →
    L.linkOk (mem t i) ∧ g.role (L.target (mem t i)) = some (o, i :: p)
  base_frame : ∀ {t o}, g.role t = some (o, L.base o) → t = L.baseFrame o
  back : ∀ {f o q}, g.role f = some (o, q) → q ≠ L.base o →
    ∃ i p t, q = i :: p ∧ g.role t = some (o, p) ∧ L.owns o p i ∧
      mem t i ≠ L.empty ∧ L.target (mem t i) = f
  leaf_mem : ∀ {t o p i}, g.role t = some (o, p) → p.length = L.depth → L.owns o p i →
    g.leaf (o, i :: p) = mem t i
  leaf_table : ∀ {o q}, g.leaf (o, q) ≠ L.empty →
    ∃ i p t, q = i :: p ∧ g.role t = some (o, p) ∧ p.length = L.depth ∧ L.owns o p i
  leaf : ∀ {x}, g.leaf x ≠ L.empty → L.leafOk x.1 (g.leaf x) ∧ L.target (g.leaf x) < bound ∧
    g.role (L.target (g.leaf x)) = none
  finite : {x | g.leaf x ≠ L.empty}.Finite
  count : ∀ f, f < bound → rc f = tableRef g.role f + L.leafRefs g.leaf f + g.ext f
  table_ext : ∀ {t o p}, g.role t = some (o, p) → g.ext t = 0

/-- An owner whose base table exists. -/
def Live (g : Ghost O Idx W) (o : O) : Prop := g.role (L.baseFrame o) = some (o, L.base o)

variable {L}

section Counting

/-- Sets that agree outside one element count alike up to that element. -/
private theorem ncard_point {α : Type} {S T : Set α} (x : α) [Decidable (x ∈ S)]
    [Decidable (x ∈ T)] (finS : S.Finite) (finT : T.Finite) (agree : S \ {x} = T \ {x}) :
    T.ncard + (if x ∈ S then 1 else 0) = S.ncard + (if x ∈ T then 1 else 0) := by
  have split : ∀ {U : Set α} [Decidable (x ∈ U)], U.Finite →
      U.ncard = (U \ {x}).ncard + (if x ∈ U then 1 else 0) := by
    intro U _ fin
    by_cases member : x ∈ U
    · rw [if_pos member, Set.ncard_sdiff_singleton_add_one member fin]
    · rw [if_neg member, Set.sdiff_singleton_eq_self member, Nat.add_zero]
  rw [split finS, split finT, agree]
  omega

variable [DecidableEq O] [DecidableEq Idx] [DecidableEq W]

theorem leafRefs_update {leaf : O × List Idx → W} (fin : {x | leaf x ≠ L.empty}.Finite)
    (x : O × List Idx) (w : W) (f : Nat) :
    L.leafRefs (Function.update leaf x w) f +
        (if leaf x ≠ L.empty ∧ L.target (leaf x) = f then 1 else 0) =
      L.leafRefs leaf f + (if w ≠ L.empty ∧ L.target w = f then 1 else 0) := by
  have finS : (L.refSet leaf f).Finite := fin.subset (fun y hy => hy.1)
  have finT : (L.refSet (Function.update leaf x w) f).Finite := by
    apply (fin.insert x).subset
    intro y hy
    by_cases here : y = x
    · exact .inl here
    · rw [refSet, Set.mem_ofPred_eq, Function.update_of_ne here] at hy
      exact .inr hy.1
  have agree : L.refSet leaf f \ {x} = L.refSet (Function.update leaf x w) f \ {x} := by
    ext y
    simp only [Set.mem_sdiff, Set.mem_singleton_iff, refSet, Set.mem_ofPred_eq]
    by_cases here : y = x
    · simp [here]
    · simp [here]
  have inS : x ∈ L.refSet leaf f ↔ leaf x ≠ L.empty ∧ L.target (leaf x) = f := Iff.rfl
  have inT : x ∈ L.refSet (Function.update leaf x w) f ↔ w ≠ L.empty ∧ L.target w = f := by
    rw [refSet, Set.mem_ofPred_eq, Function.update_self]
  have := decidable_of_iff _ inS.symm
  have := decidable_of_iff _ inT.symm
  have point := ncard_point x finS finT agree
  simp only [inS, inT] at point
  exact point

end Counting

theorem finite_update [DecidableEq O] [DecidableEq Idx] {leaf : O × List Idx → W}
    (fin : {x | leaf x ≠ L.empty}.Finite) (x : O × List Idx) (w : W) :
    {y | Function.update leaf x w y ≠ L.empty}.Finite := by
  apply (fin.insert x).subset
  intro y hy
  by_cases here : y = x
  · exact .inl here
  · rw [Set.mem_ofPred_eq, Function.update_of_ne here] at hy
    exact .inr hy

variable {bound : Nat} {rc rc' : Nat → Nat} {mem mem' : Nat → Idx → W} {g : Ghost O Idx W}

namespace WF

/-- Before the first table every reference is held outside. -/
theorem nil (L : Layout O Idx W) (bound : Nat) (rc : Nat → Nat) (mem : Nat → Idx → W) :
    L.WF bound rc mem ⟨fun _ => none, fun _ => L.empty, rc⟩ where
  depth_le := by simp
  table_lt := by simp
  link := by simp
  base_frame := by simp
  back := by simp
  leaf_mem := by simp
  leaf_table := by simp
  leaf := by simp
  finite := by simp
  count := by
    intro f _
    simp [tableRef, leafRefs, refSet]
  table_ext := by simp

/-! ## Reading the invariant -/

/-- Paths identify tables. -/
theorem unique (h : L.WF bound rc mem g) {o : O} : ∀ {p : List Idx} {t t' : Nat},
    g.role t = some (o, p) → g.role t' = some (o, p) → t = t' := by
  intro p
  induction p with
  | nil =>
    intro t t' ht ht'
    by_cases root : [] = L.base o
    · rw [root] at ht ht'
      exact (h.base_frame ht).trans (h.base_frame ht').symm
    · obtain ⟨i, p, _, absurd_eq, _⟩ := h.back ht root
      cases absurd_eq
  | cons i p ih =>
    intro t t' ht ht'
    by_cases root : i :: p = L.base o
    · rw [root] at ht ht'
      exact (h.base_frame ht).trans (h.base_frame ht').symm
    · obtain ⟨i₁, p₁, u, eq, hu, _, _, target⟩ := h.back ht root
      obtain ⟨i₂, p₂, u', eq', hu', _, _, target'⟩ := h.back ht' root
      obtain ⟨rfl, rfl⟩ := List.cons.inj eq
      obtain ⟨rfl, rfl⟩ := List.cons.inj eq'
      rw [← target, ← target', ih hu hu']

/-- Every table hangs below a base table. -/
theorem live_of_role (h : L.WF bound rc mem g) {o : O} : ∀ {p : List Idx} {t : Nat},
    g.role t = some (o, p) → L.Live g o := by
  intro p
  induction p with
  | nil =>
    intro t role
    by_cases root : [] = L.base o
    · rw [root] at role
      rwa [Live, ← h.base_frame role]
    · obtain ⟨i, p, _, absurd_eq, _⟩ := h.back role root
      cases absurd_eq
  | cons i p ih =>
    intro t role
    by_cases root : i :: p = L.base o
    · rw [root] at role
      rwa [Live, ← h.base_frame role]
    · obtain ⟨_, _, u, eq, up, _⟩ := h.back role root
      obtain ⟨rfl, rfl⟩ := List.cons.inj eq
      exact ih up

theorem base_below (h : L.WF bound rc mem g) {o : O} : ∀ {p : List Idx} {t : Nat},
    g.role t = some (o, p) → L.base o <:+ p := by
  intro p
  induction p with
  | nil =>
    intro t role
    by_cases root : [] = L.base o
    · rw [← root]
    · obtain ⟨i, p, _, absurd_eq, _⟩ := h.back role root
      cases absurd_eq
  | cons i p ih =>
    intro t role
    by_cases root : i :: p = L.base o
    · rw [← root]
    · obtain ⟨_, _, u, eq, up, _⟩ := h.back role root
      obtain ⟨rfl, rfl⟩ := List.cons.inj eq
      exact (ih up).trans (List.suffix_cons i p)

theorem live_of_leaf (h : L.WF bound rc mem g) {o : O} {q : List Idx}
    (filled : g.leaf (o, q) ≠ L.empty) : L.Live g o := by
  obtain ⟨_, _, _, _, role, _⟩ := h.leaf_table filled
  exact h.live_of_role role

/-- The tables above a table: each step of its path goes through a filled slot. -/
theorem ancestor (h : L.WF bound rc mem g) {o : O} {i : Idx} {p : List Idx}
    (below : L.base o <:+ p) : ∀ {q : List Idx} {f : Nat}, g.role f = some (o, q) →
    (i :: p) <:+ q → ∃ t, g.role t = some (o, p) ∧ L.owns o p i ∧ mem t i ≠ L.empty := by
  intro q
  induction q with
  | nil =>
    intro f _ suffix
    exact absurd (List.suffix_nil.mp suffix) (List.cons_ne_nil _ _)
  | cons j q ih =>
    intro f role suffix
    have longer : (L.base o).length < (i :: p).length := by
      have le := below.length_le
      simp only [List.length_cons]
      omega
    have notBase : j :: q ≠ L.base o := by
      intro eq
      have le := suffix.length_le
      rw [eq] at le
      omega
    obtain ⟨_, _, t, eq, up, own, filled, _⟩ := h.back role notBase
    obtain ⟨rfl, rfl⟩ := List.cons.inj eq
    rcases List.suffix_cons_iff.mp suffix with here | above
    · obtain ⟨rfl, rfl⟩ := List.cons.inj here
      exact ⟨t, up, own, filled⟩
    · exact ih up above

/-- No leaf lies below an empty slot. -/
theorem leaf_below_empty (h : L.WF bound rc mem g) {t : Nat} {o : O} {p q : List Idx} {i : Idx}
    (at_t : g.role t = some (o, p)) (inner : p.length < L.depth) (below : L.base o <:+ p)
    (vacant : mem t i = L.empty) (suffix : (i :: p) <:+ q) : g.leaf (o, q) = L.empty := by
  by_contra filled
  obtain ⟨l, p', t', rfl, role, full, _⟩ := h.leaf_table filled
  rcases List.suffix_cons_iff.mp suffix with here | above
  · obtain ⟨rfl, rfl⟩ := List.cons.inj here
    omega
  · obtain ⟨t'', role', _, filled'⟩ := h.ancestor below role above
    rw [h.unique role' at_t] at filled'
    exact filled' vacant

theorem leafRefs_pos (h : L.WF bound rc mem g) {x : O × List Idx}
    (filled : g.leaf x ≠ L.empty) : 0 < L.leafRefs g.leaf (L.target (g.leaf x)) := by
  have fin : (L.refSet g.leaf (L.target (g.leaf x))).Finite :=
    h.finite.subset (fun y hy => hy.1)
  exact (Set.ncard_pos fin).mpr ⟨x, filled, rfl⟩

theorem rc_pos_of_leaf (h : L.WF bound rc mem g) {x : O × List Idx}
    (filled : g.leaf x ≠ L.empty) : 0 < rc (L.target (g.leaf x)) := by
  have count := h.count _ (h.leaf filled).2.1
  have pos := h.leafRefs_pos filled
  omega

/-- A frame that no leaf names is not the target of a leaf. -/
theorem target_ne (h : L.WF bound rc mem g) {f : Nat} (noLeaf : L.leafRefs g.leaf f = 0)
    {x : O × List Idx} (filled : g.leaf x ≠ L.empty) : L.target (g.leaf x) ≠ f := by
  rintro rfl
  have pos := h.leafRefs_pos filled
  omega

theorem rc_table (h : L.WF bound rc mem g) {t : Nat} {o : O} {p : List Idx}
    (at_t : g.role t = some (o, p)) : rc t = 1 := by
  have noLeaf : L.leafRefs g.leaf t = 0 := by
    have fin : (L.refSet g.leaf t).Finite := h.finite.subset (fun y hy => hy.1)
    rw [leafRefs, Set.ncard_eq_zero fin]
    ext x
    simp only [refSet, Set.mem_ofPred_eq, Set.mem_empty_iff_false, iff_false, not_and]
    rintro filled rfl
    rw [(h.leaf filled).2.2] at at_t
    cases at_t
  rw [h.count t (h.table_lt at_t), h.table_ext at_t, noLeaf]
  simp [tableRef, at_t]

/-- A frame without references is outside the forest altogether. -/
theorem unused (h : L.WF bound rc mem g) {f : Nat} (lt : f < bound) (zero : rc f = 0) :
    g.role f = none ∧ L.leafRefs g.leaf f = 0 ∧ g.ext f = 0 := by
  have count := h.count f lt
  refine ⟨?_, by omega, by omega⟩
  cases role : g.role f with
  | none => rfl
  | some x =>
    have one := h.rc_table (p := x.2) (o := x.1) role
    omega

theorem role_none_of_ext (h : L.WF bound rc mem g) {f : Nat} (held : 0 < g.ext f) :
    g.role f = none := by
  cases role : g.role f with
  | none => rfl
  | some x =>
    have zero := h.table_ext (o := x.1) (p := x.2) role
    omega

/-! ## Moves that leave the tables alone -/

/-- Words outside the owned slots of tables are free to change. -/
theorem scribble (h : L.WF bound rc mem g)
    (same : ∀ t o p i, g.role t = some (o, p) → L.owns o p i → mem' t i = mem t i) :
    L.WF bound rc mem' g where
  depth_le := h.depth_le
  table_lt := h.table_lt
  link := by
    intro t o p i role len own filled
    rw [same t o p i role own] at filled ⊢
    exact h.link role len own filled
  base_frame := h.base_frame
  back := by
    intro f o q role root
    obtain ⟨i, p, t, eq, up, own, filled, target⟩ := h.back role root
    exact ⟨i, p, t, eq, up, own, by rwa [same t o p i up own], by rwa [same t o p i up own]⟩
  leaf_mem := by
    intro t o p i role len own
    rw [same t o p i role own]
    exact h.leaf_mem role len own
  leaf_table := h.leaf_table
  leaf := h.leaf
  finite := h.finite
  count := h.count
  table_ext := h.table_ext

/-- Counters and outside references may move together. -/
theorem recount (h : L.WF bound rc mem g) {ext' : Nat → Nat}
    (together : ∀ f, f < bound → rc' f + g.ext f = rc f + ext' f)
    (tables : ∀ t x, g.role t = some x → ext' t = 0) :
    L.WF bound rc' mem ⟨g.role, g.leaf, ext'⟩ := by
  refine { h with count := ?_, table_ext := ?_ }
  · intro f lt
    have count := h.count f lt
    have moved := together f lt
    dsimp only
    omega
  · intro t o p role
    exact tables t _ role

/-- Taking a frame nobody refers to: the taker holds its one reference. -/
theorem acquire (h : L.WF bound rc mem g) {f : Nat} (lt : f < bound) (zero : rc f = 0) :
    L.WF bound (Function.update rc f 1) mem
      ⟨g.role, g.leaf, Function.update g.ext f (g.ext f + 1)⟩ := by
  obtain ⟨noRole, _, noExt⟩ := h.unused lt zero
  apply h.recount
  · intro f' _
    by_cases same : f' = f
    · subst same
      simp [zero, noExt]
    · simp [Function.update_of_ne same]
  · intro t x role
    have ne : t ≠ f := by
      rintro rfl
      rw [noRole] at role
      cases role
    rw [Function.update_of_ne ne]
    exact h.table_ext role

/-- Giving up an outside reference. -/
theorem release (h : L.WF bound rc mem g) {f : Nat} (lt : f < bound) (held : 0 < g.ext f) :
    L.WF bound (Function.update rc f (rc f - 1)) mem
      ⟨g.role, g.leaf, Function.update g.ext f (g.ext f - 1)⟩ := by
  have count := h.count f lt
  apply h.recount
  · intro f' _
    by_cases same : f' = f
    · subst same
      simp only [Function.update_self]
      omega
    · simp [Function.update_of_ne same]
  · intro t x role
    have ne : t ≠ f := by
      rintro rfl
      rw [h.role_none_of_ext held] at role
      cases role
    rw [Function.update_of_ne ne]
    exact h.table_ext role

/-- Adding an outside reference to a frame that is not a table. -/
theorem retain (h : L.WF bound rc mem g) {f : Nat} (data : g.role f = none) :
    L.WF bound (Function.update rc f (rc f + 1)) mem
      ⟨g.role, g.leaf, Function.update g.ext f (g.ext f + 1)⟩ := by
  apply h.recount
  · intro f' _
    by_cases same : f' = f
    · subst same
      simp only [Function.update_self]
      omega
    · simp [Function.update_of_ne same]
  · intro t x role
    have ne : t ≠ f := by
      rintro rfl
      rw [data] at role
      cases role
    rw [Function.update_of_ne ne]
    exact h.table_ext role

/-! ## Moves on slots -/

section Slots

variable [DecidableEq Idx]

/-- Writing a leaf slot. References that leave or enter the slot are taken from or
given to the outside, so the counters stay as they are. -/
theorem leafWrite [DecidableEq O] [DecidableEq W] (h : L.WF bound rc mem g) {t : Nat} {o : O} {p : List Idx} {i : Idx} {w : W}
    {ext' : Nat → Nat} (at_t : g.role t = some (o, p)) (full : p.length = L.depth)
    (own : L.owns o p i)
    (ok : w ≠ L.empty → L.leafOk o w ∧ L.target w < bound ∧ g.role (L.target w) = none)
    (balance : ∀ f, ext' f + (if w ≠ L.empty ∧ L.target w = f then 1 else 0) =
      g.ext f + (if mem t i ≠ L.empty ∧ L.target (mem t i) = f then 1 else 0)) :
    L.WF bound rc (store mem t i w)
      ⟨g.role, Function.update g.leaf (o, i :: p) w, ext'⟩ where
  depth_le := h.depth_le
  table_lt := h.table_lt
  link := by
    intro t' o' p' j role len own' filled
    have off : ¬ (t' = t ∧ j = i) := by
      rintro ⟨rfl, rfl⟩
      rw [at_t] at role
      obtain ⟨rfl, rfl⟩ := Prod.mk.inj (Option.some.inj role)
      omega
    rw [store_of_ne mem w off] at filled ⊢
    exact h.link role len own' filled
  base_frame := h.base_frame
  back := by
    intro f o' q role root
    obtain ⟨j, p', t', eq, up, own', filled, target⟩ := h.back role root
    have off : ¬ (t' = t ∧ j = i) := by
      rintro ⟨rfl, rfl⟩
      rw [at_t] at up
      obtain ⟨rfl, rfl⟩ := Prod.mk.inj (Option.some.inj up)
      have deep := h.depth_le role
      rw [eq, List.length_cons] at deep
      omega
    exact ⟨j, p', t', eq, up, own', by rwa [store_of_ne mem w off], by rwa [store_of_ne mem w off]⟩
  leaf_mem := by
    intro t' o' p' j role len own'
    by_cases here : (o', j :: p') = (o, i :: p)
    · obtain ⟨rfl, eq⟩ := Prod.mk.inj here
      obtain ⟨rfl, rfl⟩ := List.cons.inj eq
      dsimp only
      rw [Function.update_self, h.unique role at_t, store_same]
    · have off : ¬ (t' = t ∧ j = i) := by
        rintro ⟨rfl, rfl⟩
        rw [at_t] at role
        obtain ⟨rfl, rfl⟩ := Prod.mk.inj (Option.some.inj role)
        exact here rfl
      dsimp only
      rw [Function.update_of_ne here, store_of_ne mem w off]
      exact h.leaf_mem role len own'
  leaf_table := by
    intro o' q filled
    by_cases here : (o', q) = (o, i :: p)
    · obtain ⟨rfl, rfl⟩ := Prod.mk.inj here
      exact ⟨i, p, t, rfl, at_t, full, own⟩
    · dsimp only at filled
      rw [Function.update_of_ne here] at filled
      exact h.leaf_table filled
  leaf := by
    intro x filled
    by_cases here : x = (o, i :: p)
    · subst here
      dsimp only at filled ⊢
      rw [Function.update_self] at filled ⊢
      exact ok filled
    · dsimp only at filled ⊢
      rw [Function.update_of_ne here] at filled ⊢
      exact h.leaf filled
  finite := finite_update h.finite _ _
  count := by
    intro f lt
    have moved := leafRefs_update h.finite (o, i :: p) w f
    rw [h.leaf_mem at_t full own] at moved
    have before := h.count f lt
    have even := balance f
    dsimp only
    omega
  table_ext := by
    intro t' o' p' role
    have zero := h.table_ext role
    have even := balance t'
    have away : ¬ (mem t i ≠ L.empty ∧ L.target (mem t i) = t') := by
      rintro ⟨filled, rfl⟩
      rw [← h.leaf_mem at_t full own] at filled role
      rw [(h.leaf filled).2.2] at role
      cases role
    rw [if_neg away, zero] at even
    dsimp only
    omega

/-- A link may change its attributes as long as it names the same table. -/
theorem relabelLink (h : L.WF bound rc mem g) {t : Nat} {o : O} {p : List Idx} {i : Idx} {w : W}
    (at_t : g.role t = some (o, p)) (inner : p.length < L.depth)
    (filled : mem t i ≠ L.empty) (nonempty : w ≠ L.empty) (ok : L.linkOk w)
    (same : L.target w = L.target (mem t i)) : L.WF bound rc (store mem t i w) g where
  depth_le := h.depth_le
  table_lt := h.table_lt
  link := by
    intro t' o' p' j role len own' filled'
    by_cases here : t' = t ∧ j = i
    · obtain ⟨rfl, rfl⟩ := here
      rw [store_same, same]
      exact ⟨ok, (h.link role len own' filled).2⟩
    · rw [store_of_ne mem w here] at filled' ⊢
      exact h.link role len own' filled'
  base_frame := h.base_frame
  back := by
    intro f o' q role root
    obtain ⟨j, p', t', eq, up, own', filled', target⟩ := h.back role root
    refine ⟨j, p', t', eq, up, own', ?_⟩
    by_cases here : t' = t ∧ j = i
    · obtain ⟨rfl, rfl⟩ := here
      rw [store_same]
      exact ⟨nonempty, same.trans target⟩
    · rw [store_of_ne mem w here]
      exact ⟨filled', target⟩
  leaf_mem := by
    intro t' o' p' j role len own'
    have off : ¬ (t' = t ∧ j = i) := by
      rintro ⟨rfl, rfl⟩
      rw [at_t] at role
      obtain ⟨rfl, rfl⟩ := Prod.mk.inj (Option.some.inj role)
      omega
    rw [store_of_ne mem w off]
    exact h.leaf_mem role len own'
  leaf_table := h.leaf_table
  leaf := h.leaf
  finite := h.finite
  count := h.count
  table_ext := h.table_ext

end Slots

/-! ## Moves on tables -/

private theorem update_some_iff {role : Nat → Option (O × List Idx)} {f t : Nat}
    {x q : O × List Idx} : Function.update role f (some x) t = some q ↔
      (t = f ∧ x = q) ∨ (t ≠ f ∧ role t = some q) := by
  by_cases here : t = f
  · subst here
    simp
  · simp [here]

private theorem update_none_iff {role : Nat → Option (O × List Idx)} {f t : Nat}
    {q : O × List Idx} : Function.update role f none t = some q ↔ t ≠ f ∧ role t = some q := by
  by_cases here : t = f
  · subst here
    simp
  · simp [here]

/-- A blank frame, held once from outside, becomes a table: the base of its owner, or
attached by the only slot in which `mem'` differs from `mem`. -/
private theorem addTable (h : L.WF bound rc mem g) {f : Nat} {o : O} {q : List Idx}
    (lt : f < bound) (one : rc f = 1) (held : g.ext f = 1) (shallow : q.length ≤ L.depth)
    (blank : ∀ j, L.owns o q j → mem' f j = L.empty)
    (only : ∀ t o' p i, g.role t = some (o', p) → L.owns o' p i → mem' t i ≠ mem t i →
      mem t i = L.empty ∧ p.length < L.depth ∧ (o', i :: p) = (o, q) ∧ L.linkOk (mem' t i) ∧
        L.target (mem' t i) = f)
    (attached : q = L.base o ∧ f = L.baseFrame o ∨ q ≠ L.base o ∧
      ∃ i p t, q = i :: p ∧ g.role t = some (o, p) ∧ L.owns o p i ∧ mem' t i ≠ L.empty ∧
        L.target (mem' t i) = f) :
    L.WF bound rc mem'
      ⟨Function.update g.role f (some (o, q)), g.leaf, Function.update g.ext f 0⟩ := by
  have free : g.role f = none := h.role_none_of_ext (by omega)
  have noLeaf : L.leafRefs g.leaf f = 0 := by
    have count := h.count f lt
    omega
  have absent : ∀ {t x}, g.role t = some x → t ≠ f := by
    rintro t x role rfl
    rw [free] at role
    cases role
  -- nothing was reachable through `f`, so no leaf can sit below it
  have noLeafBelow : ∀ j, L.owns o q j → q.length = L.depth → g.leaf (o, j :: q) = L.empty := by
    intro j _ full
    by_contra filled
    obtain ⟨j', p', t, eq, role, _, _⟩ := h.leaf_table filled
    obtain ⟨rfl, rfl⟩ := List.cons.inj eq
    rcases attached with ⟨isBase, at_f⟩ | ⟨notBase, _, _, _, eq', up, own, filled', target⟩
    · rw [isBase] at role
      exact absent role (at_f ▸ h.base_frame role)
    · obtain ⟨i', p'', t', eq'', up', own', filled'', target'⟩ := h.back role notBase
      obtain ⟨rfl, rfl⟩ := List.cons.inj (eq'.symm.trans eq'')
      obtain rfl := h.unique up up'
      rename_i i _ t'
      by_cases changed : mem' t' i = mem t' i
      · rw [changed, target'] at target
        exact absent role target
      · exact filled'' (only _ _ _ _ up own changed).1
  refine { depth_le := ?_, table_lt := ?_, link := ?_, base_frame := ?_, back := ?_,
           leaf_mem := ?_, leaf_table := ?_, leaf := ?_, finite := h.finite, count := ?_,
           table_ext := ?_ }
  · intro t o' p role
    rcases update_some_iff.mp role with ⟨rfl, eq⟩ | ⟨_, role'⟩
    · obtain ⟨rfl, rfl⟩ := Prod.mk.inj eq
      exact shallow
    · exact h.depth_le role'
  · intro t o' p role
    rcases update_some_iff.mp role with ⟨rfl, _⟩ | ⟨_, role'⟩
    · exact lt
    · exact h.table_lt role'
  · intro t o' p j role len own filled
    rcases update_some_iff.mp role with ⟨rfl, eq⟩ | ⟨_, role'⟩
    · obtain ⟨rfl, rfl⟩ := Prod.mk.inj eq
      exact absurd (blank j own) filled
    · by_cases changed : mem' t j = mem t j
      · rw [changed] at filled ⊢
        obtain ⟨good, child⟩ := h.link role' len own filled
        exact ⟨good, (Function.update_of_ne (absent child) _ _).trans child⟩
      · obtain ⟨_, _, here, good, target⟩ := only t o' p j role' own changed
        rw [target, here]
        exact ⟨good, Function.update_self ..⟩
  · intro t o' role
    rcases update_some_iff.mp role with ⟨rfl, eq⟩ | ⟨_, role'⟩
    · obtain ⟨rfl, rfl⟩ := Prod.mk.inj eq
      rcases attached with ⟨_, at_f⟩ | ⟨notBase, _⟩
      · exact at_f
      · exact absurd rfl notBase
    · exact h.base_frame role'
  · intro f' o' q' role root
    rcases update_some_iff.mp role with ⟨rfl, eq⟩ | ⟨_, role'⟩
    · obtain ⟨rfl, rfl⟩ := Prod.mk.inj eq
      rcases attached with ⟨isBase, _⟩ | ⟨_, i, p, t, eq', up, rest⟩
      · exact absurd isBase root
      · exact ⟨i, p, t, eq', (Function.update_of_ne (absent up) _ _).trans up, rest⟩
    · obtain ⟨i, p, t, eq, up, own, filled, target⟩ := h.back role' root
      have same : mem' t i = mem t i := by
        by_contra changed
        exact filled (only t o' p i up own changed).1
      exact ⟨i, p, t, eq, (Function.update_of_ne (absent up) _ _).trans up, own,
        by rwa [same], by rwa [same]⟩
  · intro t o' p j role len own
    rcases update_some_iff.mp role with ⟨rfl, eq⟩ | ⟨_, role'⟩
    · obtain ⟨rfl, rfl⟩ := Prod.mk.inj eq
      rw [blank j own]
      exact noLeafBelow j own len
    · have same : mem' t j = mem t j := by
        by_contra changed
        have inner := (only t o' p j role' own changed).2.1
        omega
      rw [same]
      exact h.leaf_mem role' len own
  · intro o' q' filled
    obtain ⟨j, p, t, eq, role, rest⟩ := h.leaf_table filled
    exact ⟨j, p, t, eq, (Function.update_of_ne (absent role) _ _).trans role, rest⟩
  · intro x filled
    obtain ⟨good, lt', data⟩ := h.leaf filled
    exact ⟨good, lt', (Function.update_of_ne (h.target_ne noLeaf filled) _ _).trans data⟩
  · intro f' lt'
    have count := h.count f' lt'
    by_cases here : f' = f
    · subst here
      simp [tableRef, noLeaf, one]
    · simpa [tableRef, Function.update_of_ne here] using count
  · intro t o' p role
    rcases update_some_iff.mp role with ⟨rfl, _⟩ | ⟨here, role'⟩
    · exact Function.update_self ..
    · exact (Function.update_of_ne here _ _).trans (h.table_ext role')

/-- A blank table leaves the forest when the slots that named it are cleared. -/
private theorem removeTable (h : L.WF bound rc mem g) {f : Nat} {o : O} {q : List Idx}
    (at_f : g.role f = some (o, q)) (blank : ∀ j, L.owns o q j → mem f j = L.empty)
    (only : ∀ t o' p i, g.role t = some (o', p) → L.owns o' p i → mem' t i ≠ mem t i →
      mem' t i = L.empty ∧ p.length < L.depth ∧ L.target (mem t i) = f)
    (unlinked : ∀ t o' p i, g.role t = some (o', p) → p.length < L.depth → L.owns o' p i →
      mem' t i ≠ L.empty → L.target (mem' t i) ≠ f) :
    L.WF bound rc mem'
      ⟨Function.update g.role f none, g.leaf, Function.update g.ext f 1⟩ := by
  refine { depth_le := ?_, table_lt := ?_, link := ?_, base_frame := ?_, back := ?_,
           leaf_mem := ?_, leaf_table := ?_, leaf := ?_, finite := h.finite, count := ?_,
           table_ext := ?_ }
  · intro t o' p role
    exact h.depth_le (update_none_iff.mp role).2
  · intro t o' p role
    exact h.table_lt (update_none_iff.mp role).2
  · intro t o' p j role len own filled
    obtain ⟨_, role'⟩ := update_none_iff.mp role
    have away := unlinked t o' p j role' len own filled
    have same : mem' t j = mem t j := by
      by_contra changed
      exact filled (only t o' p j role' own changed).1
    rw [same] at filled away ⊢
    obtain ⟨good, child⟩ := h.link role' len own filled
    exact ⟨good, (Function.update_of_ne away _ _).trans child⟩
  · intro t o' role
    exact h.base_frame (update_none_iff.mp role).2
  · intro f' o' q' role root
    obtain ⟨here, role'⟩ := update_none_iff.mp role
    obtain ⟨i, p, t, eq, up, own, filled, target⟩ := h.back role' root
    have ne : t ≠ f := by
      rintro rfl
      rw [at_f] at up
      obtain ⟨rfl, rfl⟩ := Prod.mk.inj (Option.some.inj up)
      exact filled (blank i own)
    have same : mem' t i = mem t i := by
      by_contra changed
      exact here (target.symm.trans (only t o' p i up own changed).2.2)
    exact ⟨i, p, t, eq, (Function.update_of_ne ne _ _).trans up, own, by rwa [same],
      by rwa [same]⟩
  · intro t o' p j role len own
    obtain ⟨_, role'⟩ := update_none_iff.mp role
    have same : mem' t j = mem t j := by
      by_contra changed
      have inner := (only t o' p j role' own changed).2.1
      omega
    rw [same]
    exact h.leaf_mem role' len own
  · intro o' q' filled
    obtain ⟨j, p, t, eq, role, len, own⟩ := h.leaf_table filled
    have ne : t ≠ f := by
      rintro rfl
      rw [at_f] at role
      obtain ⟨rfl, rfl⟩ := Prod.mk.inj (Option.some.inj role)
      dsimp only at filled
      rw [eq, h.leaf_mem at_f len own, blank j own] at filled
      exact filled rfl
    exact ⟨j, p, t, eq, (Function.update_of_ne ne _ _).trans role, len, own⟩
  · intro x filled
    obtain ⟨good, lt', data⟩ := h.leaf filled
    have away : L.target (g.leaf x) ≠ f := by
      intro eq
      rw [eq, at_f] at data
      cases data
    exact ⟨good, lt', (Function.update_of_ne away _ _).trans data⟩
  · intro f' lt'
    have count := h.count f' lt'
    by_cases here : f' = f
    · subst here
      rw [h.table_ext at_f] at count
      simp [tableRef, at_f] at count ⊢
      omega
    · simpa [tableRef, Function.update_of_ne here] using count
  · intro t o' p role
    obtain ⟨here, role'⟩ := update_none_iff.mp role
    exact (Function.update_of_ne here _ _).trans (h.table_ext role')

/-- A blank frame, held once from outside, becomes the base table of its owner. -/
theorem addBase (h : L.WF bound rc mem g) {o : O} {f : Nat} (isBase : f = L.baseFrame o)
    (shallow : (L.base o).length ≤ L.depth) (lt : f < bound) (one : rc f = 1)
    (held : g.ext f = 1) (blank : ∀ j, L.owns o (L.base o) j → mem f j = L.empty) :
    L.WF bound rc mem
      ⟨Function.update g.role f (some (o, L.base o)), g.leaf, Function.update g.ext f 0⟩ :=
  h.addTable lt one held shallow blank
    (fun _ _ _ _ _ _ changed => absurd rfl changed) (.inl ⟨rfl, isBase⟩)

/-- An emptied base table at the empty path leaves the forest. -/
theorem dropBase (h : L.WF bound rc mem g) {o : O} {f : Nat} (at_f : g.role f = some (o, []))
    (blank : ∀ j, L.owns o [] j → mem f j = L.empty) :
    L.WF bound rc mem
      ⟨Function.update g.role f none, g.leaf, Function.update g.ext f 1⟩ := by
  apply h.removeTable at_f blank (fun _ _ _ _ _ _ changed => absurd rfl changed)
  intro t o' p j role len own filled eq
  have child := (h.link role len own filled).2
  rw [eq, at_f] at child
  cases child

variable [DecidableEq Idx]

/-- Hanging a blank frame, held once from outside, into an empty slot. -/
theorem linkTable (h : L.WF bound rc mem g) {t f : Nat} {o : O} {p : List Idx} {i : Idx} {w : W}
    (at_t : g.role t = some (o, p)) (inner : p.length < L.depth) (own : L.owns o p i)
    (vacant : mem t i = L.empty) (notBase : i :: p ≠ L.base o) (lt : f < bound) (one : rc f = 1)
    (held : g.ext f = 1) (blank : ∀ j, L.owns o (i :: p) j → mem f j = L.empty)
    (nonempty : w ≠ L.empty) (ok : L.linkOk w) (target : L.target w = f) :
    L.WF bound rc (store mem t i w)
      ⟨Function.update g.role f (some (o, i :: p)), g.leaf, Function.update g.ext f 0⟩ := by
  have ne : f ≠ t := by
    rintro rfl
    rw [h.role_none_of_ext (by omega)] at at_t
    cases at_t
  apply h.addTable (q := i :: p) lt one held inner
  · intro j own'
    rw [store_frame mem i w ne]
    exact blank j own'
  · intro t' o' p' j role _ changed
    obtain ⟨rfl, rfl⟩ := eq_of_store_ne changed
    rw [at_t] at role
    obtain ⟨rfl, rfl⟩ := Prod.mk.inj (Option.some.inj role)
    rw [store_same]
    exact ⟨vacant, inner, rfl, ok, target⟩
  · refine .inr ⟨notBase, i, p, t, rfl, at_t, own, ?_, ?_⟩ <;> rwa [store_same]

/-- Taking an emptied table out of the slot it hangs in. -/
theorem unlinkTable (h : L.WF bound rc mem g) {t f : Nat} {o : O} {p : List Idx} {i : Idx}
    (at_t : g.role t = some (o, p)) (inner : p.length < L.depth) (own : L.owns o p i)
    (filled : mem t i ≠ L.empty) (target : L.target (mem t i) = f)
    (blank : ∀ j, L.owns o (i :: p) j → mem f j = L.empty) :
    L.WF bound rc (store mem t i L.empty)
      ⟨Function.update g.role f none, g.leaf, Function.update g.ext f 1⟩ := by
  have child : g.role f = some (o, i :: p) := target ▸ (h.link at_t inner own filled).2
  apply h.removeTable child blank
  · intro t' o' p' j role _ changed
    obtain ⟨rfl, rfl⟩ := eq_of_store_ne changed
    rw [at_t] at role
    obtain ⟨rfl, rfl⟩ := Prod.mk.inj (Option.some.inj role)
    exact ⟨store_same .., inner, target⟩
  · intro t' o' p' j role len own' filled' eq
    have off : ¬ (t' = t ∧ j = i) := by
      rintro ⟨rfl, rfl⟩
      exact filled' (store_same ..)
    rw [store_of_ne mem _ off] at filled' eq
    have child' := (h.link role len own' filled').2
    rw [eq, child] at child'
    obtain ⟨rfl, eq'⟩ := Prod.mk.inj (Option.some.inj child')
    obtain ⟨rfl, rfl⟩ := List.cons.inj eq'
    exact off ⟨h.unique role at_t, rfl⟩

end WF

end Layout

end LithiumKernel.Lib.Forest
