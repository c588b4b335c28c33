import LithiumKernel.Mm.Vmm

/-!
# Address spaces as a reference-counted forest

The page tables of all address spaces form one forest: a user space owns the lower
half of its PML4 without the identity window behind `PML4[0]/PDPT[0]`, and the kernel
owns the heap part of the shared higher-half PDPT. `Vm` is the invariant of
kernel/mm/vmm.c over that forest. Each function gets one specification: what it does
to the leaves, to the live spaces and to references held outside, and that frames it
does not own keep their contents. The only assertion that can fail is the saturation
of a 16-bit reference count.
-/
namespace LithiumKernel.Mm

open LithiumKernel.Lib LithiumKernel.Lib.Forest

inductive Owner where
  | kernel
  | user (root : Nat)
  deriving DecidableEq

/-- The slots of a table that belong to its owner, by the table's path. -/
def ownsSlot : Owner → List Idx → Idx → Prop
  | .user _, [], i => i.val < 256
  | .user _, [j], i => ¬ (j = 0 ∧ i = 0)
  | .kernel, [_], i => 510 ≤ i.val
  | .kernel, [j, _], i => ¬ (j = 510 ∧ i = 0)
  | _, _, _ => True

def spaceLayout (kernelPdpt : Nat) : Layout Owner Idx Word where
  depth := 3
  empty := 0#64
  target := frameOf
  linkOk e := e &&& vmmPresent ≠ 0#64 ∧ e &&& vmmHuge = 0#64
  leafOk
    | .user _, e => e &&& presentUser = presentUser
    | .kernel, e => e &&& vmmPresent ≠ 0#64
  owns := ownsSlot
  base
    | .user _ => []
    | .kernel => [511]
  baseFrame
    | .user root => root
    | .kernel => kernelPdpt

abbrev SpaceGhost := Ghost Owner Idx Word

structure Vm (k : Nat) (s : MemState) (g : SpaceGhost) : Prop where
  ok : s.pmm.Ok
  wf : (spaceLayout k).WF s.pmm.totalFrames s.pmm.refcount s.mem g

/-- The one assertion of the frame pool that a consistent state can run into. -/
def Saturated (e : Kassert) (s : MemState) : Prop :=
  e = .refSaturated ∧ ∃ f, uint16Max ≤ s.pmm.refcount f

variable {k : Nat} {s s' s'' : MemState} {g g' g'' : SpaceGhost}

theorem linkOk_iff {e : Word} :
    (spaceLayout k).linkOk e ↔ e.getLsbD 0 = true ∧ e.getLsbD 7 = false := by
  change e &&& vmmPresent ≠ 0#64 ∧ e &&& vmmHuge = 0#64 ↔ _
  rw [ne_eq, and_present, and_huge, Bool.not_eq_false]

theorem leafOk_user_iff {r : Nat} {e : Word} :
    (spaceLayout k).leafOk (.user r) e ↔ e.getLsbD 0 = true ∧ e.getLsbD 2 = true :=
  and_presentUser e

theorem linkOk_ne_zero {w : Word} (ok : (spaceLayout k).linkOk w) : w ≠ 0#64 := by
  rintro rfl
  exact ok.1 (by decide)

theorem Vm.frame_small (h : Vm k s g) {f : Nat} (lt : f < s.pmm.totalFrames) : f < 2 ^ 40 :=
  lt_of_lt_of_le lt (le_trans h.ok.total_le (by decide))

/-- A link word is present, so the empty word is the only one that is not. -/
theorem Vm.link_present (h : Vm k s g) {t : Nat} {o : Owner} {p : List Idx} {i : Idx}
    (at_t : g.role t = some (o, p)) (inner : p.length < 3) (own : ownsSlot o p i) :
    s.mem t i &&& vmmPresent = 0#64 ↔ s.mem t i = 0#64 := by
  constructor
  · intro absent
    by_contra filled
    exact (h.wf.link at_t inner own filled).1.1 absent
  · intro zero
    rw [zero]
    rfl

/-- A leaf names a counted frame in range that is not a table. -/
theorem Vm.leaf_facts (h : Vm k s g) {x : Owner × List Idx} (filled : g.leaf x ≠ 0#64) :
    (spaceLayout k).leafOk x.1 (g.leaf x) ∧ frameOf (g.leaf x) < s.pmm.totalFrames ∧
      g.role (frameOf (g.leaf x)) = none ∧ 0 < s.pmm.refcount (frameOf (g.leaf x)) := by
  obtain ⟨ok, lt, data⟩ := h.wf.leaf filled
  exact ⟨ok, lt, data, h.wf.rc_pos_of_leaf filled⟩

/-- The path of a leaf table of a user space stays clear of the shared part. -/
theorem Vm.table_owned (h : Vm k s g) {t r : Nat} {m j i : Idx}
    (at_t : g.role t = some (.user r, [m, j, i])) : i.val < 256 ∧ ¬ (i = 0 ∧ j = 0) := by
  obtain ⟨_, _, root, _⟩ := h.wf.ancestor (o := .user r) (i := i) (p := []) (List.suffix_refl _)
    at_t ⟨[m, j], rfl⟩
  obtain ⟨_, _, pdpt, _⟩ := h.wf.ancestor (o := .user r) (i := j) (p := [i]) ⟨[i], rfl⟩ at_t
    ⟨[m], rfl⟩
  exact ⟨root, pdpt⟩

theorem Vm.leaf_owned (h : Vm k s g) {r : Nat} {q : List Idx}
    (filled : g.leaf (.user r, q) ≠ 0#64) :
    ∃ l m j i : Idx, q = [l, m, j, i] ∧ i.val < 256 ∧ ¬ (i = 0 ∧ j = 0) := by
  obtain ⟨l, p, t, rfl, at_t, full, _⟩ := h.wf.leaf_table filled
  match p, full with
  | [m, j, i], _ => exact ⟨l, m, j, i, rfl, h.table_owned at_t⟩

/-! ## Primitive operations -/

section Primitive

variable {post : Unit → MemState → Prop} {halt : Kassert → MemState → Prop}

@[simp] theorem wp_readEntry (t : Nat) (i : Idx) (post : Word → MemState → Prop) :
    wp (readEntry t i) post halt s ↔ post (s.mem t i) s := Iff.rfl

@[simp] theorem wp_writeEntry (t : Nat) (i : Idx) (w : Word) :
    wp (writeEntry t i w) post halt s ↔ post () { s with mem := store s.mem t i w } := Iff.rfl

@[simp] theorem wp_zeroFrame (f : Nat) :
    wp (zeroFrame f) post halt s ↔
      post () { s with mem := Function.update s.mem f (fun _ => 0#64) } := Iff.rfl

@[simp] theorem wp_copyFrame (dst src : Nat) :
    wp (copyFrame dst src) post halt s ↔
      post () { s with mem := Function.update s.mem dst (s.mem src) } := Iff.rfl

theorem wp_allocFrame (post : Option Word → MemState → Prop) :
    wp allocFrame post halt s ↔
      post (pmmAllocFrame s.pmm).1 { s with pmm := (pmmAllocFrame s.pmm).2 } := Iff.rfl

theorem allocFrame_spec {post : Option Word → MemState → Prop} (h : Vm k s g)
    (fail : (pmmAllocFrame s.pmm).1 = none → post none s)
    (found : ∀ f q, f < s.pmm.totalFrames → s.pmm.refcount f = 0 → s.pmm.Evolves q →
      q.refcount = Function.update s.pmm.refcount f 1 →
      Vm k { s with pmm := q } ⟨g.role, g.leaf, Function.update g.ext f (g.ext f + 1)⟩ →
      post (some (frameAddr f)) { s with pmm := q }) :
    wp allocFrame post halt s := by
  rw [wp_allocFrame]
  rcases pmmAllocFrame_spec h.ok with ⟨f, q, run, evolves, lt, free, counts⟩ | run
  · rw [run]
    have zero := h.ok.free_zero f lt free
    refine found f q lt zero evolves counts ⟨evolves.ok, ?_⟩
    change (spaceLayout k).WF q.totalFrames q.refcount s.mem _
    rw [evolves.total, counts]
    exact h.wf.acquire lt zero
  · rw [run] at fail ⊢
    exact fail rfl

theorem freeFrame_spec (ok : s.pmm.Ok) {f : Nat} (lt : f < s.pmm.totalFrames)
    (pos : 0 < s.pmm.refcount f)
    (freed : ∀ q, s.pmm.Evolves q →
      q.refcount = Function.update s.pmm.refcount f (s.pmm.refcount f - 1) →
      post () { s with pmm := q }) : wp (freeFrame (frameAddr f)) post halt s := by
  obtain ⟨q, run, evolves, counts⟩ := pmmFreeFrame_spec ok lt pos
  have step : freeFrame (frameAddr f) s = .ok () { s with pmm := q } := by
    simp only [freeFrame, run]
  simpa only [wp, step] using freed q evolves counts

theorem refFrame_spec (ok : s.pmm.Ok) {f : Nat} (lt : f < s.pmm.totalFrames)
    (pos : 0 < s.pmm.refcount f)
    (taken : ∀ q, s.pmm.Evolves q →
      q.refcount = Function.update s.pmm.refcount f (s.pmm.refcount f + 1) →
      post () { s with pmm := q }) : wp (refFrame (frameAddr f)) post Saturated s := by
  rcases pmmRefFrame_spec ok lt pos with ⟨q, run, evolves, counts⟩ | ⟨run, full⟩
  · have step : refFrame (frameAddr f) s = .ok () { s with pmm := q } := by
      simp only [refFrame, run]
    simpa only [wp, step] using taken q evolves counts
  · have step : refFrame (frameAddr f) s = .error .refSaturated s := by
      simp only [refFrame, run]
    simpa only [wp, step] using ⟨rfl, f, full⟩

theorem frameRefcount_spec {post : Nat → MemState → Prop} (ok : s.pmm.Ok) {f : Nat}
    (lt : f < s.pmm.totalFrames) (counted : post (s.pmm.refcount f) s) :
    wp (frameRefcount (frameAddr f)) post halt s := by
  have step : frameRefcount (frameAddr f) s = .ok (s.pmm.refcount f) s := by
    simp only [frameRefcount, pmmFrameRefcount_spec ok lt]
  simpa only [wp, step] using counted

end Primitive

/-! ## What the functions may change -/

/-- Growth: tables stay, frames in use outside the forest keep their contents and
lose no reference, and slots that nobody owns are not written. -/
structure Grow (s : MemState) (g : SpaceGhost) (s' : MemState) (g' : SpaceGhost) : Prop where
  evolves : s.pmm.Evolves s'.pmm
  cr3 : s'.cr3 = s.cr3
  heap : s'.kheapNext = s.kheapNext
  tables : ∀ {t x}, g.role t = some x → g'.role t = some x
  data : ∀ {f}, g.role f = none → 0 < s.pmm.refcount f →
    g'.role f = none ∧ s.pmm.refcount f ≤ s'.pmm.refcount f ∧ s'.mem f = s.mem f
  foreign : ∀ {t o p i}, g.role t = some (o, p) → ¬ ownsSlot o p i → s'.mem t i = s.mem t i

theorem Grow.refl (ok : s.pmm.Ok) (role : g'.role = g.role) : Grow s g s g' where
  evolves := .refl ok
  cr3 := rfl
  heap := rfl
  tables := by
    intro t x at_t
    rwa [role]
  data := by
    intro f free _
    exact ⟨by rwa [role], le_refl _, rfl⟩
  foreign := by
    intros
    rfl

theorem Grow.trans (first : Grow s g s' g') (second : Grow s' g' s'' g'') :
    Grow s g s'' g'' where
  evolves := first.evolves.trans second.evolves
  cr3 := second.cr3.trans first.cr3
  heap := second.heap.trans first.heap
  tables := fun at_t => second.tables (first.tables at_t)
  data := by
    intro f free used
    obtain ⟨free', le, same⟩ := first.data free used
    obtain ⟨free'', le', same'⟩ := second.data free' (lt_of_lt_of_le used le)
    exact ⟨free'', le.trans le', same'.trans same⟩
  foreign := by
    intro t o p i at_t foreign
    exact (second.foreign (first.tables at_t) foreign).trans (first.foreign at_t foreign)

/-- What every function leaves alone: tables stay, frames in use outside the forest keep
their contents, and slots that nobody owns are not written. -/
structure Keep (s : MemState) (g : SpaceGhost) (s' : MemState) (g' : SpaceGhost) : Prop where
  evolves : s.pmm.Evolves s'.pmm
  cr3 : s'.cr3 = s.cr3
  heap : s'.kheapNext = s.kheapNext
  tables : ∀ {t x}, g.role t = some x → g'.role t = some x
  data : ∀ {f}, g.role f = none → 0 < s.pmm.refcount f → g'.role f = none ∧ s'.mem f = s.mem f
  foreign : ∀ {t o p i}, g.role t = some (o, p) → ¬ ownsSlot o p i → s'.mem t i = s.mem t i

theorem Grow.keep (grown : Grow s g s' g') : Keep s g s' g' where
  evolves := grown.evolves
  cr3 := grown.cr3
  heap := grown.heap
  tables := grown.tables
  data := fun free used => ⟨(grown.data free used).1, (grown.data free used).2.2⟩
  foreign := grown.foreign

/-- Growth that the leaves, the outside references and the live spaces do not notice. -/
structure Quiet (k : Nat) (s : MemState) (g : SpaceGhost) (s' : MemState) (g' : SpaceGhost) : Prop
    extends Grow s g s' g' where
  vm : Vm k s' g'
  leaf : g'.leaf = g.leaf
  ext : g'.ext = g.ext
  live : ∀ o, (spaceLayout k).Live g' o ↔ (spaceLayout k).Live g o

theorem Quiet.refl (h : Vm k s g) : Quiet k s g s g :=
  ⟨.refl h.ok rfl, h, rfl, rfl, fun _ => Iff.rfl⟩

theorem Quiet.trans (first : Quiet k s g s' g') (second : Quiet k s' g' s'' g'') :
    Quiet k s g s'' g'' :=
  ⟨first.toGrow.trans second.toGrow, second.vm, second.leaf.trans first.leaf,
    second.ext.trans first.ext, fun o => (second.live o).trans (first.live o)⟩

/-! ## New tables -/

/-- A blanked frame is still outside the forest. -/
theorem Vm.blank (h : Vm k s g) {f : Nat} (free : g.role f = none) (page : Idx → Word) :
    Vm k { s with mem := Function.update s.mem f page } g := by
  refine ⟨h.ok, h.wf.scribble ?_⟩
  intro t o p i at_t _
  have ne : t ≠ f := by
    rintro rfl
    rw [free] at at_t
    cases at_t
  change Function.update s.mem f page t i = s.mem t i
  rw [Function.update_of_ne ne]

/-- A fresh frame is blanked and hung into an empty slot. -/
theorem Vm.hang (h : Vm k s g) {t f : Nat} {o : Owner} {p : List Idx} {i : Idx} {w : Word}
    {q : Pmm} (at_t : g.role t = some (o, p)) (inner : p.length < 3) (own : ownsSlot o p i)
    (notBase : i :: p ≠ (spaceLayout k).base o) (vacant : s.mem t i = 0#64)
    (lt : f < s.pmm.totalFrames) (zero : s.pmm.refcount f = 0) (evolves : s.pmm.Evolves q)
    (counts : q.refcount = Function.update s.pmm.refcount f 1)
    (ok : (spaceLayout k).linkOk w) (target : frameOf w = f) :
    Quiet k s g
      { s with pmm := q, mem := store (Function.update s.mem f (fun _ => 0#64)) t i w }
      ⟨Function.update g.role f (some (o, i :: p)), g.leaf, g.ext⟩ := by
  obtain ⟨free, _, noExt⟩ := h.wf.unused lt zero
  have absent : ∀ {t' x}, g.role t' = some x → t' ≠ f := by
    rintro t' x role rfl
    rw [free] at role
    cases role
  have acquired : Vm k { s with pmm := q }
      ⟨g.role, g.leaf, Function.update g.ext f (g.ext f + 1)⟩ := by
    refine ⟨evolves.ok, ?_⟩
    change (spaceLayout k).WF q.totalFrames q.refcount s.mem _
    rw [evolves.total, counts]
    exact h.wf.acquire lt zero
  have blanked := acquired.blank free (fun _ => 0#64)
  have linked := blanked.wf.linkTable (w := w) at_t inner own
    ((congrFun (Function.update_of_ne (absent at_t) _ _) i).trans vacant) notBase
    (by change f < q.totalFrames; rwa [evolves.total])
    (by change q.refcount f = 1; rw [counts, Function.update_self])
    (by change Function.update g.ext f (g.ext f + 1) f = 1; rw [Function.update_self, noExt])
    (fun j _ => congrFun (Function.update_self f (fun _ => 0#64) s.mem) j)
    (linkOk_ne_zero ok) ok target
  refine ⟨⟨evolves, rfl, rfl, ?_, ?_, ?_⟩, ⟨evolves.ok, ?_⟩, rfl, rfl, ?_⟩
  · intro t' x role
    exact (Function.update_of_ne (absent role) _ _).trans role
  · intro f' free' used
    have ne : f' ≠ f := by
      rintro rfl
      omega
    have ne' : f' ≠ t := by
      rintro rfl
      rw [free'] at at_t
      cases at_t
    refine ⟨(Function.update_of_ne ne _ _).trans free', ?_, ?_⟩
    · change s.pmm.refcount f' ≤ q.refcount f'
      rw [counts, Function.update_of_ne ne]
    · exact (store_frame _ i w ne').trans (Function.update_of_ne ne _ _)
  · intro t' o' p' i' role foreign
    have off : ¬ (t' = t ∧ i' = i) := by
      rintro ⟨rfl, rfl⟩
      rw [at_t] at role
      obtain ⟨rfl, rfl⟩ := Prod.mk.inj (Option.some.inj role)
      exact foreign own
    exact (store_of_ne _ w off).trans (congrFun (Function.update_of_ne (absent role) _ _) i')
  · have same : Function.update (Function.update g.ext f (g.ext f + 1)) f 0 = g.ext := by
      rw [Function.update_idem, ← noExt, Function.update_eq_self]
    rw [← same]
    exact linked
  · intro o'
    unfold Layout.Live
    dsimp only
    by_cases here : (spaceLayout k).baseFrame o' = f
    · rw [here, Function.update_self, free]
      constructor
      · intro eq
        obtain ⟨rfl, eq'⟩ := Prod.mk.inj (Option.some.inj eq)
        exact absurd eq' notBase
      · intro eq
        cases eq
    · rw [Function.update_of_ne here]

/-! ## Walking and mapping -/

/-- The table a walk step arrives at. -/
def Arrived (s' : MemState) (g' : SpaceGhost) (t : Nat) (i : Idx) (o : Owner) (p : List Idx)
    (next : Nat) : Prop :=
  g'.role next = some (o, i :: p) ∧ s'.mem t i ≠ 0#64 ∧ frameOf (s'.mem t i) = next

theorem ptWalkOrAlloc_spec (h : Vm k s g) {t : Nat} {o : Owner} {p : List Idx} {i : Idx}
    (at_t : g.role t = some (o, p)) (inner : p.length < 3) (own : ownsSlot o p i)
    (notBase : i :: p ≠ (spaceLayout k).base o) :
    wp (ptWalkOrAlloc t i) (fun r s' => ∃ g', Quiet k s g s' g' ∧
      ∀ next, r = some next → Arrived s' g' t i o p next) Saturated s := by
  unfold ptWalkOrAlloc
  rw [wp_bind, wp_readEntry]
  apply wp_ite
  · intro present
    have filled : s.mem t i ≠ 0#64 := fun zero => present ((h.link_present at_t inner own).mpr zero)
    refine ⟨g, .refl h, ?_⟩
    rintro next ⟨rfl⟩
    exact ⟨(h.wf.link at_t inner own filled).2, filled, rfl⟩
  · intro absent
    have vacant := (h.link_present at_t inner own).mp (not_not.mp absent)
    rw [wp_bind]
    apply allocFrame_spec h
    · intro _
      exact ⟨g, .refl h, fun next none => by cases none⟩
    · intro f q lt zero evolves counts _
      have small := h.frame_small lt
      have ok : (spaceLayout k).linkOk (tableEntry (frameAddr f)) := by
        rw [linkOk_iff, tableEntry_low f (by decide), tableEntry_low f (by decide)]
        decide
      have grown := h.hang at_t inner own notBase vacant lt zero evolves counts ok
        (tableEntry_frame small)
      simp only [wp_bind, wp_zeroFrame, wp_writeEntry, wp_pure, frameOf_frameAddr small]
      refine ⟨_, grown, ?_⟩
      rintro next ⟨rfl⟩
      refine ⟨Function.update_self .., ?_, ?_⟩
      · change store _ t i _ t i ≠ 0#64
        rw [store_same]
        exact linkOk_ne_zero ok
      · change frameOf (store _ t i _ t i) = f
        rw [store_same, tableEntry_frame small]

theorem markUser_spec (h : Vm k s g) {t : Nat} {o : Owner} {p : List Idx} {i : Idx}
    (flags : Word) (at_t : g.role t = some (o, p)) (inner : p.length < 3) (own : ownsSlot o p i)
    (filled : s.mem t i ≠ 0#64) :
    wp (markUser flags t i) (fun _ s' => Quiet k s g s' g) Saturated s := by
  unfold markUser
  apply wp_ite
  · intro _
    rw [wp_bind, wp_readEntry, wp_writeEntry]
    obtain ⟨present, huge⟩ := linkOk_iff.mp (h.wf.link at_t inner own filled).1
    have ok : (spaceLayout k).linkOk (s.mem t i ||| vmmUser) := by
      rw [linkOk_iff, BitVec.getLsbD_or, BitVec.getLsbD_or, present, huge]
      decide
    refine ⟨⟨.refl h.ok, rfl, rfl, fun x => x, ?_, ?_⟩, ⟨h.ok, ?_⟩, rfl, rfl, fun _ => Iff.rfl⟩
    · intro f free _
      have ne : f ≠ t := by
        rintro rfl
        rw [free] at at_t
        cases at_t
      exact ⟨free, le_refl _, store_frame _ i _ ne⟩
    · intro t' o' p' i' role foreign
      apply store_of_ne
      rintro ⟨rfl, rfl⟩
      rw [at_t] at role
      obtain ⟨rfl, rfl⟩ := Prod.mk.inj (Option.some.inj role)
      exact foreign own
    · exact h.wf.relabelLink at_t inner filled (linkOk_ne_zero ok) ok
        (frameOf_or_flags _ (by decide))
  · intro _
    exact .refl h

/-- The effect of mapping frame `f` at slot `x`: the leaf is written, the reference held
outside for it is gone, and a reference of the old leaf is left outside. -/
def Mapped (g g' : SpaceGhost) (x : Owner × List Idx) (w : Word) : Prop :=
  g'.leaf = Function.update g.leaf x w ∧
    ∀ f, g'.ext f + (if frameOf w = f then 1 else 0) =
      g.ext f + (if g.leaf x ≠ 0#64 ∧ frameOf (g.leaf x) = f then 1 else 0)

/-- `vmm_map_page` ends in growth; on success one leaf is written. -/
structure MapResult (k : Nat) (s : MemState) (g : SpaceGhost) (x : Owner × List Idx) (w : Word)
    (done : Bool) (s' : MemState) (g' : SpaceGhost) : Prop extends Grow s g s' g' where
  vm : Vm k s' g'
  live : ∀ o, (spaceLayout k).Live g' o ↔ (spaceLayout k).Live g o
  effect : if done then Mapped g g' x w else g'.leaf = g.leaf ∧ g'.ext = g.ext

theorem Quiet.map {x : Owner × List Idx} {w : Word} {done : Bool} (first : Quiet k s g s' g')
    (second : MapResult k s' g' x w done s'' g'') : MapResult k s g x w done s'' g'' := by
  refine ⟨first.toGrow.trans second.toGrow, second.vm,
    fun o => (second.live o).trans (first.live o), ?_⟩
  have effect := second.effect
  rw [Mapped, first.leaf, first.ext] at effect
  exact effect

theorem Quiet.notMapped {x : Owner × List Idx} {w : Word} (q : Quiet k s g s' g') :
    MapResult k s g x w false s' g' :=
  ⟨q.toGrow, q.vm, q.live, q.leaf, q.ext⟩

/-- The leaf of a page is written; its frame must be held outside. -/
theorem Vm.mapLeaf (h : Vm k s g) {t : Nat} {o : Owner} {p : List Idx} {i : Idx} {w : Word}
    (at_t : g.role t = some (o, p)) (full : p.length = 3) (own : ownsSlot o p i)
    (ok : (spaceLayout k).leafOk o w) (lt : frameOf w < s.pmm.totalFrames)
    (held : 0 < g.ext (frameOf w)) (nonempty : w ≠ 0#64) :
    ∃ ext', MapResult k s g (o, i :: p) w true { s with mem := store s.mem t i w }
      ⟨g.role, Function.update g.leaf (o, i :: p) w, ext'⟩ := by
  have data := h.wf.role_none_of_ext held
  have old : g.leaf (o, i :: p) = s.mem t i := h.wf.leaf_mem at_t full own
  let ext' : Nat → Nat := fun f =>
    g.ext f + (if s.mem t i ≠ 0#64 ∧ frameOf (s.mem t i) = f then 1 else 0) -
      (if frameOf w = f then 1 else 0)
  have balance : ∀ f, ext' f + (if frameOf w = f then 1 else 0) =
      g.ext f + (if s.mem t i ≠ 0#64 ∧ frameOf (s.mem t i) = f then 1 else 0) := by
    intro f
    have enough : (if frameOf w = f then 1 else 0) ≤ g.ext f := by
      split
      · rename_i here
        rwa [← here]
      · exact Nat.zero_le _
    dsimp only [ext']
    omega
  refine ⟨ext', ⟨.refl h.ok, rfl, rfl, fun x => x, ?_, ?_⟩, ⟨h.ok, ?_⟩, fun _ => Iff.rfl, rfl, ?_⟩
  · intro f free _
    have ne : f ≠ t := by
      rintro rfl
      rw [free] at at_t
      cases at_t
    exact ⟨free, le_refl _, store_frame _ i _ ne⟩
  · intro t' o' p' i' role foreign
    apply store_of_ne
    rintro ⟨rfl, rfl⟩
    rw [at_t] at role
    obtain ⟨rfl, rfl⟩ := Prod.mk.inj (Option.some.inj role)
    exact foreign own
  · apply h.wf.leafWrite at_t full own (fun _ => ⟨ok, lt, data⟩)
    intro f
    have filled : w ≠ (spaceLayout k).empty := nonempty
    simp only [ne_eq, filled, not_false_eq_true, true_and]
    exact balance f
  · intro f
    rw [old]
    exact balance f

theorem mapBelowPdpt_spec (h : Vm k s g) {pdpt f : Nat} {o : Owner} {v flags : Word}
    (at_pdpt : g.role pdpt = some (o, [pml4Idx v])) (own₃ : ownsSlot o [pml4Idx v] (pdptIdx v))
    (own₂ : ownsSlot o [pdptIdx v, pml4Idx v] (pdIdx v)) (lt : f < s.pmm.totalFrames)
    (held : 0 < g.ext f) (ok : (spaceLayout k).leafOk o (leafEntry (frameAddr f) flags)) :
    wp (mapBelowPdpt pdpt v (frameAddr f) flags) (fun done s' => ∃ g',
      MapResult k s g (o, pagePath v) (leafEntry (frameAddr f) flags) done s' g') Saturated s := by
  have small := h.frame_small lt
  have notBase : ∀ (i j : Idx) (p : List Idx), i :: j :: p ≠ (spaceLayout k).base o := by
    intro i j p
    cases o <;> simp [spaceLayout]
  have own₁ : ownsSlot o [pdIdx v, pdptIdx v, pml4Idx v] (ptIdx v) := by
    cases o <;> trivial
  unfold mapBelowPdpt
  refine wp_seq (ptWalkOrAlloc_spec h at_pdpt (by simp) own₃ (notBase _ _ _)) ?_
  rintro (_ | pd) s₁ ⟨g₁, q₁, arrived⟩
  · exact ⟨g₁, q₁.notMapped⟩
  obtain ⟨at_pd, filled, _⟩ := arrived pd rfl
  refine wp_seq (markUser_spec q₁.vm flags (q₁.tables at_pdpt) (by simp) own₃ filled) ?_
  intro _ s₂ q₂
  have upto₂ := q₁.trans q₂
  rw [wp_bind, wp_readEntry]
  apply wp_ite
  · intro _
    exact ⟨g₁, upto₂.notMapped⟩
  intro _
  refine wp_seq (ptWalkOrAlloc_spec q₂.vm at_pd (by simp) own₂ (notBase _ _ _)) ?_
  rintro (_ | pt) s₃ ⟨g₃, q₃, arrived₃⟩
  · exact ⟨g₃, (upto₂.trans q₃).notMapped⟩
  obtain ⟨at_pt, filled₃, _⟩ := arrived₃ pt rfl
  refine wp_seq (markUser_spec q₃.vm flags (q₃.tables at_pd) (by simp) own₂ filled₃) ?_
  intro _ s₄ q₄
  have upto₄ := (upto₂.trans q₃).trans q₄
  rw [wp_bind, wp_writeEntry, wp_pure]
  have target := leafEntry_frame small flags
  obtain ⟨ext', mapped⟩ := q₄.vm.mapLeaf at_pt rfl own₁ ok
    (by rw [target, upto₄.evolves.total]; exact lt)
    (by rw [target, upto₄.ext]; exact held)
    (ne_zero_of_bit (k := 0) (by rw [leafEntry_low f flags (by decide)]; simp))
  exact ⟨_, upto₄.map mapped⟩

/-- Mapping a held frame at a page a user space owns. -/
theorem vmmMapPage_spec (h : Vm k s g) {r f : Nat} {v flags : Word}
    (live : (spaceLayout k).Live g (.user r)) (page : UserPage v)
    (lt : f < s.pmm.totalFrames) (held : 0 < g.ext f) (user : flags.getLsbD 2 = true) :
    wp (vmmMapPage r v (frameAddr f) flags) (fun done s' => ∃ g',
      MapResult k s g (.user r, pagePath v) (leafEntry (frameAddr f) flags) done s' g')
      Saturated s := by
  obtain ⟨lower, window⟩ := page
  have ok : (spaceLayout k).leafOk (.user r) (leafEntry (frameAddr f) flags) := by
    rw [leafOk_user_iff, leafEntry_low f flags (by decide), leafEntry_low f flags (by decide), user]
    simp
  unfold vmmMapPage
  refine wp_seq (ptWalkOrAlloc_spec h live (by simp [spaceLayout]) lower (by simp [spaceLayout])) ?_
  rintro (_ | pdpt) s₁ ⟨g₁, q₁, arrived⟩
  · exact ⟨g₁, q₁.notMapped⟩
  obtain ⟨at_pdpt, filled, _⟩ := arrived pdpt rfl
  refine wp_seq (markUser_spec q₁.vm flags (q₁.tables live) (by simp [spaceLayout]) lower filled) ?_
  intro _ s₂ q₂
  have upto := q₁.trans q₂
  refine wp_imp (mapBelowPdpt_spec q₂.vm at_pdpt window trivial
    (by rw [upto.evolves.total]; exact lt) (by rw [upto.ext]; exact held) ok) ?_
  rintro done s₃ ⟨g₃, mapped⟩
  exact ⟨g₃, upto.map mapped⟩

/-! ## Clearing leaves and giving frames back -/

/-- A leaf is cleared; its reference is then held outside. -/
theorem Vm.clearLeaf (h : Vm k s g) {t : Nat} {o : Owner} {p : List Idx} {i : Idx}
    (at_t : g.role t = some (o, p)) (full : p.length = 3) (own : ownsSlot o p i)
    (filled : s.mem t i ≠ 0#64) :
    Vm k { s with mem := store s.mem t i 0#64 }
      ⟨g.role, Function.update g.leaf (o, i :: p) 0#64,
        Function.update g.ext (frameOf (s.mem t i)) (g.ext (frameOf (s.mem t i)) + 1)⟩ := by
  refine ⟨h.ok, h.wf.leafWrite at_t full own (fun nonempty => absurd rfl nonempty) ?_⟩
  intro f
  have nonempty : s.mem t i ≠ (spaceLayout k).empty := filled
  have target : (spaceLayout k).target (s.mem t i) = frameOf (s.mem t i) := rfl
  have empty : (0#64 : Word) = (spaceLayout k).empty := rfl
  simp only [empty, ne_eq, not_true_eq_false, false_and, if_false, nonempty, not_false_eq_true,
    true_and, target, Nat.add_zero]
  by_cases here : f = frameOf (s.mem t i)
  · subst here
    simp
  · simp [Function.update_of_ne here, Ne.symm here]

/-- A reference held outside is given back to the pool. -/
theorem Vm.dropHeld (h : Vm k s g) {f : Nat} {q : Pmm} (lt : f < s.pmm.totalFrames)
    (held : 0 < g.ext f) (evolves : s.pmm.Evolves q)
    (counts : q.refcount = Function.update s.pmm.refcount f (s.pmm.refcount f - 1)) :
    Vm k { s with pmm := q } ⟨g.role, g.leaf, Function.update g.ext f (g.ext f - 1)⟩ := by
  refine ⟨evolves.ok, ?_⟩
  change (spaceLayout k).WF q.totalFrames q.refcount s.mem _
  rw [evolves.total, counts]
  exact h.wf.release lt held

/-- A further reference to a frame that is not a table is held outside. -/
theorem Vm.hold (h : Vm k s g) {f : Nat} {q : Pmm} (data : g.role f = none)
    (evolves : s.pmm.Evolves q)
    (counts : q.refcount = Function.update s.pmm.refcount f (s.pmm.refcount f + 1)) :
    Vm k { s with pmm := q } ⟨g.role, g.leaf, Function.update g.ext f (g.ext f + 1)⟩ := by
  refine ⟨evolves.ok, ?_⟩
  change (spaceLayout k).WF q.totalFrames q.refcount s.mem _
  rw [evolves.total, counts]
  exact h.wf.retain data

/-- A leaf may change its flags as long as it names the same frame. -/
theorem Vm.relabelLeaf (h : Vm k s g) {t : Nat} {o : Owner} {p : List Idx} {i : Idx} {w : Word}
    (at_t : g.role t = some (o, p)) (full : p.length = 3) (own : ownsSlot o p i)
    (filled : s.mem t i ≠ 0#64) (ok : (spaceLayout k).leafOk o w) (nonempty : w ≠ 0#64)
    (target : frameOf w = frameOf (s.mem t i)) :
    Grow s g { s with mem := store s.mem t i w }
        ⟨g.role, Function.update g.leaf (o, i :: p) w, g.ext⟩ ∧
      Vm k { s with mem := store s.mem t i w }
        ⟨g.role, Function.update g.leaf (o, i :: p) w, g.ext⟩ := by
  have leaf := h.wf.leaf_mem at_t full own
  have good := h.wf.leaf (x := (o, i :: p)) (by rw [leaf]; exact filled)
  rw [leaf] at good
  refine ⟨⟨.refl h.ok, rfl, rfl, fun x => x, ?_, ?_⟩, h.ok, ?_⟩
  · intro f free _
    have ne : f ≠ t := by
      rintro rfl
      rw [free] at at_t
      cases at_t
    exact ⟨free, le_refl _, store_frame _ i _ ne⟩
  · intro t' o' p' i' role foreign
    apply store_of_ne
    rintro ⟨rfl, rfl⟩
    rw [at_t] at role
    obtain ⟨rfl, rfl⟩ := Prod.mk.inj (Option.some.inj role)
    exact foreign own
  · apply h.wf.leafWrite at_t full own
    · intro _
      refine ⟨ok, ?_⟩
      change frameOf w < s.pmm.totalFrames ∧ g.role (frameOf w) = none
      rw [target]
      exact good.2
    · intro f
      have filled' : s.mem t i ≠ (spaceLayout k).empty := filled
      have nonempty' : w ≠ (spaceLayout k).empty := nonempty
      have target' : (spaceLayout k).target w = (spaceLayout k).target (s.mem t i) := target
      simp only [ne_eq, filled', nonempty', not_false_eq_true, true_and, target']

/-- Frames held outside have a positive count. -/
theorem Vm.rc_pos_of_ext (h : Vm k s g) {f : Nat} (lt : f < s.pmm.totalFrames)
    (held : 0 < g.ext f) : 0 < s.pmm.refcount f := by
  have count := h.wf.count f lt
  omega

end LithiumKernel.Mm
