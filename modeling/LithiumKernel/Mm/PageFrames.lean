import LithiumKernel.Mm.PageMap

/-!
# The frames that mapping a page takes

`vmm_map_page` hangs in a table for each level that is missing on the way and takes a frame from
the pool for each. What is taken between two states is counted here: the paths at which tables
were hung in, and the frames handed out for data. A page can be mapped exactly if no 2 MiB page
is in the way and the pool has a frame for each missing table.
-/
namespace LithiumKernel.Lib.Radix

variable {Idx W : Type} {F : Format W} {mem mem' : Nat → Idx → W} {root : Nat}

section SameTables

variable (same : ∀ ⦃q : List Idx⦄ ⦃t : Nat⦄, tableAt F mem root q = some t → mem' t = mem t)

include same

theorem tableAt_congr (q : List Idx) : tableAt F mem' root q = tableAt F mem root q := by
  induction q with
  | nil => rfl
  | cons j q ih =>
    rw [tableAt, tableAt, ih]
    cases at_q : tableAt F mem root q with
    | none => rfl
    | some t => rw [Option.bind_some, Option.bind_some, same at_q]

theorem lookup_congr (q : List Idx) : lookup F mem' root q = lookup F mem root q := by
  induction q with
  | nil => rfl
  | cons j q ih =>
    cases at_q : tableAt F mem root q with
    | none => rw [lookup_skip at_q, lookup_skip ((tableAt_congr same q).trans at_q), ih]
    | some t => rw [lookup_cons at_q, lookup_cons ((tableAt_congr same q).trans at_q), same at_q]

theorem OnePath.congr (one : OnePath F mem root) : OnePath F mem' root := by
  intro q q' t at_q at_q'
  rw [tableAt_congr same] at at_q at_q'
  exact one at_q at_q'

end SameTables

end LithiumKernel.Lib.Radix

namespace LithiumKernel.Mm

open LithiumKernel.Lib LithiumKernel.Lib.Forest LithiumKernel.Lib.Radix

/-- The paths of the three tables below the root that the walk to a page goes through. -/
def tablePaths (v : Word) : List (List Idx) :=
  [[pml4Idx v], [pdptIdx v, pml4Idx v], [pdIdx v, pdptIdx v, pml4Idx v]]

/-- The tables that are not there yet, of those the walks to the pages go through. -/
def missing (mem : PhysMem) (root : Nat) (pages : List Word) : Finset (List Idx) :=
  (pages.flatMap tablePaths).toFinset.filter fun q => pageTable mem root q = none

/-- The path, if it leads to no table. -/
def absentAt (mem : PhysMem) (root : Nat) (q : List Idx) : Finset (List Idx) :=
  if pageTable mem root q = none then {q} else ∅

theorem missing_append (mem : PhysMem) (root : Nat) (pages more : List Word) :
    missing mem root (pages ++ more) = missing mem root pages ∪ missing mem root more := by
  rw [missing, List.flatMap_append, List.toFinset_append, Finset.filter_union]
  rfl

theorem card_missing_le (mem : PhysMem) (root : Nat) (pages more : List Word) :
    (missing mem root pages).card ≤ (missing mem root (pages ++ more)).card := by
  rw [missing_append]
  exact Finset.card_le_card Finset.subset_union_left

theorem missing_page (mem : PhysMem) (root : Nat) (v : Word) :
    missing mem root [v] = absentAt mem root [pml4Idx v] ∪
      (absentAt mem root [pdptIdx v, pml4Idx v] ∪
        absentAt mem root [pdIdx v, pdptIdx v, pml4Idx v]) := by
  rw [missing, List.flatMap_singleton, tablePaths, List.toFinset_cons, List.toFinset_cons,
    List.toFinset_cons, List.toFinset_nil, Finset.insert_eq, Finset.insert_eq,
    LawfulSingleton.insert_empty_eq, Finset.filter_union, Finset.filter_union, Finset.filter_singleton,
    Finset.filter_singleton, Finset.filter_singleton]
  rfl

/-- The directory entry of the page has the size bit. -/
def Barred (mem : PhysMem) (root : Nat) (v : Word) : Prop :=
  ∃ pd, pageTable mem root [pdptIdx v, pml4Idx v] = some pd ∧
    mem pd (pdIdx v) &&& vmmHuge ≠ 0#64

/-- A frame that holds data: in use, counted once, and no table. -/
structure Held (s : MemState) (root f : Nat) : Prop where
  lt : f < s.pmm.totalFrames
  used : s.pmm.frameIsFree f = false
  once : s.pmm.refcount f = 1
  data : ∀ q, pageTable s.mem root q ≠ some f

/-- What was drawn from the pool between two states: a frame for each table hung in at `new`,
and the data frames `frames`, still empty. -/
structure Drawn (root : Nat) (s s' : MemState) (new : Finset (List Idx)) (frames : List Nat) :
    Prop where
  tree : PageTree s' root
  ok : s'.pmm.Ok
  total : s'.pmm.totalFrames = s.pmm.totalFrames
  tables : ∀ q, pageTable s'.mem root q ≠ none ↔ pageTable s.mem root q ≠ none ∨ q ∈ new
  absent : ∀ q ∈ new, pageTable s.mem root q = none
  distinct : frames.Nodup
  left : s'.pmm.freeFrames + new.card + frames.length = s.pmm.freeFrames
  held : ∀ f ∈ frames, Held s' root f
  zero : ∀ f ∈ frames, s'.mem f = fun _ => 0#64
  fresh : ∀ f ∈ frames, s.pmm.refcount f = 0 ∧ s.pmm.frameIsFree f = true
  rest : ∀ f, f ∉ frames →
    s'.pmm.refcount f = s.pmm.refcount f ∧ s'.pmm.frameIsFree f = s.pmm.frameIsFree f ∨
      ∃ q ∈ new, pageTable s'.mem root q = some f
  barred : ∀ w, Barred s'.mem root w ↔ Barred s.mem root w

variable {s s₀ s' : MemState} {root t f : Nat} {p : List Idx} {i : Idx} {v : Word}
  {new : Finset (List Idx)} {frames : List Nat} {halt : Kassert → MemState → Prop}

theorem Drawn.refl (tree : PageTree s root) (ok : s.pmm.Ok) : Drawn root s s ∅ [] where
  tree := tree
  ok := ok
  total := rfl
  tables q := by simp
  absent := by simp
  distinct := List.nodup_nil
  left := rfl
  held := nofun
  zero := nofun
  fresh := nofun
  rest f _ := .inl ⟨rfl, rfl⟩
  barred _ := Iff.rfl

/-! ## The pool -/

theorem takeFrame_other (p : Pmm) {f g : Nat} (other : g ≠ f) :
    (p.takeFrame f).refcount g = p.refcount g ∧
      (p.takeFrame f).frameIsFree g = p.frameIsFree g := by
  refine ⟨Function.update_of_ne other _ _, ?_⟩
  rw [Bool.eq_iff_iff, Pmm.takeFrame_free]
  exact and_iff_left other

theorem takeFrame_self (p : Pmm) (f : Nat) :
    (p.takeFrame f).refcount f = 1 ∧ (p.takeFrame f).frameIsFree f = false := by
  refine ⟨Function.update_self .., Bool.eq_false_iff.mpr fun still => ?_⟩
  exact ((Pmm.takeFrame_free p f f).mp still).2 rfl

/-- The last reference is given up. -/
theorem dropFrame_last {p : Pmm} {f : Nat} (once : p.refcount f = 1) :
    (p.dropFrame f).refcount f = 0 ∧ (p.dropFrame f).frameIsFree f = true ∧
      (p.dropFrame f).freeFrames = p.freeFrames + 1 := by
  refine ⟨?_, (Pmm.dropFrame_free p f f).mpr (.inr ⟨rfl, once.le⟩), ?_⟩
  · rw [Pmm.dropFrame_refcount, Function.update_self, once]
  · simp [Pmm.dropFrame, once]

theorem dropFrame_other (p : Pmm) {f g : Nat} (other : g ≠ f) :
    (p.dropFrame f).refcount g = p.refcount g ∧
      (p.dropFrame f).frameIsFree g = p.frameIsFree g := by
  refine ⟨?_, ?_⟩
  · rw [Pmm.dropFrame_refcount, Function.update_of_ne other]
  · rw [Bool.eq_iff_iff, Pmm.dropFrame_free]
    exact or_iff_left fun same => other same.1

/-! ## One step -/

/-- A step that leaves every table as it is and frees none. -/
theorem Unnoticed.congr (tree : PageTree s root)
    (same : ∀ ⦃q t⦄, pageTable s.mem root q = some t → s'.mem t = s.mem t)
    (used : ∀ {q t}, pageTable s.mem root q = some t → t < s.pmm.totalFrames →
      s'.pmm.frameIsFree t = false)
    (total : s'.pmm.totalFrames = s.pmm.totalFrames) : Unnoticed root s s' where
  tree.one := tree.one.congr same
  tree.small := by
    intro i t at_t j present
    rw [pageTable, tableAt_congr same] at at_t
    rw [same at_t] at present ⊢
    exact tree.small at_t j present
  tree.fresh := by
    intro q t at_t lt
    rw [pageTable, tableAt_congr same] at at_t
    exact used at_t (total ▸ lt)
  tree.total := total ▸ tree.total
  pages q _ := lookup_congr same q
  tables at_q := (tableAt_congr same _).trans at_q

/-- A frame the pool hands out is no table and no data frame. -/
theorem Drawn.new_frame (h : Drawn root s₀ s new frames) (lt : f < s.pmm.totalFrames)
    (free : s.pmm.frameIsFree f = true) :
    f ∉ frames ∧ ∀ q, pageTable s.mem root q ≠ some f := by
  constructor
  · intro member
    rw [(h.held f member).used] at free
    cases free
  · intro q at_q
    rw [h.tree.fresh at_q lt] at free
    cases free

/-- Before the first step the frame was free too. -/
theorem Drawn.was_free (h : Drawn root s₀ s new frames) (lt : f < s.pmm.totalFrames)
    (free : s.pmm.frameIsFree f = true) :
    s₀.pmm.refcount f = 0 ∧ s₀.pmm.frameIsFree f = true := by
  obtain ⟨off, noTable⟩ := h.new_frame lt free
  rcases h.rest f off with ⟨count, bit⟩ | ⟨q, _, at_q⟩
  · exact ⟨count ▸ h.ok.free_zero f lt free, bit ▸ free⟩
  · exact absurd at_q (noTable q)

/-- A data frame is taken and cleared. -/
theorem Drawn.data (h : Drawn root s₀ s new frames) (lt : f < s.pmm.totalFrames)
    (free : s.pmm.frameIsFree f = true) :
    let s' := { s with pmm := s.pmm.takeFrame f, mem := Function.update s.mem f fun _ => 0#64 }
    Drawn root s₀ s' new (frames ++ [f]) ∧ Unnoticed root s s' := by
  intro s'
  obtain ⟨off, noTable⟩ := h.new_frame lt free
  have same : ∀ ⦃q t⦄, pageTable s.mem root q = some t → s'.mem t = s.mem t := by
    intro q t at_q
    refine Function.update_of_ne ?_ _ _
    rintro rfl
    exact noTable q at_q
  have tables : ∀ q, pageTable s'.mem root q = pageTable s.mem root q := tableAt_congr same
  have quiet : Unnoticed root s s' := by
    refine .congr h.tree same ?_ rfl
    intro q t at_q bound
    have other : t ≠ f := fun eq => noTable q (eq ▸ at_q)
    exact (takeFrame_other s.pmm other).2.trans (h.tree.fresh at_q bound)
  have left := takeFrame_left h.ok lt free
  have count := h.left
  refine ⟨{
    tree := quiet.tree
    ok := Pmm.takeFrame_ok h.ok lt free
    total := h.total
    tables := fun q => by rw [← h.tables, tables]
    absent := h.absent
    distinct := List.nodup_append.mpr ⟨h.distinct, List.nodup_singleton f, ?_⟩
    left := ?_
    held := ?_
    zero := ?_
    fresh := ?_
    rest := ?_
    barred := ?_ }, quiet⟩
  · rintro g member _ last rfl
    exact off ((List.mem_singleton.mp last) ▸ member)
  · change (s.pmm.takeFrame f).freeFrames + _ + _ = _
    rw [List.length_append, List.length_singleton]
    omega
  · intro g member
    rcases List.mem_append.mp member with old | last
    · have other : g ≠ f := fun eq => off (eq ▸ old)
      obtain ⟨lt', used, once, data⟩ := h.held g old
      obtain ⟨count', free'⟩ := takeFrame_other s.pmm other
      exact ⟨lt', free'.trans used, count'.trans once, fun q => (tables q).symm ▸ data q⟩
    · obtain rfl := List.mem_singleton.mp last
      obtain ⟨count', used⟩ := takeFrame_self s.pmm g
      exact ⟨lt, used, count', fun q => (tables q).symm ▸ noTable q⟩
  · intro g member
    rcases List.mem_append.mp member with old | last
    · have other : g ≠ f := fun eq => off (eq ▸ old)
      exact (Function.update_of_ne other _ _).trans (h.zero g old)
    · obtain rfl := List.mem_singleton.mp last
      exact Function.update_self ..
  · intro g member
    rcases List.mem_append.mp member with old | last
    · exact h.fresh g old
    · obtain rfl := List.mem_singleton.mp last
      exact h.was_free lt free
  · intro g outside
    rw [List.mem_append, not_or, List.mem_singleton] at outside
    obtain ⟨count', free'⟩ := takeFrame_other s.pmm outside.2
    rcases h.rest g outside.1 with ⟨same₁, same₂⟩ | ⟨q, member, at_q⟩
    · exact .inl ⟨count'.trans same₁, free'.trans same₂⟩
    · exact .inr ⟨q, member, (tables q).trans at_q⟩
  · intro w
    rw [← h.barred, Barred, Barred]
    refine exists_congr fun pd => ?_
    rw [tables]
    exact and_congr_right fun at_pd => by rw [same at_pd]

/-- A data frame goes back to the pool. -/
theorem Drawn.give {back : List Nat} (h : Drawn root s₀ s new frames)
    (order : frames.Perm (f :: back)) :
    let s' := { s with pmm := s.pmm.dropFrame f }
    Drawn root s₀ s' new back ∧ Unnoticed root s s' := by
  intro s'
  have member : f ∈ frames := order.mem_iff.mpr List.mem_cons_self
  have inside : ∀ g ∈ back, g ∈ frames := fun g old => order.mem_iff.mpr (.tail _ old)
  obtain ⟨outside, distinct⟩ := List.nodup_cons.mp (order.nodup_iff.mp h.distinct)
  obtain ⟨lt, used, once, noTable⟩ := h.held f member
  obtain ⟨zero, free, more⟩ := dropFrame_last once
  have count := h.left
  have quiet : Unnoticed root s s' := by
    refine .congr h.tree (fun _ _ _ => rfl) ?_ (Pmm.dropFrame_total ..)
    intro q t at_q bound
    have other : t ≠ f := fun eq => noTable q (eq ▸ at_q)
    exact (dropFrame_other s.pmm other).2.trans (h.tree.fresh at_q bound)
  refine ⟨{
    tree := quiet.tree
    ok := Pmm.dropFrame_ok h.ok lt used
    total := (Pmm.dropFrame_total ..).trans h.total
    tables := h.tables
    absent := h.absent
    distinct := distinct
    left := ?_
    held := ?_
    zero := fun g old => h.zero g (inside g old)
    fresh := fun g old => h.fresh g (inside g old)
    rest := ?_
    barred := h.barred }, quiet⟩
  · change (s.pmm.dropFrame f).freeFrames + _ + _ = _
    rw [order.length_eq, List.length_cons] at count
    omega
  · intro g old
    have other : g ≠ f := fun eq => outside (eq ▸ old)
    obtain ⟨lt', used', once', data⟩ := h.held g (inside g old)
    obtain ⟨count', free'⟩ := dropFrame_other s.pmm other
    exact ⟨(Pmm.dropFrame_total ..).symm ▸ lt', free'.trans used', count'.trans once', data⟩
  · intro g off
    by_cases same : g = f
    · subst same
      obtain ⟨count₀, free₀⟩ := h.fresh g member
      exact .inl ⟨zero.trans count₀.symm, free.trans free₀.symm⟩
    · obtain ⟨count', free'⟩ := dropFrame_other s.pmm same
      have before : g ∉ frames := fun old => (List.mem_cons.mp (order.mem_iff.mp old)).elim same off
      rcases h.rest g before with ⟨same₁, same₂⟩ | linked
      · exact .inl ⟨count'.trans same₁, free'.trans same₂⟩
      · exact .inr linked

/-- A step that changes no path and no data frame, and leaves the pool alone. -/
theorem Drawn.keep (h : Drawn root s₀ s new frames) (quiet : PageTree s' root)
    (pool : s'.pmm = s.pmm) (paths : ∀ q, pageTable s'.mem root q = pageTable s.mem root q)
    (data : ∀ f, (∀ q, pageTable s.mem root q ≠ some f) → s'.mem f = s.mem f)
    (sizes : ∀ q t j, q.length = 2 → pageTable s.mem root q = some t →
      (s'.mem t j &&& vmmHuge = 0#64 ↔ s.mem t j &&& vmmHuge = 0#64)) :
    Drawn root s₀ s' new frames where
  tree := quiet
  ok := pool ▸ h.ok
  total := pool ▸ h.total
  tables q := by rw [paths, h.tables]
  absent := h.absent
  distinct := h.distinct
  left := pool ▸ h.left
  held f member := by
    obtain ⟨lt, used, once, noTable⟩ := h.held f member
    exact ⟨pool ▸ lt, pool ▸ used, pool ▸ once, fun q => (paths q).symm ▸ noTable q⟩
  zero f member := (data f (h.held f member).data).trans (h.zero f member)
  fresh := h.fresh
  rest f outside := by
    rw [pool]
    refine (h.rest f outside).imp_right ?_
    rintro ⟨q, member, at_q⟩
    exact ⟨q, member, (paths q).trans at_q⟩
  barred w := by
    rw [← h.barred, Barred, Barred]
    refine exists_congr fun pd => ?_
    rw [paths]
    exact and_congr_right fun at_pd => (sizes _ pd _ rfl at_pd).not

theorem tableEntry_plain (f : Nat) : tableEntry (frameAddr f) &&& vmmHuge = 0#64 := by
  rw [and_huge, tableEntry_low f (by decide)]
  decide

/-- A table is hung in. -/
theorem Drawn.graft (h : Drawn root s₀ s new frames) (at_p : pageTable s.mem root p = some t)
    (level : p.length < 3) (plain : p.length = 2 → s.mem t i &&& vmmHuge = 0#64)
    (vacant : s.mem t i &&& vmmPresent = 0#64) (lt : f < s.pmm.totalFrames)
    (free : s.pmm.frameIsFree f = true) :
    Drawn root s₀ { s with
      pmm := s.pmm.takeFrame f
      mem := store (Function.update s.mem f fun _ => 0#64) t i (tableEntry (frameAddr f)) }
      (insert (i :: p) new) frames := by
  obtain ⟨quiet, grafted, only⟩ := Unnoticed.graft h.tree at_p level vacant lt free
  obtain ⟨off, noTable⟩ := h.new_frame lt free
  generalize after : ({ s with
    pmm := s.pmm.takeFrame f
    mem := store (Function.update s.mem f fun _ => 0#64) t i (tableEntry (frameAddr f)) } :
      MemState) = s' at quiet grafted only ⊢
  have pool : s'.pmm = s.pmm.takeFrame f := by rw [← after]
  have mem : s'.mem =
      store (Function.update s.mem f fun _ => 0#64) t i (tableEntry (frameAddr f)) := by
    rw [← after]
  have other : f ≠ t := fun eq => noTable p (eq ▸ at_p)
  have ends : pageTable s.mem root (i :: p) = none :=
    (tableAt_cons at_p).trans (if_neg fun h => h.1 vacant)
  have before : pageTable s₀.mem root (i :: p) = none ∧ i :: p ∉ new := by
    have both := (h.tables (i :: p)).not.mp (not_not_intro ends)
    exact ⟨not_not.mp fun some_ => both (.inl some_), fun member => both (.inr member)⟩
  have left := takeFrame_left h.ok lt free
  have count := h.left
  refine {
    tree := quiet.tree
    ok := pool ▸ Pmm.takeFrame_ok h.ok lt free
    total := pool ▸ h.total
    tables := ?_
    absent := ?_
    distinct := h.distinct
    left := ?_
    held := ?_
    zero := ?_
    fresh := h.fresh
    rest := ?_
    barred := ?_ }
  · intro q
    rw [Finset.mem_insert, ← or_assoc, or_right_comm, ← h.tables]
    constructor
    · intro some_
      obtain ⟨t', at_q⟩ := Option.ne_none_iff_exists'.mp some_
      rcases only at_q with ⟨here, _⟩ | old
      · exact .inr here
      · exact .inl (old ▸ Option.some_ne_none _)
    · rintro (some_ | rfl)
      · obtain ⟨t', at_q⟩ := Option.ne_none_iff_exists'.mp some_
        exact quiet.tables at_q ▸ Option.some_ne_none _
      · exact grafted ▸ Option.some_ne_none _
  · intro q member
    rcases Finset.mem_insert.mp member with rfl | old
    · exact before.1
    · exact h.absent q old
  · rw [pool, Finset.card_insert_of_notMem before.2]
    omega
  · intro g member
    have notNew : g ≠ f := fun eq => off (eq ▸ member)
    obtain ⟨lt', used, once, data⟩ := h.held g member
    obtain ⟨count', free'⟩ := takeFrame_other s.pmm notNew
    refine ⟨pool ▸ lt', pool ▸ free'.trans used, pool ▸ count'.trans once, fun q at_q => ?_⟩
    rcases only at_q with ⟨_, eq⟩ | old
    · exact notNew eq
    · exact data q old
  · intro g member
    have notNew : g ≠ f := fun eq => off (eq ▸ member)
    have notTable : g ≠ t := fun eq => (h.held g member).data p (eq ▸ at_p)
    rw [mem, store_frame _ _ _ notTable, Function.update_of_ne notNew, h.zero g member]
  · intro g outside
    by_cases eq : g = f
    · exact .inr ⟨i :: p, Finset.mem_insert_self .., eq ▸ grafted⟩
    obtain ⟨count', free'⟩ := takeFrame_other s.pmm eq
    rw [pool, count', free']
    refine (h.rest g outside).imp_right ?_
    rintro ⟨q, member, at_q⟩
    exact ⟨q, Finset.mem_insert_of_mem member, quiet.tables at_q⟩
  · intro w
    rw [← h.barred]
    constructor
    · rintro ⟨pd, at_pd, huge⟩
      rcases only at_pd with ⟨_, rfl⟩ | old
      · rw [mem, store_frame _ _ _ other, Function.update_self] at huge
        exact absurd (by decide) huge
      · refine ⟨pd, old, ?_⟩
        by_cases here : pd = t ∧ pdIdx w = i
        · rw [mem, here.1, here.2, store_same, tableEntry_plain] at huge
          exact absurd rfl huge
        · have notNew : pd ≠ f := fun eq => noTable _ (eq ▸ old)
          rwa [mem, store_of_ne _ _ here, Function.update_of_ne notNew] at huge
    · rintro ⟨pd, at_pd, huge⟩
      refine ⟨pd, quiet.tables at_pd, ?_⟩
      have notNew : pd ≠ f := fun eq => noTable _ (eq ▸ at_pd)
      rw [mem, store_of_ne, Function.update_of_ne notNew]
      · exact huge
      · rintro ⟨rfl, rfl⟩
        have path := h.tree.one at_p at_pd
        exact huge (plain (path ▸ rfl))

/-! ## The walk -/

theorem Drawn.absentAt_eq (h : Drawn root s₀ s new frames) {q : List Idx}
    (some_ : pageTable s.mem root q ≠ none) : new ∪ absentAt s₀.mem root q = new := by
  rw [absentAt]
  split
  · rename_i none_
    rcases (h.tables q).mp some_ with was | member
    · exact absurd none_ was
    · exact Finset.union_eq_left.mpr (Finset.singleton_subset_iff.mpr member)
  · exact Finset.union_empty new

theorem Drawn.before (h : Drawn root s₀ s new frames) {q : List Idx}
    (none_ : pageTable s.mem root q = none) : pageTable s₀.mem root q = none ∧ q ∉ new := by
  have both := (h.tables q).not.mp (not_not_intro none_)
  exact ⟨not_not.mp fun some_ => both (.inl some_), fun member => both (.inr member)⟩

theorem ptWalkOrAlloc_drawn (h : Drawn root s₀ s new frames)
    (at_p : pageTable s.mem root p = some t) (level : p.length < 3)
    (plain : p.length = 2 → s.mem t i &&& vmmHuge = 0#64) :
    wp (ptWalkOrAlloc t i) (fun result s' => match result with
      | some t' => Drawn root s₀ s' (new ∪ absentAt s₀.mem root (i :: p)) frames ∧
          Unnoticed root s s' ∧ pageTable s'.mem root (i :: p) = some t'
      | none => s' = s ∧ s.pmm.freeFrames = 0 ∧ pageTable s.mem root (i :: p) = none) halt s := by
  unfold ptWalkOrAlloc
  rw [wp_bind, wp_readEntry]
  apply wp_ite
  · intro present
    have at_t : pageTable s.mem root (i :: p) = some (frameOf (s.mem t i)) :=
      (tableAt_cons at_p).trans (pageFormat_next present level plain)
    rw [wp_pure]
    refine ⟨?_, .refl h.tree, at_t⟩
    rw [h.absentAt_eq (at_t ▸ Option.some_ne_none _)]
    exact h
  intro present
  have vacant := not_not.mp present
  have ends : pageTable s.mem root (i :: p) = none :=
    (tableAt_cons at_p).trans (if_neg fun h => h.1 vacant)
  rw [wp_bind, wp_allocFrame]
  rcases pmmAllocFrame_cases s.pmm with ⟨f, run, lt, free⟩ | run
  · rw [run]
    have small : f < 2 ^ 40 := lt_of_lt_of_le lt (h.tree.total.trans (by decide))
    simp only [wp_bind, wp_zeroFrame, wp_writeEntry, wp_pure, frameOf_frameAddr small]
    obtain ⟨quiet, grafted, _⟩ := Unnoticed.graft h.tree at_p level vacant lt free
    refine ⟨?_, quiet, grafted⟩
    rw [absentAt, if_pos (h.before ends).1, Finset.union_comm, ← Finset.insert_eq]
    exact h.graft at_p level plain vacant lt free
  · rw [run]
    refine ⟨rfl, ?_, ends⟩
    by_contra left
    exact pmmAllocFrame_isSome h.ok left (by rw [run])

theorem markUser_drawn (flags : Word) (h : Drawn root s₀ s new frames)
    (at_p : pageTable s.mem root p = some t) (level : p.length < 3) {t' : Nat}
    (link : pageTable s.mem root (i :: p) = some t') :
    wp (markUser flags t i) (fun _ s' => Drawn root s₀ s' new frames ∧ Unnoticed root s s')
      halt s := by
  have quiet : wp (markUser flags t i) _ halt s := markUser_unnoticed flags h.tree at_p level link
  unfold markUser at quiet ⊢
  apply wp_ite
  · intro user
    rw [if_pos user, wp_bind, wp_readEntry, wp_writeEntry] at quiet
    rw [wp_bind, wp_readEntry, wp_writeEntry]
    have same := sameBut_store s.mem root t i (s.mem t i ||| vmmUser)
    have still : pageFormat.next p.length (store s.mem t i (s.mem t i ||| vmmUser) t i) =
        some t' := by
      rw [store_same, next_or_user, ← link, ← tableAt_cons at_p]
    refine ⟨h.keep quiet.tree rfl (tableAt_relabel same h.tree.one at_p link still) ?_ ?_, quiet⟩
    · intro f noTable
      exact store_frame _ _ _ fun eq => noTable _ (eq ▸ at_p)
    · intro q f j _ _
      change store _ _ _ _ f j &&& vmmHuge = 0#64 ↔ _
      by_cases here : f = t ∧ j = i
      · obtain ⟨rfl, rfl⟩ := here
        rw [store_same, and_huge, or_user_low _ (by decide) (by decide), ← and_huge]
      · rw [store_of_ne _ _ here]
  · intro _
    exact ⟨h, .refl h.tree⟩

/-- The leaf is written. -/
theorem Drawn.leaf (h : Drawn root s₀ s new frames)
    (at_pt : pageTable s.mem root [pdIdx v, pdptIdx v, pml4Idx v] = some t) (e : Word) :
    Drawn root s₀ { s with mem := store s.mem t (ptIdx v) e } new frames := by
  have same := sameBut_store s.mem root t (ptIdx v) e
  have full : ∀ w, pageFormat.next [pdIdx v, pdptIdx v, pml4Idx v].length w = none :=
    fun w => pageFormat_full w rfl
  refine h.keep (LeafWritten.of_store h.tree at_pt e).tree rfl
    (tableAt_leaf same h.tree.one at_pt full) ?_ ?_
  · intro f noTable
    exact store_frame _ _ _ fun eq => noTable _ (eq ▸ at_pt)
  · intro q t' j length at_q
    have other : t' ≠ t := by
      rintro rfl
      rw [h.tree.one at_q at_pt] at length
      cases length
    change store _ _ _ _ t' j &&& vmmHuge = 0#64 ↔ _
    rw [store_frame _ _ _ other]

/-- The pool is empty before all tables are there. -/
def Short (root : Nat) (s₀ s' : MemState) (wanted : Finset (List Idx)) (frames : List Nat) :
    Prop :=
  s'.pmm.freeFrames = 0 ∧ ∃ new, Drawn root s₀ s' new frames ∧ new ⊂ wanted

theorem Drawn.short {q : List Idx} {wanted : Finset (List Idx)} (h : Drawn root s₀ s new frames)
    (empty : s.pmm.freeFrames = 0) (none_ : pageTable s.mem root q = none)
    (within : new ⊆ wanted) (next : absentAt s₀.mem root q ⊆ wanted) :
    Short root s₀ s wanted frames := by
  obtain ⟨absent, unhung⟩ := h.before none_
  rw [absentAt, if_pos absent, Finset.singleton_subset_iff] at next
  exact ⟨empty, new, h, within, fun all => unhung (all next)⟩

/-- A page is mapped, or its directory entry is a 2 MiB page, or the pool runs out of frames for
the tables. -/
theorem vmmMapPage_drawn (v phys flags : Word) (h : Drawn root s₀ s new frames) :
    wp (vmmMapPage root v phys flags) (fun done s' =>
      if done then
        Drawn root s₀ s' (new ∪ missing s₀.mem root [v]) frames ∧ ¬ Barred s₀.mem root v
      else Barred s₀.mem root v ∧ (∃ new', Drawn root s₀ s' new' frames) ∨
        Short root s₀ s' (new ∪ missing s₀.mem root [v]) frames) halt s := by
  have at_root : pageTable s.mem root [] = some root := rfl
  rw [missing_page, ← Finset.union_assoc, ← Finset.union_assoc]
  unfold vmmMapPage
  refine wp_seq (ptWalkOrAlloc_drawn h at_root (by decide) nofun) ?_
  rintro (_ | pdpt) s₁ walked₁
  · obtain ⟨rfl, empty, none_⟩ := walked₁
    refine .inr (h.short empty none_ ?_ ?_) <;> grind
  obtain ⟨drawn₁, kept₁, at_pdpt⟩ := walked₁
  refine wp_seq (markUser_drawn flags drawn₁ (kept₁.tables at_root) (by decide) at_pdpt) ?_
  rintro _ s₂ ⟨drawn₂, marked₁⟩
  replace at_pdpt := marked₁.tables at_pdpt
  unfold mapBelowPdpt
  refine wp_seq (ptWalkOrAlloc_drawn drawn₂ at_pdpt (by simp) (by simp)) ?_
  rintro (_ | pd) s₃ walked₃
  · obtain ⟨rfl, empty, none_⟩ := walked₃
    refine .inr (drawn₂.short empty none_ ?_ ?_) <;> grind
  obtain ⟨drawn₃, kept₃, at_pd⟩ := walked₃
  refine wp_seq (markUser_drawn flags drawn₃ (kept₃.tables at_pdpt) (by simp) at_pd) ?_
  rintro _ s₄ ⟨drawn₄, marked₃⟩
  replace at_pd := marked₃.tables at_pd
  rw [wp_bind, wp_readEntry]
  apply wp_ite
  · intro huge
    exact .inl ⟨(drawn₄.barred v).mp ⟨pd, at_pd, huge⟩, _, drawn₄⟩
  intro small
  have plain := not_not.mp small
  have clear : ¬ Barred s₀.mem root v := by
    rw [← drawn₄.barred]
    rintro ⟨pd', at_pd', huge⟩
    obtain rfl := Option.some.inj (at_pd.symm.trans at_pd')
    exact huge plain
  refine wp_seq (ptWalkOrAlloc_drawn drawn₄ at_pd (by simp) fun _ => plain) ?_
  rintro (_ | pt) s₅ walked₅
  · obtain ⟨rfl, empty, none_⟩ := walked₅
    refine .inr (drawn₄.short empty none_ ?_ ?_) <;> grind
  obtain ⟨drawn₅, kept₅, at_pt⟩ := walked₅
  refine wp_seq (markUser_drawn flags drawn₅ (kept₅.tables at_pd) (by simp) at_pt) ?_
  rintro _ s₆ ⟨drawn₆, marked₅⟩
  exact ⟨drawn₆.leaf (marked₅.tables at_pt) _, clear⟩

/-- Unmapping writes to a leaf or does nothing. -/
theorem vmmUnmapPage_drawn (v : Word) (h : Drawn root s₀ s new frames) :
    wp (vmmUnmapPage root v) (fun _ s' => Drawn root s₀ s' new frames) halt s := by
  have at_root : pageTable s.mem root [] = some root := rfl
  unfold vmmUnmapPage
  rw [wp_bind, wp_readEntry]
  apply wp_ite
  · intro _
    exact h
  intro present₄
  have at_pdpt := (tableAt_cons (i := pml4Idx v) at_root).trans
    (pageFormat_next present₄ (by simp) nofun)
  rw [wp_bind, wp_readEntry]
  apply wp_ite
  · intro _
    exact h
  intro present₃
  have at_pd := (tableAt_cons (i := pdptIdx v) at_pdpt).trans
    (pageFormat_next present₃ (by simp) nofun)
  rw [wp_bind, wp_readEntry]
  apply wp_ite
  · intro _
    exact h
  intro walked
  obtain ⟨present₂, plain⟩ := not_or.mp walked
  have at_pt := (tableAt_cons (i := pdIdx v) at_pd).trans
    (pageFormat_next present₂ (by simp) fun _ => not_not.mp plain)
  rw [wp_writeEntry]
  exact h.leaf at_pt 0#64

/-- A data frame can be given back. -/
theorem freeFrame_drawn {back : List Nat} (h : Drawn root s₀ s new frames)
    (order : frames.Perm (f :: back)) :
    wp (freeFrame (frameAddr f)) (fun _ s' => Drawn root s₀ s' new back ∧ Unnoticed root s s')
      halt s := by
  have held := h.held f (order.mem_iff.mpr List.mem_cons_self)
  have run := pmmFreeFrame_run h.ok held.lt (held.once ▸ Nat.one_pos)
  simp only [wp, freeFrame, run]
  exact h.give order

/-- The frames of the tables hung in were free: as many as there are tables are gone from the
pool. -/
theorem Drawn.hung_free (h : Drawn root s₀ s new frames) (ok : s₀.pmm.Ok) {q : List Idx}
    (member : q ∈ new) (at_q : pageTable s.mem root q = some t) : t ∈ s₀.pmm.freeSet := by
  let hung : Finset Nat := new.image fun q => (pageTable s.mem root q).getD 0
  have covered : s₀.pmm.freeSet ⊆ s.pmm.freeSet ∪ (frames.toFinset ∪ hung ∩ s₀.pmm.freeSet) := by
    intro f was
    obtain ⟨range, free⟩ := Finset.mem_filter.mp was
    rw [Finset.mem_union, Finset.mem_union, List.mem_toFinset, Finset.mem_inter]
    by_cases data : f ∈ frames
    · exact .inr (.inl data)
    rcases h.rest f data with ⟨_, same⟩ | ⟨p, hung_, at_p⟩
    · refine .inl (Finset.mem_filter.mpr ⟨?_, same.trans free⟩)
      rwa [h.total]
    · refine .inr (.inr ⟨Finset.mem_image.mpr ⟨p, hung_, ?_⟩, was⟩)
      rw [at_p, Option.getD_some]
  have count := h.left
  rw [h.ok.count, ok.count] at count
  have most := (Finset.card_le_card covered).trans ((Finset.card_union_le _ _).trans
    (Nat.add_le_add_left (Finset.card_union_le _ _) _))
  have data : frames.toFinset.card ≤ frames.length := frames.toFinset_card_le
  have tables : hung.card ≤ new.card := Finset.card_image_le
  have all : hung ∩ s₀.pmm.freeSet = hung :=
    Finset.eq_of_subset_of_card_le Finset.inter_subset_left (by omega)
  have here : t ∈ hung := Finset.mem_image.mpr ⟨q, member, by rw [at_q, Option.getD_some]⟩
  rw [← all] at here
  exact Finset.mem_of_mem_inter_right here

/-- A frame that was taken first and is given back at the end leaves no trace. -/
theorem freeFrame_borrowed {s₁ : MemState} (tree : PageTree s root) (ok : s.pmm.Ok)
    (lt : f < s.pmm.totalFrames) (free : s.pmm.frameIsFree f = true)
    (pool : s₁.pmm = s.pmm.takeFrame f) (mem : s₁.mem = s.mem) (h : Drawn root s₁ s' new [])
    (quiet : Unnoticed root s₁ s') :
    wp (freeFrame (frameAddr f)) (fun _ s'' => Drawn root s s'' new [] ∧ Unnoticed root s s'')
      halt s' := by
  obtain ⟨one, taken⟩ := takeFrame_self s.pmm f
  have ok₁ : s₁.pmm.Ok := pool ▸ Pmm.takeFrame_ok ok lt free
  have noTable : ∀ q, pageTable s'.mem root q ≠ some f := by
    intro q at_q
    rcases (h.tables q).mp (at_q ▸ Option.some_ne_none _) with was | member
    · obtain ⟨t, at_t⟩ := Option.ne_none_iff_exists'.mp was
      obtain rfl := Option.some.inj ((quiet.tables at_t).symm.trans at_q)
      rw [mem] at at_t
      rw [tree.fresh at_t lt] at free
      cases free
    · have hung := (Finset.mem_filter.mp (h.hung_free ok₁ member at_q)).2
      rw [pool, taken] at hung
      cases hung
  obtain ⟨count, bit⟩ : s'.pmm.refcount f = 1 ∧ s'.pmm.frameIsFree f = false := by
    rcases h.rest f List.not_mem_nil with ⟨count, bit⟩ | ⟨q, _, at_q⟩
    · rw [pool] at count bit
      exact ⟨count.trans one, bit.trans taken⟩
    · exact absurd at_q (noTable q)
  have total : s'.pmm.totalFrames = s.pmm.totalFrames := by
    rw [h.total, pool]
    rfl
  have run := pmmFreeFrame_run h.ok (total ▸ lt) (count ▸ Nat.one_pos)
  simp only [wp, freeFrame, run]
  obtain ⟨zero, back, more⟩ := dropFrame_last count
  have after : Unnoticed root s' { s' with pmm := s'.pmm.dropFrame f } := by
    refine .congr h.tree (fun _ _ _ => rfl) ?_ (Pmm.dropFrame_total ..)
    intro q t at_q bound
    have other : t ≠ f := fun eq => noTable q (eq ▸ at_q)
    exact (dropFrame_other s'.pmm other).2.trans (h.tree.fresh at_q bound)
  have left := h.left
  have before := takeFrame_left ok lt free
  rw [pool] at left
  refine ⟨{
    tree := after.tree
    ok := Pmm.dropFrame_ok h.ok (total ▸ lt) bit
    total := (Pmm.dropFrame_total ..).trans total
    tables := fun q => by rw [h.tables, mem]
    absent := fun q member => by rw [← mem]; exact h.absent q member
    distinct := List.nodup_nil
    left := ?_
    held := by simp
    zero := by simp
    fresh := by simp
    rest := ?_
    barred := fun w => by rw [← mem]; exact h.barred w }, ?_⟩
  · change (s'.pmm.dropFrame f).freeFrames + _ + _ = _
    rw [List.length_nil] at left ⊢
    omega
  · intro g _
    by_cases same : g = f
    · subst same
      exact .inl ⟨zero.trans (ok.free_zero g lt free).symm, back.trans free.symm⟩
    · obtain ⟨count', free'⟩ := dropFrame_other s'.pmm same
      obtain ⟨count₁, free₁⟩ := takeFrame_other s.pmm same
      rcases h.rest g List.not_mem_nil with ⟨same₁, same₂⟩ | linked
      · rw [pool] at same₁ same₂
        exact .inl ⟨count'.trans (same₁.trans count₁), free'.trans (same₂.trans free₁)⟩
      · exact .inr linked
  · refine ⟨after.tree, fun q length => ?_, fun at_q => ?_⟩
    · rw [after.pages q length, quiet.pages q length, mem]
    · exact after.tables (quiet.tables (mem ▸ at_q))

end LithiumKernel.Mm
