import LithiumKernel.Lib.Sim
import LithiumKernel.Mm.FailedClone
import LithiumKernel.Mm.HeapSizes
import LithiumKernel.Mm.PageFrames
import LithiumKernel.Mm.SpaceTree

/-!
# A kmalloc that fails (kernel/mm/heap.c)

`kmalloc` returns `NULL` when the pool has no frame for a page or for one of the tables on the way
to it. The slab path takes one page and gives it back. The large path maps page after page and
returns without undoing what it has mapped. So it leaves nothing behind only if it fails at its
first page, and that is a question of the frames in the pool and of the tables that are missing at
the end of the heap.
-/
namespace LithiumKernel.Mm

open LithiumKernel.Lib LithiumKernel.Lib.Forest LithiumKernel.Lib.Radix

variable {K : KernelTables} {roots : List Nat} {s s₀ s₁ s' : MemState} {g : SpaceGhost}
  {root f n : Nat} {v : Word} {halt : Kassert → MemState → Prop}

/-! ## One page -/

/-- Tables were hung in at `new` and `n` frames taken for pages. -/
structure Grown (root : Nat) (s s' : MemState) (new : Finset (List Idx)) (n : Nat) : Prop where
  tree : PageTree s' root
  ok : s'.pmm.Ok
  tables : ∀ q, pageTable s'.mem root q ≠ none ↔ pageTable s.mem root q ≠ none ∨ q ∈ new
  absent : ∀ q ∈ new, pageTable s.mem root q = none
  left : s'.pmm.freeFrames + new.card + n = s.pmm.freeFrames
  barred : ∀ w, Barred s'.mem root w ↔ Barred s.mem root w

theorem Grown.refl (tree : PageTree s root) (ok : s.pmm.Ok) : Grown root s s ∅ 0 :=
  ⟨tree, ok, by simp, by simp, rfl, fun _ => Iff.rfl⟩

theorem Grown.trans {new more : Finset (List Idx)} {m : Nat} (first : Grown root s₀ s new n)
    (second : Grown root s s' more m) :
    Grown root s₀ s' (new ∪ more) (n + m) ∧ (new ∪ more).card = new.card + more.card := by
  have apart : Disjoint new more := by
    refine Finset.disjoint_left.mpr fun q old late => ?_
    exact (first.tables q).mpr (.inr old) (second.absent q late)
  have card := Finset.card_union_of_disjoint apart
  have left := first.left
  have left' := second.left
  refine ⟨⟨second.tree, second.ok, ?_, ?_, by omega, ?_⟩, card⟩
  · intro q
    rw [second.tables, first.tables, Finset.mem_union, or_assoc]
  · intro q member
    rcases Finset.mem_union.mp member with old | late
    · exact first.absent q old
    · have both := (first.tables q).not.mp (not_not_intro (second.absent q late))
      exact not_not.mp fun some_ => both (.inl some_)
  · intro w
    rw [second.barred, first.barred]

/-- The page at `v` was not mapped: a 2 MiB page is in the way, or the pool ran out of frames for
the tables, of which those that were hung in stay. -/
def NoPage (root : Nat) (v : Word) (s s' : MemState) : Prop :=
  Unnoticed root s s' ∧ ∃ new, Drawn root s s' new [] ∧ (Barred s.mem root v ∨
    s.pmm.freeFrames ≤ (missing s.mem root [v]).card ∧ new ⊆ missing s.mem root [v])

/-- The page at `v` was mapped. -/
def OnePage (root : Nat) (v flags : Word) (s s' : MemState) : Prop :=
  Grown root s s' (missing s.mem root [v]) 1 ∧
    ∃ f, LeafWritten root v (leafEntry (frameAddr f) flags) s s'

/-- A frame that has been taken is mapped, or given back. -/
theorem mapOrFree_outcome (v flags : Word) (tree : PageTree s root) (ok : s.pmm.Ok)
    (lt : f < s.pmm.totalFrames) (free : s.pmm.frameIsFree f = true)
    (pool : s₁.pmm = s.pmm.takeFrame f) (mem : s₁.mem = s.mem) :
    wp (mapOrFree root v (frameAddr f) flags) (fun done s' =>
      if done then OnePage root v flags s s' else NoPage root v s s') halt s₁ := by
  have left := takeFrame_left ok lt free
  have same : ∀ ⦃q t⦄, pageTable s.mem root q = some t → s₁.mem t = s.mem t := fun _ _ _ => by
    rw [mem]
  have start : Unnoticed root s s₁ := by
    refine .congr tree same ?_ (by rw [pool]; rfl)
    intro q t at_q bound
    have used := tree.fresh at_q bound
    have other : t ≠ f := by
      rintro rfl
      rw [used] at free
      cases free
    rw [pool, (takeFrame_other s.pmm other).2, used]
  have drawn : Drawn root s₁ s₁ ∅ [] := .refl start.tree (pool ▸ Pmm.takeFrame_ok ok lt free)
  have lookups : wp (vmmMapPage root v (frameAddr f) flags) _ halt s₁ :=
    vmmMapPage_lookup start.tree v (frameAddr f) flags
  unfold mapOrFree
  refine wp_seq (wp_and (vmmMapPage_drawn v (frameAddr f) flags drawn) lookups) ?_
  rintro (_ | _) s₂ ⟨outcome, read⟩
  · rw [if_neg (by decide)] at outcome read ⊢
    rw [mem, Finset.empty_union] at outcome
    obtain ⟨new, drawn₂, why⟩ : ∃ new, Drawn root s₁ s₂ new [] ∧ (Barred s.mem root v ∨
        s.pmm.freeFrames ≤ (missing s.mem root [v]).card ∧ new ⊆ missing s.mem root [v]) := by
      rcases outcome with ⟨barred, new, drawn₂⟩ | ⟨empty, new, drawn₂, fewer⟩
      · exact ⟨new, drawn₂, .inl barred⟩
      · have count := drawn₂.left
        have less := Finset.card_lt_card fewer
        rw [pool, List.length_nil] at count
        exact ⟨new, drawn₂, .inr ⟨by omega, fewer.subset⟩⟩
    refine wp_seq (freeFrame_borrowed tree ok lt free pool mem drawn₂ read) ?_
    rintro _ s₃ ⟨drawn₃, quiet⟩
    exact ⟨quiet, new, drawn₃, why⟩
  · rw [if_pos rfl] at outcome read
    rw [if_pos rfl, wp_pure, if_pos rfl]
    obtain ⟨drawn₂, _⟩ := outcome
    rw [mem, Finset.empty_union] at drawn₂
    have count := drawn₂.left
    have tables := drawn₂.tables
    have absent := drawn₂.absent
    have barred := drawn₂.barred
    rw [pool, List.length_nil] at count
    rw [mem] at tables absent barred
    exact ⟨⟨drawn₂.tree, drawn₂.ok, tables, absent, by omega, barred⟩, f, read.after start⟩

theorem noPage_of_empty (v : Word) (tree : PageTree s root) (ok : s.pmm.Ok)
    (run : pmmAllocFrame s.pmm = (none, s.pmm)) : NoPage root v s s := by
  have empty : s.pmm.freeFrames = 0 := by
    by_contra left
    exact pmmAllocFrame_isSome ok left (by rw [run])
  exact ⟨.refl tree, ∅, .refl tree ok, .inr ⟨by omega, Finset.empty_subset _⟩⟩

/-- A kernel page at any address. -/
theorem mapKernelPage_outcome (v : Word) (tree : PageTree s s.cr3) (ok : s.pmm.Ok) :
    wp (mapKernelPage v) (fun done s' =>
      (if done then OnePage s.cr3 v vmmWrite s s' else NoPage s.cr3 v s s') ∧ s'.cr3 = s.cr3)
      halt s := by
  have root : Keeps MemState.cr3 (mapKernelPage v) := keeps_mapKernelPage v
  refine wp_and ?_ (root s)
  unfold mapKernelPage
  rw [wp_bind, wp_allocFrame]
  rcases pmmAllocFrame_cases s.pmm with ⟨f, run, lt, free⟩ | run
  · rw [run]
    exact mapOrFree_outcome v vmmWrite tree ok lt free rfl rfl
  · rw [run]
    exact noPage_of_empty v tree ok run

/-! ## The page at the end of the heap -/

/-- Nothing is left behind: no page is mapped or unmapped, the bytes of the heap are what they were,
and a frame that is not as it was is a new table of the kernel's half. -/
structure LeavesNothing (s s' : MemState) : Prop where
  cr3 : s'.cr3 = s.cr3
  reads : ∀ v, SameReads s.mem s'.mem s.cr3 v
  bytes : heapView s' = heapView s
  frames : ∀ f, s'.pmm.refcount f = s.pmm.refcount f ∧
      s'.pmm.frameIsFree f = s.pmm.frameIsFree f ∨
    ∃ q, [511] <:+ q ∧ pageTable s.mem s.cr3 q = none ∧ pageTable s'.mem s.cr3 q = some f

theorem LeavesNothing.reserve (w : Word) : LeavesNothing s { s with kheapNext := w } :=
  ⟨rfl, fun _ => ⟨rfl, rfl⟩, rfl, fun _ => .inl ⟨rfl, rfl⟩⟩

/-- No 2 MiB page is in the way of the heap. -/
theorem System.not_barred (h : System K roots s g) (above : heapBase ≤ v) :
    ¬ Barred s.mem s.cr3 v := by
  obtain ⟨present, below⟩ := h.walkHeap above
  rintro ⟨pd, at_pd, huge⟩
  have at_root : pageTable s.mem s.cr3 [] = some s.cr3 := rfl
  have at_pdpt := (tableAt_cons (i := pml4Idx v) at_root).trans
    (pageFormat_next present (by simp) nofun)
  obtain ⟨_, filled, rfl⟩ := next_some ((tableAt_cons (i := pdptIdx v) at_pdpt).symm.trans at_pd)
  rcases below with ⟨empty, _⟩ | ⟨_, ⟨empty, _⟩ | ⟨link, _⟩⟩
  · exact filled empty
  · rw [empty] at huge
    exact huge (by decide)
  · exact huge link.2

/-- The bytes of the heap, when no page and no data frame has changed. -/
theorem System.heapView_kept (h : System K roots s g) (cr3 : s'.cr3 = s.cr3)
    (reads : ∀ v, SameReads s.mem s'.mem s.cr3 v)
    (data : ∀ f, g.role f = none → 0 < s.pmm.refcount f → s'.mem f = s.mem f) :
    heapView s' = heapView s := by
  funext a
  by_cases range : heapBase.toNat ≤ a ∧ a < 2 ^ 64
  · obtain ⟨above, _⟩ := ofNat_above range.1 range.2
    rw [heapView, if_pos range, heapView, if_pos range, cr3, (reads _).1, h.heapPhysical above]
    split
    · rfl
    · rename_i filled
      obtain ⟨_, _, role, pos⟩ := h.vm.leaf_facts filled
      rw [Option.map_some, Option.map_some, phys_frame, data _ role pos]
  · rw [heapView, if_neg range, heapView, if_neg range]

/-- The page at `v` was not mapped for want of frames, and nothing is left behind. -/
def Declined (v : Word) (s s' : MemState) : Prop :=
  LeavesNothing s s' ∧ s.pmm.freeFrames ≤ (missing s.mem s.cr3 [v]).card

theorem System.declined (h : System K roots s g) (tree : PageTree s s.cr3) (above : heapBase ≤ v)
    (failed : NoPage s.cr3 v s s') (cr3 : s'.cr3 = s.cr3)
    (data : ∀ f, g.role f = none → 0 < s.pmm.refcount f → s'.mem f = s.mem f) :
    Declined v s s' := by
  obtain ⟨quiet, new, drawn, why⟩ := failed
  obtain ⟨few, inside⟩ := why.resolve_left (h.not_barred above)
  have reads : ∀ w, SameReads s.mem s'.mem s.cr3 w := fun w =>
    sameReads_of_lookup tree quiet.tree (quiet.pages _ rfl)
  refine ⟨⟨cr3, reads, h.heapView_kept cr3 reads data, fun f => ?_⟩, few⟩
  refine (drawn.rest f List.not_mem_nil).imp_right ?_
  rintro ⟨q, member, at_q⟩
  refine ⟨q, ?_, drawn.absent q member, at_q⟩
  have path := (Finset.mem_filter.mp (inside member)).1
  rw [List.flatMap_singleton, List.mem_toFinset, tablePaths, (heap_indices above).1] at path
  simp only [List.mem_cons, List.not_mem_nil, or_false] at path
  rcases path with rfl | rfl | rfl
  · exact List.suffix_refl _
  · exact List.suffix_cons _ _
  · exact (List.suffix_cons _ _).trans (List.suffix_cons _ _)

/-- A frame from the pool for a page of the heap, while `kheap_next` has moved on to `w`. -/
theorem System.heapPage_outcome (h : System K roots s g) (tree : PageTree s s.cr3)
    (above : heapBase ≤ v) (w : Word) (lt : f < s.pmm.totalFrames)
    (free : s.pmm.frameIsFree f = true) :
    wp (mapOrFree s.cr3 v (frameAddr f) vmmWrite) (fun done s' =>
      if done then OnePage s.cr3 v vmmWrite s s' ∧ s'.cr3 = s.cr3 else Declined v s s')
      halt { s with kheapNext := w, pmm := s.pmm.takeFrame f } := by
  have vm : Vm K.pdptHh { s with kheapNext := w } g := ⟨h.vm.ok, h.vm.wf⟩
  have fresh := vm.mapOrFree_fresh (h.topEntry h.cur) h.pdptHh above lt
    (h.vm.ok.free_zero f lt free) ⟨Pmm.takeFrame_ok h.vm.ok lt free, rfl, Pmm.takeFrame_hole free⟩
    (Pmm.takeFrame_refcount s.pmm f)
  refine wp_imp (wp_and (mapOrFree_outcome v vmmWrite tree h.vm.ok lt free rfl rfl) fresh) ?_
  rintro (_ | _) s' ⟨outcome, g', result⟩
  · exact h.declined tree above outcome result.cr3 fun f role pos => (result.data role pos).2.2
  · exact ⟨outcome, result.cr3⟩

/-- A large block begins at the end of the heap, and its first page is mapped first. -/
theorem System.firstPage_outcome (h : System K roots s g) (tree : PageTree s s.cr3)
    (above : heapBase ≤ v) (w : Word) :
    wp (mapKernelPage v) (fun done s' =>
      if done then OnePage s.cr3 v vmmWrite s s' ∧ s'.cr3 = s.cr3 else Declined v s s')
      halt { s with kheapNext := w } := by
  unfold mapKernelPage
  rw [wp_bind, wp_allocFrame]
  rcases pmmAllocFrame_cases s.pmm with ⟨f, run, lt, free⟩ | run
  · rw [run]
    exact h.heapPage_outcome tree above w lt free
  · rw [run]
    have none_ := noPage_of_empty v tree h.vm.ok run
    exact ⟨.reserve w, (h.declined tree above none_ rfl fun _ _ _ => rfl).2⟩

/-- The page of a new slab. -/
theorem System.slabAllocPage_outcome (h : System K roots s g) (tree : PageTree s s.cr3) :
    wp slabAllocPage (fun result s' => match result with
      | some _ => OnePage s.cr3 s.kheapNext vmmWrite s s'
      | none => Declined s.kheapNext s s') halt s := by
  unfold slabAllocPage
  rw [wp_bind, wp_allocFrame]
  rcases pmmAllocFrame_cases s.pmm with ⟨f, run, lt, free⟩ | run
  · rw [run]
    simp only [vmmAllocKernel, wp_bind, wp_get, wp_modify, wp_pure]
    refine wp_imp (h.heapPage_outcome tree h.heap _ lt free) ?_
    rintro (_ | _) s' outcome
    · exact outcome
    · exact outcome.1
  · rw [run]
    exact h.declined tree h.heap (noPage_of_empty _ tree h.vm.ok run) rfl fun _ _ _ => rfl

/-! ## The pages of a large block -/

/-- The pages `kmalloc` maps for a large block at `v`. -/
def pagesFrom (v : Word) (n : Nat) : List Word :=
  (List.range n).map fun i => v + BitVec.ofNat 64 (i * 4096)

/-- The page with the path `p` is mapped below `root`. -/
structure Present (root : Nat) (p : List Idx) (s : MemState) : Prop where
  cr3 : s.cr3 = root
  tree : PageTree s root
  ok : s.pmm.Ok
  here : lookup pageFormat s.mem root p ≠ none

/-- A leaf that is written maps its page, and all others stay. -/
theorem OnePage.present {flags : Word} {p : List Idx} (mapped : OnePage root v flags s s')
    (cr3 : s'.cr3 = root) (length : p.length = 4)
    (here : p = pagePath v ∨ lookup pageFormat s.mem root p ≠ none) : Present root p s' := by
  obtain ⟨grown, f, written⟩ := mapped
  refine ⟨cr3, grown.tree, grown.ok, ?_⟩
  by_cases same : p = pagePath v
  · rw [same, written.here, if_pos (leafEntry_present _ _)]
    exact Option.some_ne_none _
  · rw [written.others p length same]
    exact here.resolve_left same

theorem mapKernelPage_present {p : List Idx} (length : p.length = 4) (v : Word)
    (h : Present root p s) : wp (mapKernelPage v) (fun _ s' => Present root p s') halt s := by
  obtain ⟨rfl, tree, ok, here⟩ := h
  refine wp_imp (mapKernelPage_outcome v tree ok) ?_
  rintro (_ | _) s' ⟨outcome, cr3⟩
  · obtain ⟨quiet, new, drawn, _⟩ := outcome
    exact ⟨cr3, quiet.tree, drawn.ok, by rwa [quiet.pages p length]⟩
  · exact OnePage.present outcome cr3 length (.inr here)

/-- A large request that fails has failed at its first page, or the first page is still mapped. -/
theorem System.kmallocLarge_outcome (h : System K roots s g) (tree : PageTree s s.cr3)
    (size : Word) :
    wp (kmallocLarge size) (fun result s' => result = none → Declined s.kheapNext s s' ∨
      (missing s.mem s.cr3 [s.kheapNext]).card < s.pmm.freeFrames ∧
        Present s.cr3 (pagePath s.kheapNext) s') halt s := by
  unfold kmallocLarge
  simp only [vmmAllocKernel, wp_bind, wp_get, wp_modify, wp_pure]
  generalize (largeBytes size).toNat / 4096 = count
  cases count with
  | zero => exact fun none_ => absurd none_ (by simp)
  | succ n =>
    rw [List.range_succ_eq_map, List.allM_cons, Nat.zero_mul, BitVec.add_zero]
    refine wp_seq (h.firstPage_outcome tree h.heap _) ?_
    rintro (_ | _) s₁ outcome
    · exact fun _ => .inl outcome
    · obtain ⟨mapped, cr3⟩ := outcome
      have left := mapped.1.left
      refine wp_imp (wp_allM_inv (Present s.cr3 (pagePath s.kheapNext)) ?_
        (mapped.present cr3 rfl (.inl rfl))) ?_
      · exact fun i _ s₂ now => mapKernelPage_present rfl _ now
      · intro mapped s' after
        cases mapped
        · exact fun _ => .inr ⟨by omega, after⟩
        · exact fun none_ => absurd none_ (by simp)

/-- The tables for one more page are among those that were missing for all of them. -/
theorem Grown.missing_next {new : Finset (List Idx)} {pages : List Word}
    (grown : Grown root s₀ s new n) (within : new ⊆ missing s₀.mem root pages) (v : Word) :
    new ∪ missing s.mem root [v] ⊆ missing s₀.mem root (pages ++ [v]) ∧
      (new ∪ missing s.mem root [v]).card = new.card + (missing s.mem root [v]).card := by
  have absent : ∀ q ∈ missing s.mem root [v], pageTable s.mem root q = none := fun q member =>
    (Finset.mem_filter.mp member).2
  constructor
  · rw [missing_append]
    refine Finset.union_subset_union within fun q member => ?_
    refine Finset.mem_filter.mpr ⟨(Finset.mem_filter.mp member).1, ?_⟩
    have both := (grown.tables q).not.mp (not_not_intro (absent q member))
    exact not_not.mp fun some_ => both (.inl some_)
  · refine Finset.card_union_of_disjoint (Finset.disjoint_left.mpr fun q old late => ?_)
    exact (grown.tables q).mpr (.inr old) (absent q late)

/-- With a frame for every page and for every missing table all pages are mapped. -/
theorem mapKernelPages_all (tree : PageTree s s.cr3) (ok : s.pmm.Ok)
    (clear : ∀ p ∈ pagesFrom v n, ¬ Barred s.mem s.cr3 p)
    (enough : n + (missing s.mem s.cr3 (pagesFrom v n)).card ≤ s.pmm.freeFrames) :
    wp ((List.range n).allM fun i => mapKernelPage (v + BitVec.ofNat 64 (i * 4096)))
      (fun done _ => done = true) halt s := by
  let page : Nat → Word := fun i => v + BitVec.ofNat 64 (i * 4096)
  refine wp_imp (wp_allM (fun done s' => s'.cr3 = s.cr3 ∧
    ∃ new ⊆ missing s.mem s.cr3 (done.map page), Grown s.cr3 s s' new done.length)
    (fun _ => False) _ ?_ ⟨rfl, ∅, Finset.empty_subset _, .refl tree ok⟩) ?_
  · rintro done i rest s₁ split ⟨cr3, new, within, grown⟩
    have all : pagesFrom v n = done.map page ++ [page i] ++ rest.map page := by
      rw [pagesFrom, split, List.map_append, List.map_cons, List.append_assoc]
      rfl
    have length := congrArg List.length split
    rw [List.length_range, List.length_append, List.length_cons] at length
    obtain ⟨inside, card⟩ := grown.missing_next within (page i)
    have most := Finset.card_le_card inside
    have some_ := card_missing_le s.mem s.cr3 (done.map page ++ [page i]) (rest.map page)
    rw [← all] at some_
    have left := grown.left
    have tree₁ := grown.tree
    rw [← cr3] at tree₁
    refine wp_imp (mapKernelPage_outcome (page i) tree₁ grown.ok) ?_
    rintro (_ | _) s₂ ⟨outcome, cr3'⟩
    · obtain ⟨_, _, _, why⟩ := outcome
      rw [cr3] at why
      rcases why with barred | ⟨few, _⟩
      · refine clear (page i) ?_ ((grown.barred _).mp barred)
        rw [all]
        simp
      · change False
        omega
    · have mapped : OnePage s₁.cr3 (page i) vmmWrite s₁ s₂ := outcome
      rw [cr3] at mapped
      refine ⟨cr3'.trans cr3, new ∪ missing s₁.mem s.cr3 [page i], ?_, ?_⟩
      · rw [List.map_append, List.map_singleton]
        exact inside
      · rw [List.length_append]
        exact (grown.trans mapped.1).1
  · rintro (_ | _) s' after
    · exact after.elim
    · rfl

theorem largeBytes_pages (size : Word) :
    (largeBytes size).toNat = (largeBytes size).toNat / 4096 * 4096 := by
  have value := alignUp_page_toNat (size + 16#64)
  rw [largeBytes, value]
  omega

/-- A large request with a frame for every page and for every missing table. -/
theorem System.kmallocLarge_served (h : System K roots s g) (tree : PageTree s s.cr3) {size : Word}
    (pages : (largeBytes size).toNat / 4096 = n) (room : s.kheapNext.toNat + n * 4096 < 2 ^ 64)
    (enough : n + (missing s.mem s.cr3 (pagesFrom s.kheapNext n)).card ≤ s.pmm.freeFrames) :
    wp (kmallocLarge size) (fun result _ => result ≠ none) halt s := by
  have low : 0xFFFFFFFF80200000 ≤ s.kheapNext.toNat := h.heap
  unfold kmallocLarge
  simp only [vmmAllocKernel, wp_bind, wp_get, wp_modify, wp_pure]
  rw [pages]
  have clear : ∀ p ∈ pagesFrom s.kheapNext n, ¬ Barred s.mem s.cr3 p := by
    intro p member
    obtain ⟨i, lt, rfl⟩ := List.mem_map.mp member
    have lt := List.mem_range.mp lt
    refine h.not_barred ?_
    rw [BitVec.le_def, heapBase_toNat, BitVec.toNat_add, BitVec.toNat_ofNat]
    omega
  refine wp_imp (mapKernelPages_all (s := { s with kheapNext := _ })
    ⟨tree.one, tree.small, tree.fresh, tree.total⟩ h.vm.ok clear enough) ?_
  rintro _ s' rfl
  exact Option.some_ne_none _

/-! ## The counters

`heap_stats` prints four counters. They are kept beside the heap; without them `kmallocCounted` is
`kmalloc`. -/

structure HeapCounters where
  allocCount : Word
  freeCount : Word
  slabPages : Word
  largePages : Word

structure CountedHeap where
  heap : HeapState
  counters : HeapCounters

abbrev CountedM := EStateM HeapHalt CountedHeap

def onHeap {α : Type} (m : HeapM α) : CountedM α := fun c =>
  match m c.heap with
  | .ok a h => .ok a { c with heap := h }
  | .error e h => .error e { c with heap := h }

def count (f : HeapCounters → HeapCounters) : CountedM Unit :=
  modify fun c => { c with counters := f c.counters }

def slabAllocPageCounted (cls : Fin 7) : CountedM Nat := do
  match ← onHeap (onMm slabAllocPage) with
  | none => pure 0
  | some virt =>
    onHeap (slabInit cls virt.toNat)
    count fun n => { n with slabPages := n.slabPages + 1#64 }
    pure virt.toNat

def slabPrependCounted (cls : Fin 7) : CountedM Nat := do
  let s ← slabAllocPageCounted cls
  if s = 0 then pure 0
  else
    let head := (← get).heap.slabHeads cls
    onHeap (kstore 8 (s + 24) head)
    onHeap (linkPrev head s)
    onHeap (modify fun h => { h with slabHeads := Function.update h.slabHeads cls s })
    pure s

def slabTakeCounted (s : Nat) : CountedM Nat := do
  let obj ← onHeap (slabTake s)
  count fun n => { n with allocCount := n.allocCount + 1#64 }
  pure obj

def kmallocSlabCounted (cls : Fin 7) : CountedM Nat := do
  let found ← onHeap (findSlab maxSlabs ((← get).heap.slabHeads cls))
  let s ← if found ≠ 0 then pure found else slabPrependCounted cls
  if s = 0 then pure 0 else slabTakeCounted s

def kmallocBlockCounted (size : Nat) : CountedM Nat := do
  match ← onHeap (onMm (kmallocLarge (BitVec.ofNat 64 size))) with
  | none => pure 0
  | some p =>
    let hdr := p.toNat - 16
    let pages := (largeBytes (BitVec.ofNat 64 size)).toNat / 4096
    onHeap (kstore 8 hdr pages)
    onHeap (kstore 8 (hdr + 8) largeCanary)
    count fun n => { n with
      largePages := n.largePages + BitVec.ofNat 64 pages
      allocCount := n.allocCount + 1#64 }
    pure p.toNat

def kmallocCounted (size : Nat) : CountedM Nat :=
  if size = 0 then pure 0
  else
    let size := if size < 16 then 16 else size
    match sizeToClass (size % 2 ^ 32) with
    | some cls => kmallocSlabCounted cls
    | none => kmallocBlockCounted size

section Erasure

variable {α β : Type} {c c' : CountedHeap} {h : HeapState} {size : Nat} {cls : Fin 7}

/-- The two have the same heap. -/
def SameHeap (c : CountedHeap) (h : HeapState) : Prop := c.heap = h

theorem onHeap_sim (m : HeapM α) (same : SameHeap c h) : Sim SameHeap (onHeap m) m c h := by
  subst same
  unfold Sim onHeap
  cases m c.heap <;> exact ⟨rfl, rfl⟩

theorem count_sim {f : HeapCounters → HeapCounters} {k : Unit → CountedM α} {m : HeapM α}
    (rest : Sim SameHeap (k ()) m { c with counters := f c.counters } h) :
    Sim SameHeap (count f >>= k) m c h := rest

theorem slabAllocPageCounted_sim (cls : Fin 7) (same : SameHeap c h) :
    Sim SameHeap (slabAllocPageCounted cls) (slabAllocPageFor cls) c h := by
  refine .seq (onHeap_sim _ same) ?_
  rintro (_ | virt) c₁ h₁ same₁
  · exact .pure 0 same₁
  · refine .seq (onHeap_sim _ same₁) ?_
    rintro _ c₂ h₂ same₂
    exact count_sim (.pure virt.toNat same₂)

theorem slabPrependCounted_sim (cls : Fin 7) (same : SameHeap c h) :
    Sim SameHeap (slabPrependCounted cls) (slabPrepend cls) c h := by
  refine .seq (slabAllocPageCounted_sim cls same) ?_
  intro s c₁ h₁ same₁
  refine .ite (fun _ => .pure 0 same₁) fun _ => ?_
  obtain rfl := same₁
  refine .get (.seq (onHeap_sim _ rfl) ?_)
  rintro _ c₂ h₂ same₂
  refine .seq (onHeap_sim _ same₂) ?_
  rintro _ c₃ h₃ same₃
  refine .seq (onHeap_sim _ same₃) ?_
  rintro _ c₄ h₄ same₄
  exact .pure s same₄

theorem slabTakeCounted_sim (s : Nat) (same : SameHeap c h) :
    Sim SameHeap (if s = 0 then pure 0 else slabTakeCounted s)
      (if s = 0 then pure 0 else slabTake s) c h := by
  refine .ite (fun _ => .pure 0 same) fun _ => ?_
  rw [← bind_pure (slabTake s)]
  refine .seq (onHeap_sim _ same) ?_
  intro obj c₁ h₁ same₁
  exact count_sim (.pure obj same₁)

theorem kmallocSlabCounted_sim (cls : Fin 7) (same : SameHeap c h) :
    Sim SameHeap (kmallocSlabCounted cls) (kmallocSlab cls) c h := by
  obtain rfl := same
  refine .get (.seq (onHeap_sim _ rfl) ?_)
  intro found c₁ h₁ same₁
  refine .ite (fun _ => slabTakeCounted_sim found same₁) fun _ => ?_
  exact .seq (slabPrependCounted_sim cls same₁) fun s c₂ h₂ same₂ => slabTakeCounted_sim s same₂

theorem kmallocBlockCounted_sim (size : Nat) (same : SameHeap c h) :
    Sim SameHeap (kmallocBlockCounted size) (kmallocBlock size) c h := by
  refine .seq (onHeap_sim _ same) ?_
  rintro (_ | p) c₁ h₁ same₁
  · exact .pure 0 same₁
  · refine .seq (onHeap_sim _ same₁) ?_
    rintro _ c₂ h₂ same₂
    refine .seq (onHeap_sim _ same₂) ?_
    rintro _ c₃ h₃ same₃
    exact count_sim (.pure p.toNat same₃)

/-- Without the counters `kmallocCounted` is `kmalloc`. -/
theorem kmallocCounted_sim (size : Nat) (same : SameHeap c h) :
    Sim SameHeap (kmallocCounted size) (kmalloc size) c h := by
  refine .ite (fun _ => .pure 0 same) fun _ => ?_
  dsimp only
  cases sizeToClass ((if size < 16 then 16 else size) % 2 ^ 32) with
  | some cls => exact kmallocSlabCounted_sim cls same
  | none => exact kmallocBlockCounted_sim _ same

theorem wp_onHeap (m : HeapM α) (post : α → CountedHeap → Prop)
    (halt : HeapHalt → CountedHeap → Prop) (c : CountedHeap) :
    wp (onHeap m) post halt c ↔ wp m (fun a h => post a { c with heap := h })
      (fun e h => halt e { c with heap := h }) c.heap := by
  unfold wp onHeap
  cases m c.heap <;> rfl

end Erasure

/-! ## A null pointer -/

section Null

variable {c c' : CountedHeap} {G : HeapGhost} {size : Nat} {cls : Fin 7}

/-- The size that decides on the path: `kmalloc` rounds up to 16 and looks at 32 bits. -/
def pathOf (size : Nat) : Option (Fin 7) := sizeToClass ((if size < 16 then 16 else size) % 2 ^ 32)

/-- What has changed are at most the pool and the tables, by a call of `m` that found no memory. -/
def OnlyPages (m : MmM (Option Word)) (c c' : CountedHeap) : Prop :=
  m c.heap.mm = .ok none c'.heap.mm ∧ c' = { c with heap := { c.heap with mm := c'.heap.mm } }

/-- When no page can be had for a slab, the call counts nothing. -/
theorem kmallocSlabCounted_counters (inv : HeapInv K roots c.heap G)
    (refused : slabAllocPage c.heap.mm = .ok none s') :
    wp (kmallocSlabCounted cls) (fun p c' => p = 0 → c'.counters = c.counters)
      (fun _ _ => True) c := by
  unfold kmallocSlabCounted
  rw [wp_bind, wp_get, wp_bind, wp_onHeap]
  refine wp_imp (findSlab_spec (inv.chain cls) (inv.slabs_length cls)) ?_
  rintro found h₀ ⟨rfl, none_ | ⟨S, member, rfl, free⟩⟩
  · rw [if_neg (not_not.mpr none_)]
    unfold slabPrependCounted slabAllocPageCounted
    simp only [wp_bind, wp_onHeap, wp_onMm, wp_run refused, wp_pure, if_true]
    exact fun _ => trivial
  · have ne := (inv.slab member).1
    rw [if_pos ne]
    change wp (if S.base = 0 then pure 0 else slabTakeCounted S.base) _ _ _
    rw [if_neg ne]
    unfold slabTakeCounted
    rw [wp_bind, wp_onHeap]
    refine wp_imp (slabTake_allocated inv (fun _ => Iff.rfl) (fun b _ => .refl _ _ _) member free) ?_
    rintro p h' ⟨some_, _⟩
    exact fun zero => absurd zero some_

theorem kmallocSlabCounted_null (inv : HeapInv K roots c.heap G)
    (room : c.heap.mm.kheapNext.toNat + 4096 < 2 ^ 64)
    (ran : kmallocSlabCounted cls c = .ok 0 c') : OnlyPages slabAllocPage c c' := by
  obtain ⟨_, plain, rfl⟩ := (kmallocSlabCounted_sim cls rfl).ok ran
  obtain ⟨mm, same⟩ := (wp_ok (kmallocSlab_outcome inv room) plain).1 rfl
  have counters : c'.counters = c.counters := wp_ok (kmallocSlabCounted_counters inv mm) ran rfl
  refine ⟨mm, ?_⟩
  rw [← same, ← counters]

theorem kmallocLarge_place (size : Word) : wp (kmallocLarge size) (fun result _ =>
    (result = none → (largeBytes size).toNat / 4096 ≠ 0) ∧
      ∀ p, result = some p → p = s.kheapNext + 16#64) (fun _ _ => True) s := by
  unfold kmallocLarge
  simp only [vmmAllocKernel, wp_bind, wp_get, wp_modify, wp_pure]
  cases pages : (largeBytes size).toNat / 4096 with
  | zero =>
    refine ⟨fun none_ => absurd none_ (by simp), ?_⟩
    rintro p same
    exact (Option.some.inj same).symm
  | succ n =>
    refine wp_imp (wp_true _) ?_
    rintro (_ | _) s' _
    · exact ⟨fun _ => Nat.succ_ne_zero n, fun p some_ => absurd some_ (by simp)⟩
    · refine ⟨fun none_ => absurd none_ (by simp), ?_⟩
      rintro p same
      exact (Option.some.inj same).symm

theorem kmallocBlockCounted_null (inv : HeapInv K roots c.heap G)
    (ran : kmallocBlockCounted size c = .ok 0 c') :
    OnlyPages (kmallocLarge (BitVec.ofNat 64 size)) c c' ∧
      (largeBytes (BitVec.ofNat 64 size)).toNat / 4096 ≠ 0 := by
  have aligned := inv.aligned
  have outcome : wp (kmallocBlockCounted size) (fun p c' => p = 0 →
      OnlyPages (kmallocLarge (BitVec.ofNat 64 size)) c c' ∧
        (largeBytes (BitVec.ofNat 64 size)).toNat / 4096 ≠ 0) (fun _ _ => True) c := by
    unfold kmallocBlockCounted
    rw [wp_bind, wp_onHeap, wp_onMm]
    refine wp_mono (wp_of_run (kmallocLarge_place (s := c.heap.mm) _)) ?_ fun _ _ _ => trivial
    rintro (_ | p) s' ⟨mm, some_, place⟩
    · exact fun _ => ⟨⟨mm, rfl⟩, some_ rfl⟩
    · obtain rfl := place p rfl
      refine wp_seq (wp_true _) fun _ c₁ _ => wp_seq (wp_true _) fun _ c₂ _ => ?_
      intro zero
      have value : (c.heap.mm.kheapNext + 16#64).toNat = c.heap.mm.kheapNext.toNat + 16 := by
        rw [BitVec.toNat_add]
        change (c.heap.mm.kheapNext.toNat + 16) % 2 ^ 64 = _
        have := c.heap.mm.kheapNext.isLt
        omega
      omega
  exact wp_ok outcome ran rfl

/-- A call that returns `NULL` was asked for nothing, or found no page, and counts nothing. -/
theorem kmallocCounted_null (inv : HeapInv K roots c.heap G)
    (room : c.heap.mm.kheapNext.toNat + 4096 < 2 ^ 64) (ran : kmallocCounted size c = .ok 0 c') :
    size = 0 ∨ size ≠ 0 ∧ (∃ cls, pathOf size = some cls ∧ OnlyPages slabAllocPage c c') ∨
      size ≠ 0 ∧ pathOf size = none ∧ OnlyPages (kmallocLarge (BitVec.ofNat 64 size)) c c' ∧
        (largeBytes (BitVec.ofNat 64 size)).toNat / 4096 ≠ 0 := by
  by_cases zero : size = 0
  · exact .inl zero
  unfold kmallocCounted at ran
  rw [if_neg zero] at ran
  unfold pathOf
  cases path : sizeToClass ((if size < 16 then 16 else size) % 2 ^ 32) with
  | some cls =>
    rw [path] at ran
    exact .inr (.inl ⟨zero, cls, rfl, kmallocSlabCounted_null inv room ran⟩)
  | none =>
    have large : ¬ size < 16 := by
      intro small
      rw [if_pos small] at path
      cases path.symm.trans (show sizeToClass (16 % 2 ^ 32) = some 0 by decide)
    rw [path] at ran
    rw [if_neg large] at ran
    exact .inr (.inr ⟨zero, rfl, kmallocBlockCounted_null inv ran⟩)

end Null

/-! ## Failed requests -/

section Failed

variable {c c' : CountedHeap} {G : HeapGhost} {size : Nat}

/-- The pages a request takes, if it takes any. -/
def requestPages (size : Nat) : Nat :=
  match pathOf size with
  | some _ => 1
  | none => (largeBytes (BitVec.ofNat 64 size)).toNat / 4096

/-- The heap has the addresses for the request, and the pool a frame for each of its pages and for
each table that is missing on the way to them. -/
def Supplied (h : HeapState) (size : Nat) : Prop :=
  h.mm.kheapNext.toNat + requestPages size * 4096 < 2 ^ 64 ∧
    requestPages size + (missing h.mm.mem h.mm.cr3
      (pagesFrom h.mm.kheapNext (requestPages size))).card ≤ h.mm.pmm.freeFrames

/-- The request succeeds in every heap that has the frames for it. -/
def Served (size : Nat) : Prop := ∀ K roots c G, HeapInv K roots c.heap G →
  PageTree c.heap.mm c.heap.mm.cr3 → Supplied c.heap size →
    ∃ p c', kmallocCounted size c = .ok p c' ∧ p ≠ 0

/-- Pool, pages, slab lists and counters are as before the call, new kernel tables apart. -/
structure CleanFailure (c c' : CountedHeap) : Prop where
  pages : LeavesNothing c.heap.mm c'.heap.mm
  heads : c'.heap.slabHeads = c.heap.slabHeads
  counters : c'.counters = c.counters

theorem OnlyPages.clean {m : MmM (Option Word)} (only : OnlyPages m c c')
    (pages : LeavesNothing c.heap.mm c'.heap.mm) : CleanFailure c c' := by
  have same := only.2
  exact ⟨pages, by rw [same], by rw [same]⟩

theorem slabAllocPage_served (sys : System K roots s g) (tree : PageTree s s.cr3)
    (enough : 1 + (missing s.mem s.cr3 (pagesFrom s.kheapNext 1)).card ≤ s.pmm.freeFrames) :
    wp slabAllocPage (fun result _ => result ≠ none) halt s := by
  have one : pagesFrom s.kheapNext 1 = [s.kheapNext] := by
    simp [pagesFrom]
  rw [one] at enough
  refine wp_imp (sys.slabAllocPage_outcome tree) ?_
  rintro (_ | v) s' outcome
  · have few := outcome.2
    omega
  · exact Option.some_ne_none v

theorem met_of_served {m : MmM (Option Word)}
    (served : wp m (fun result _ => result ≠ none) (fun _ _ => False) s) :
    ∃ v, resultValue (m s) = some (some v) := by
  obtain ⟨result, s', ran, some_⟩ := exists_run served
  obtain ⟨v, rfl⟩ := Option.ne_none_iff_exists'.mp some_
  exact ⟨v, by rw [ran]; rfl⟩

theorem served_of (some_ : size ≠ 0)
    (pages : pathOf size = none → (largeBytes (BitVec.ofNat 64 size)).toNat / 4096 ≠ 0) :
    Served size := by
  rintro K roots c G inv tree ⟨room, enough⟩
  obtain ⟨g, sys⟩ := inv.pages
  have plain : ∃ p h', kmalloc size c.heap = .ok p h' ∧ p ≠ 0 := by
    cases path : pathOf size with
    | some cls =>
      have one : requestPages size = 1 := by
        rw [requestPages, path]
      rw [one] at room enough
      have last : c.heap.mm.kheapNext.toNat + 4096 < 2 ^ 64 := room
      have same : kmalloc size = kmallocSlab cls := by
        unfold pathOf at path
        unfold kmalloc
        rw [if_neg some_]
        dsimp only
        rw [path]
      obtain ⟨v, met⟩ := met_of_served (slabAllocPage_served sys.toSystem tree enough)
      have outcome := @kmallocSlab_outcome _ _ _ _ cls inv last
      rw [← same] at outcome
      obtain ⟨p, h', ran, some_, _⟩ := kmalloc_met outcome met
      exact ⟨p, h', ran, some_⟩
    | none =>
      have all : requestPages size = (largeBytes (BitVec.ofNat 64 size)).toNat / 4096 := by
        rw [requestPages, path]
      rw [all] at room enough
      have count := pages path
      have large : 16 ≤ size := by
        by_contra small
        rw [pathOf, if_pos (by omega)] at path
        cases path.symm.trans (show sizeToClass (16 % 2 ^ 32) = some 0 by decide)
      have same : kmalloc size = kmallocBlock size := by
        rw [pathOf, if_neg (by omega)] at path
        rw [kmalloc_of_large large, path]
      obtain ⟨v, met⟩ := met_of_served (sys.toSystem.kmallocLarge_served tree rfl room enough)
      have frames : c.heap.mm.pmm.freeFrames ≤ 2 ^ 20 := sys.vm.ok.freeFrames_le
      have outcome := kmallocBlock_outcome inv (largeBytes_pages _) ⟨by omega, by omega⟩ room
      rw [← same] at outcome
      obtain ⟨p, h', ran, some_, _⟩ := kmalloc_met outcome met
      exact ⟨p, h', ran, some_⟩
  obtain ⟨p, h', ran, some_⟩ := plain
  obtain ⟨c', counted, _⟩ := (kmallocCounted_sim size rfl).symm.ok ran
  exact ⟨p, c', counted, some_⟩

/-- A request for nothing fails, whatever memory there is. -/
theorem not_served_zero : ¬ Served 0 := by
  intro served
  have tree : PageTree (freshHeap smallMachine).mm (freshHeap smallMachine).mm.cr3 :=
    smallMachine_booted.pageTree
  obtain ⟨p, c', ran, some_⟩ := served _ _ ⟨freshHeap smallMachine, ⟨0, 0, 0, 0⟩⟩ _ smallHeap_inv tree
    ⟨by decide +kernel, by decide +kernel⟩
  cases ran
  exact some_ rfl

/-- **A failed kmalloc leaves no garbage**, exactly if the request was not for 0 bytes and was
one for a slab, or could not even get its first page: pages that a large request has mapped before
it fails stay mapped. A later request of that size is then met once the frames are there. -/
theorem kmalloc_fails_clean_iff (inv : HeapInv K roots c.heap G)
    (tree : PageTree c.heap.mm c.heap.mm.cr3) (ahead : Ahead c.heap)
    (room : c.heap.mm.kheapNext.toNat + 4096 < 2 ^ 64) (ran : kmallocCounted size c = .ok 0 c') :
    CleanFailure c c' ∧ Served size ↔ size ≠ 0 ∧ ((pathOf size).isSome = true ∨
      c.heap.mm.pmm.freeFrames ≤
        (missing c.heap.mm.mem c.heap.mm.cr3 [c.heap.mm.kheapNext]).card) := by
  obtain ⟨g, sys⟩ := inv.pages
  rcases kmallocCounted_null inv room ran with
    rfl | ⟨some_, cls, path, only⟩ | ⟨some_, path, only, count⟩
  · exact iff_of_false (fun both => not_served_zero both.2) fun cond => cond.1 rfl
  · have outcome : wp slabAllocPage _ (fun _ _ => True) _ := sys.toSystem.slabAllocPage_outcome tree
    have declined := wp_ok outcome only.1
    refine iff_of_true ⟨only.clean declined.1, served_of some_ ?_⟩ ⟨some_, .inl (by rw [path]; rfl)⟩
    rw [path]
    exact nofun
  · have large : ¬ (pathOf size).isSome = true := by
      rw [path]
      exact Bool.false_ne_true
    have outcome : wp (kmallocLarge (BitVec.ofNat 64 size)) _ (fun _ _ => True) _ :=
      sys.toSystem.kmallocLarge_outcome tree _
    rcases wp_ok outcome only.1 rfl with declined | ⟨more, present⟩
    · exact iff_of_true ⟨only.clean declined.1, served_of some_ fun _ => count⟩
        ⟨some_, .inr declined.2⟩
    · refine iff_of_false ?_ fun cond => absurd (cond.2.resolve_left large) (by omega)
      rintro ⟨clean, _⟩
      -- the first page was not mapped before the call
      have before : vmmGetPhysical c.heap.mm.mem c.heap.mm.cr3 c.heap.mm.kheapNext = none := by
        have none_ := ahead _ (le_refl _)
        rw [heapView, if_pos ⟨sys.heap, c.heap.mm.kheapNext.isLt⟩, Option.map_eq_none_iff,
          BitVec.ofNat_toNat, BitVec.setWidth_eq] at none_
        exact none_
      have after := (clean.pages.reads c.heap.mm.kheapNext).1.trans before
      rw [(present.tree.reads _).1, Option.map_eq_none_iff] at after
      exact present.here after

/-- The heap after `heap_init`. -/
def bootHeap (s : MemState) : CountedHeap := ⟨freshHeap s, ⟨0, 0, 0, 0⟩⟩

theorem kmalloc_fails_clean_iff_full : ∃ c', kmallocCounted 100 (bootHeap fullMachine) = .ok 0 c' ∧
    CleanFailure (bootHeap fullMachine) c' := by
  have base := fullMachine_booted.heapBase_le (by decide)
  have ran := result_eq (show resultValue (kmallocCounted 100 (bootHeap fullMachine)) = some 0 by
    decide +kernel)
  refine ⟨_, ran, ((kmalloc_fails_clean_iff (fullMachine_booted.tracked base).inv
    fullMachine_booted.pageTree (fullMachine_booted.ahead base) (by decide) ran).mpr
    ⟨by decide, .inl (by decide)⟩).1⟩

/-- Seven frames are left and ten pages asked for: six pages stay mapped. -/
theorem kmalloc_leaves_pages : ∃ c', HeapInv smallTables [] (bootHeap scarceMachine).heap
      ⟨fun _ => [], [], fun _ => none⟩ ∧
    kmallocCounted 40000 (bootHeap scarceMachine) = .ok 0 c' ∧
    vmmGetPhysical (bootHeap scarceMachine).heap.mm.mem 1 0xFFFFFFFF80200000#64 = none ∧
    vmmGetPhysical c'.heap.mm.mem 1 0xFFFFFFFF80200000#64 = some 0x8000#64 ∧
    c'.heap.mm.pmm.refcount 8 = 1 ∧ ¬ CleanFailure (bootHeap scarceMachine) c' := by
  have base := scarceMachine_booted.heapBase_le (by decide)
  have ran := result_eq (show resultValue (kmallocCounted 40000 (bootHeap scarceMachine)) = some 0 by
    decide +kernel)
  have before : vmmGetPhysical (bootHeap scarceMachine).heap.mm.mem 1 0xFFFFFFFF80200000#64 =
      none := by decide +kernel
  have after : vmmGetPhysical (resultState (kmallocCounted 40000 (bootHeap scarceMachine))).heap.mm.mem
      1 0xFFFFFFFF80200000#64 = some 0x8000#64 := by decide +kernel
  refine ⟨_, (scarceMachine_booted.tracked base).inv, ran, before, after, by decide +kernel, ?_⟩
  intro clean
  have same := (clean.pages.reads 0xFFFFFFFF80200000#64).1
  cases after.symm.trans (same.trans before)

end Failed

end LithiumKernel.Mm
