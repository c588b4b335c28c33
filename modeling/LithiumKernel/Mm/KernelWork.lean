import LithiumKernel.Mm.CowIsolation
import LithiumKernel.Mm.Heap

/-!
# Work of the kernel that a user space does not see

While the kernel works for the loaded task it takes frames from the pool, maps and unmaps
pages of its heap and builds other address spaces. `Unseen` relates the state at the start of
such work to a later one: the task has the leaves it had, and the frames behind them the
contents they had.

The heap takes its addresses in ascending order, modulo 2^64. A block that reaches the end of
the address space goes on at address 0, which is in the identity window; pages below 2 MiB are
then replaced there, and the first 2 MiB page is refused. So the relation does not ask for the
window as `vmm_init` made it, only that its page table has no user pages.
-/
namespace LithiumKernel.Mm

open LithiumKernel.Lib LithiumKernel.Lib.Forest

/-- An address of the heap, or one of the window, where a block may go on. -/
def HeapOrWindow (v : Word) : Prop := heapBase ≤ v ∨ v.toNat < 2 ^ 30

structure Unseen (K : KernelTables) (s₀ : MemState) (g₀ : SpaceGhost) (s : MemState)
    (g : SpaceGhost) : Prop where
  vm : Vm K.pdptHh s g
  cr3 : s.cr3 = s₀.cr3
  live : (spaceLayout K.pdptHh).Live g (.user s₀.cr3)
  top : s.mem s₀.cr3 511 = tableEntry (frameAddr K.pdptHh)
  pdptHh : g.role K.pdptHh = some (.kernel, [511])
  entrance : ∃ t, g.role t = some (.user s₀.cr3, [0]) ∧ K.Entrance (s.mem t 0)
  held : ∀ f ∈ [K.pd0, K.pt0], f < s.pmm.totalFrames ∧ 0 < g.ext f
  distinct : K.pd0 ≠ K.pt0
  pd0 : ∀ i, s.mem K.pd0 i = if i = 0 then tableEntry (frameAddr K.pt0) else identityHuge i
  pt0 : ∀ i, (s.mem K.pt0 i).getLsbD 2 = false
  leaf : ∀ q, g.leaf (.user s₀.cr3, q) = g₀.leaf (.user s₀.cr3, q)
  data : ∀ q, g₀.leaf (.user s₀.cr3, q) ≠ 0#64 →
    s.mem (frameOf (g₀.leaf (.user s₀.cr3, q))) = s₀.mem (frameOf (g₀.leaf (.user s₀.cr3, q)))
  apart : ∀ q, g₀.leaf (.user s₀.cr3, q) ≠ 0#64 → frameOf (g₀.leaf (.user s₀.cr3, q)) ≠ K.pt0

variable {K : KernelTables} {roots : List Nat} {s₀ s s' : MemState} {g₀ g g' : SpaceGhost}

theorem System.unseen (h : System K roots s g) (root : s.cr3 ∈ roots) : Unseen K s g s g where
  vm := h.vm
  cr3 := rfl
  live := (h.live _).mpr root
  top := h.topEntry (.inr root)
  pdptHh := h.pdptHh
  entrance := h.entrance _ root
  held f member := by
    refine h.held f (h.shared f ?_)
    simp only [List.mem_cons, List.not_mem_nil, or_false] at member ⊢
    exact .inr (.inr member)
  distinct same := by
    have pd := h.window.pd0 0
    rw [same, h.window.pt0 0, if_pos (.inl rfl), if_pos rfl] at pd
    exact tableEntry_present K.pt0 (by rw [← pd]; decide)
  pd0 := h.window.pd0
  pt0 i := by
    rw [h.window.pt0]
    split
    · rfl
    · rw [identityPage_eq, tableEntry_low _ (by decide)]
      decide
  leaf _ := rfl
  data _ _ := rfl
  apart q filled same := by
    refine h.apart _ filled ?_
    rw [same]
    exact h.shared K.pt0 (by simp)

namespace Unseen

/-- The tables of the window are not part of the forest. -/
theorem outside (h : Unseen K s₀ g₀ s g) {f : Nat} (member : f ∈ [K.pd0, K.pt0]) :
    g.role f = none ∧ 0 < s.pmm.refcount f := by
  obtain ⟨lt, pos⟩ := h.held f member
  exact ⟨h.vm.wf.role_none_of_ext pos, h.vm.rc_pos_of_ext lt pos⟩

/-- Steps that keep the tables, the data frames and the leaves of the task. -/
theorem keep (h : Unseen K s₀ g₀ s g) (kept : Keep s g s' g') (vm : Vm K.pdptHh s' g')
    (ext : ∀ f ∈ [K.pd0, K.pt0], 0 < g.ext f → 0 < g'.ext f)
    (leaf : ∀ q, g'.leaf (.user s₀.cr3, q) = g.leaf (.user s₀.cr3, q)) :
    Unseen K s₀ g₀ s' g' where
  vm := vm
  cr3 := kept.cr3.trans h.cr3
  live := kept.tables h.live
  top := (kept.foreign (o := .user s₀.cr3) (p := []) h.live (by simp [ownsSlot])).trans h.top
  pdptHh := kept.tables h.pdptHh
  entrance := by
    obtain ⟨t, at_t, entry⟩ := h.entrance
    refine ⟨t, kept.tables at_t, ?_⟩
    rwa [kept.foreign at_t (by simp [ownsSlot])]
  held f member := by
    obtain ⟨lt, pos⟩ := h.held f member
    exact ⟨by rwa [kept.evolves.total], ext f member pos⟩
  distinct := h.distinct
  pd0 i := by
    obtain ⟨free, used⟩ := h.outside (f := K.pd0) (by simp)
    rw [(kept.data free used).2]
    exact h.pd0 i
  pt0 i := by
    obtain ⟨free, used⟩ := h.outside (f := K.pt0) (by simp)
    rw [(kept.data free used).2]
    exact h.pt0 i
  leaf q := (leaf q).trans (h.leaf q)
  data q filled := by
    have facts := h.vm.leaf_facts (x := (.user s₀.cr3, q)) (by rwa [h.leaf])
    rw [h.leaf] at facts
    exact (kept.data facts.2.2.1 facts.2.2.2).2.trans (h.data q filled)
  apart := h.apart

theorem quiet (h : Unseen K s₀ g₀ s g) (quiet : Quiet K.pdptHh s g s' g') :
    Unseen K s₀ g₀ s' g' := by
  refine h.keep quiet.toGrow.keep quiet.vm ?_ fun q => by rw [quiet.leaf]
  intro f _ pos
  rwa [quiet.ext]

/-- The page table of the window is written, but no user page is put there. -/
theorem windowWrite (h : Unseen K s₀ g₀ s g) {page : Idx → Word}
    (supervisor : ∀ i, (page i).getLsbD 2 = false) :
    Unseen K s₀ g₀ { s with mem := Function.update s.mem K.pt0 page } g := by
  have free := (h.outside (f := K.pt0) (by simp)).1
  -- a frame of the forest is another one
  have other : ∀ {t x}, g.role t = some x → t ≠ K.pt0 := by
    rintro t x at_t rfl
    rw [free] at at_t
    cases at_t
  refine ⟨h.vm.blank free page, h.cr3, h.live, ?_, h.pdptHh, ?_, h.held, h.distinct, ?_, ?_,
    h.leaf, ?_, h.apart⟩
  · have root : s₀.cr3 ≠ K.pt0 := other h.live
    change Function.update s.mem K.pt0 page s₀.cr3 511 = _
    rw [Function.update_of_ne root]
    exact h.top
  · obtain ⟨t, at_t, entry⟩ := h.entrance
    refine ⟨t, at_t, ?_⟩
    change K.Entrance (Function.update s.mem K.pt0 page t 0)
    rwa [Function.update_of_ne (other at_t)]
  · intro i
    change Function.update s.mem K.pt0 page K.pd0 i = _
    rw [Function.update_of_ne h.distinct]
    exact h.pd0 i
  · intro i
    change (Function.update s.mem K.pt0 page K.pt0 i).getLsbD 2 = false
    rw [Function.update_self]
    exact supervisor i
  · intro q filled
    change Function.update s.mem K.pt0 page _ = _
    rw [Function.update_of_ne (h.apart q filled)]
    exact h.data q filled

/-- One entry of that table is written. -/
theorem windowStore (h : Unseen K s₀ g₀ s g) (i : Idx) {w : Word}
    (supervisor : w.getLsbD 2 = false) :
    Unseen K s₀ g₀ { s with mem := store s.mem K.pt0 i w } g := by
  rw [store_eq_update]
  refine h.windowWrite fun j => ?_
  by_cases here : j = i
  · rw [here, Function.update_self]
    exact supervisor
  · rw [Function.update_of_ne here]
    exact h.pt0 j

/-! ## The way into the window and into the heap -/

theorem firstLink (h : Unseen K s₀ g₀ s g) :
    ∃ t, g.role t = some (.user s₀.cr3, [0]) ∧ s.mem s₀.cr3 0 &&& vmmPresent ≠ 0#64 ∧
      frameOf (s.mem s₀.cr3 0) = t ∧ K.Entrance (s.mem t 0) := by
  obtain ⟨t, at_t, entry⟩ := h.entrance
  obtain ⟨present, step⟩ := h.vm.firstLink at_t
  exact ⟨t, at_t, present, step, entry⟩

/-- What `vmm_create_address_space` needs of the loaded root. -/
theorem current (h : Unseen K s₀ g₀ s g) :
    0 < s.pmm.refcount s.cr3 ∧ 0 < s.pmm.refcount (frameOf (s.mem s.cr3 0)) := by
  obtain ⟨t, at_t, _, step, _⟩ := h.firstLink
  have root : g.role s₀.cr3 = some (.user s₀.cr3, []) := h.live
  rw [h.cr3, step, h.vm.wf.rc_table at_t, h.vm.wf.rc_table root]
  decide

/-- The way to a heap page from the loaded root. -/
theorem walkHeap (h : Unseen K s₀ g₀ s g) {v : Word} (above : heapBase ≤ v) :
    s.mem s.cr3 (pml4Idx v) &&& vmmPresent ≠ 0#64 ∧
      WalkBelow K.pdptHh s g .kernel (frameOf (s.mem s.cr3 (pml4Idx v))) v := by
  obtain ⟨first, own₃, own₂⟩ := heap_indices above
  have entry := h.top
  have at_pdpt := h.pdptHh
  rw [← first, ← h.cr3] at entry
  rw [← first] at at_pdpt
  rw [entry]
  refine ⟨tableEntry_present _, ?_⟩
  rw [tableEntry_frame (h.vm.frame_small (h.vm.wf.table_lt h.pdptHh))]
  exact h.vm.walkBelow at_pdpt (by rw [first]; exact own₃) own₂
    (by rw [first]; exact List.suffix_refl _)

/-- Mapping in the window: below 2 MiB the page table gets the page, above it is refused. -/
theorem vmmMapPage_window (h : Unseen K s₀ g₀ s g) (halt : Kassert → MemState → Prop)
    (phys : Word) {r : Nat} {v flags : Word} (root : r = s₀.cr3) (inside : InWindow v)
    (supervisor : flags &&& vmmUser = 0#64) :
    wp (vmmMapPage r v phys flags) (fun done s' =>
      if pdIdx v = 0 then
        done = true ∧ s' = { s with mem := store s.mem K.pt0 (ptIdx v) (leafEntry phys flags) }
      else done = false ∧ s' = s) halt s := by
  subst root
  obtain ⟨t, at_t, top, step, present, _, target⟩ := h.firstLink
  have small := h.vm.frame_small (h.held K.pt0 (by simp)).1
  have plain : ¬ flags &&& vmmUser ≠ 0#64 := not_not.mpr supervisor
  unfold vmmMapPage mapBelowPdpt ptWalkOrAlloc markUser
  simp only [inside.1, inside.2, wp_bind, wp_readEntry, if_pos top, wp_pure, if_neg plain,
    step, if_pos present, target, h.pd0]
  by_cases first : pdIdx v = 0
  · simp only [if_pos first, tableEntry_small, tableEntry_present, ne_eq, not_true_eq_false,
      not_false_eq_true, if_true, if_false, wp_pure, tableEntry_frame small, wp_bind,
      wp_writeEntry, wp_readEntry, h.pd0, and_self]
  · simp only [if_neg first, identityHuge_huge, ne_eq, not_false_eq_true, if_true, wp_pure, and_self]

end Unseen

theorem HeapOrWindow.inWindow {v : Word} (low : v.toNat < 2 ^ 30) : InWindow v := by
  refine ⟨Fin.ext ?_, Fin.ext ?_⟩
  · rw [pml4Idx, idxOf_shift_val]
    change _ = 0
    omega
  · rw [pdptIdx, idxOf_shift_val]
    change _ = 0
    omega

/-- The page after one that could be mapped. -/
theorem HeapOrWindow.next {v : Word} (place : HeapOrWindow v)
    (first : v.toNat < 2 ^ 30 → pdIdx v = 0) : HeapOrWindow (v + 4096#64) := by
  have high := v.isLt
  have sum : (v + 4096#64).toNat = (v.toNat + 4096) % 2 ^ 64 := BitVec.toNat_add v 4096#64
  rcases place with heap | low
  · have base : 0xFFFFFFFF80200000 ≤ v.toNat := heap
    by_cases room : v.toNat + 4096 < 2 ^ 64
    · refine .inl (BitVec.le_def.mpr ?_)
      rw [sum, Nat.mod_eq_of_lt room]
      change 0xFFFFFFFF80200000 ≤ _
      omega
    · refine .inr ?_
      rw [sum]
      omega
  · have index := congrArg Fin.val (first low)
    rw [pdIdx, idxOf_shift_val] at index
    change _ = 0 at index
    refine .inr ?_
    rw [sum]
    omega

namespace Unseen

/-- One page of a block is mapped, or the frame for it is given back. -/
theorem mapPage (h : Unseen K s₀ g₀ s g) {f : Nat} {q : Pmm} {v : Word} (place : HeapOrWindow v)
    (lt : f < s.pmm.totalFrames) (zero : s.pmm.refcount f = 0) (evolves : s.pmm.Evolves q)
    (counts : q.refcount = Function.update s.pmm.refcount f 1) :
    wp (mapOrFree s.cr3 v (frameAddr f) vmmWrite) (fun done s' =>
      (∃ g', Unseen K s₀ g₀ s' g') ∧ s'.kheapNext = s.kheapNext ∧
        (done = true → HeapOrWindow (v + 4096#64))) Saturated { s with pmm := q } := by
  by_cases heap : heapBase ≤ v
  · have entry := h.top
    rw [← h.cr3] at entry
    refine wp_imp (h.vm.mapOrFree_fresh entry h.pdptHh heap lt zero evolves counts) ?_
    rintro done s' ⟨g', result⟩
    have above : ¬ v.toNat < 2 ^ 30 := by
      have : 0xFFFFFFFF80200000 ≤ v.toNat := heap
      omega
    refine ⟨⟨g', h.keep result.toGrow.keep result.vm ?_ ?_⟩, result.heap,
      fun _ => place.next fun low => absurd low above⟩
    · intro f' _ pos
      exact Nat.lt_of_lt_of_le pos (result.ext_le f')
    · intro q'
      exact result.others (by simp)
  · have low := place.resolve_left heap
    obtain ⟨grown, held⟩ := h.vm.fresh lt zero evolves counts (s.mem f)
    rw [Function.update_eq_self] at grown held
    have more : ∀ f' ∈ [K.pd0, K.pt0], 0 < g.ext f' →
        0 < Function.update g.ext f (g.ext f + 1) f' := by
      intro f' _ pos
      by_cases here : f' = f
      · rw [here, Function.update_self]
        exact Nat.succ_pos _
      · rwa [Function.update_of_ne here]
    have taken := h.keep grown.keep held more fun _ => rfl
    unfold mapOrFree
    refine wp_seq (taken.vmmMapPage_window Saturated _ h.cr3 (HeapOrWindow.inWindow low)
      (show vmmWrite &&& vmmUser = 0#64 by decide)) ?_
    intro done s' outcome
    by_cases first : pdIdx v = 0
    · rw [if_pos first] at outcome
      obtain ⟨rfl, rfl⟩ := outcome
      refine ⟨⟨_, taken.windowStore (ptIdx v) ?_⟩, rfl, fun _ => place.next fun _ => first⟩
      rw [leafEntry_low _ _ (by decide)]
      decide
    · rw [if_neg first] at outcome
      obtain ⟨rfl, rfl⟩ := outcome
      rw [if_neg (by decide), wp_bind]
      refine freeFrame_spec evolves.ok (by change f < q.totalFrames; rwa [evolves.total])
        (by change 0 < q.refcount f; rw [counts, Function.update_self]; decide) ?_
      intro q' evolves' counts'
      have back := h.vm.borrowed lt zero evolves counts evolves' counts' (s.mem f)
      rw [Function.update_eq_self] at back
      exact ⟨⟨g, h.quiet back⟩, rfl, nofun⟩

theorem mapKernelPage (h : Unseen K s₀ g₀ s g) {v : Word} (place : HeapOrWindow v) :
    wp (mapKernelPage v) (fun done s' =>
      (∃ g', Unseen K s₀ g₀ s' g') ∧ s'.kheapNext = s.kheapNext ∧
        (done = true → HeapOrWindow (v + 4096#64))) Saturated s := by
  unfold Mm.mapKernelPage
  rw [wp_bind]
  apply allocFrame_spec h.vm
  · intro _
    exact ⟨⟨g, h⟩, rfl, nofun⟩
  · intro f q lt zero evolves counts _
    exact h.mapPage place lt zero evolves counts

theorem reserve (h : Unseen K s₀ g₀ s g) (w : Word) :
    Unseen K s₀ g₀ { s with kheapNext := w } g :=
  ⟨⟨h.vm.ok, h.vm.wf⟩, h.cr3, h.live, h.top, h.pdptHh, h.entrance, h.held, h.distinct, h.pd0,
    h.pt0, h.leaf, h.data, h.apart⟩

theorem slabAllocPage (h : Unseen K s₀ g₀ s g) (next : HeapOrWindow s.kheapNext) :
    wp slabAllocPage (fun result s' => (∃ g', Unseen K s₀ g₀ s' g') ∧
      ∀ p, result = some p → HeapOrWindow s'.kheapNext) Saturated s := by
  unfold Mm.slabAllocPage
  rw [wp_bind]
  apply allocFrame_spec h.vm
  · intro _
    exact ⟨⟨g, h⟩, nofun⟩
  · intro f q lt zero evolves counts _
    simp only [vmmAllocKernel, wp_bind, wp_get, wp_modify, wp_pure]
    have moved := h.reserve (s.kheapNext + alignUp pageSize pageSize)
    refine wp_imp (moved.mapPage next lt zero evolves counts) ?_
    rintro done s' ⟨after, heap, following⟩
    cases done with
    | false => exact ⟨after, nofun⟩
    | true =>
      refine ⟨after, fun p _ => ?_⟩
      rw [heap]
      exact following rfl

/-- A large block: what is mapped, and where its pages are. -/
theorem kmallocLarge (h : Unseen K s₀ g₀ s g) (next : HeapOrWindow s.kheapNext) (size : Word) :
    wp (kmallocLarge size) (fun result s' => (∃ g', Unseen K s₀ g₀ s' g') ∧
      ∀ p, result = some p → HeapOrWindow s'.kheapNext ∧
        ∀ i < (largeBytes size).toNat / 4096,
          HeapOrWindow (p - 16#64 + BitVec.ofNat 64 (i * 4096))) Saturated s := by
  have value := alignUp_page_toNat (size + 16#64)
  have twice := alignUp_page_toNat (largeBytes size)
  have same : alignUp (largeBytes size) pageSize = largeBytes size := by
    apply BitVec.eq_of_toNat_eq
    rw [twice, largeBytes, value]
    omega
  have whole : largeBytes size =
      BitVec.ofNat 64 ((List.range ((largeBytes size).toNat / 4096)).length * 4096) := by
    apply BitVec.eq_of_toNat_eq
    rw [List.length_range, BitVec.toNat_ofNat, largeBytes, value]
    omega
  unfold Mm.kmallocLarge
  simp only [vmmAllocKernel, wp_bind, wp_get, wp_modify, wp_pure, same]
  -- the pages mapped so far, and where the next one goes
  refine wp_imp (wp_allM (fun done s' => (∃ g', Unseen K s₀ g₀ s' g') ∧
    s'.kheapNext = s.kheapNext + largeBytes size ∧
    HeapOrWindow (s.kheapNext + BitVec.ofNat 64 (done.length * 4096)) ∧
    ∀ i < done.length, HeapOrWindow (s.kheapNext + BitVec.ofNat 64 (i * 4096)))
    (fun s' => ∃ g', Unseen K s₀ g₀ s' g') _ ?_ ?_) ?_
  · rintro done i rest s₁ split ⟨⟨g₁, now⟩, heap, here, before⟩
    have index : i = done.length := by
      have found := congrArg (fun xs => xs[done.length]?) split
      simp only [List.getElem?_append_right (Nat.le_refl _), Nat.sub_self,
        List.getElem?_cons_zero] at found
      have range := List.getElem?_eq_some_iff.mp found
      obtain ⟨_, eq⟩ := range
      rw [List.getElem_range] at eq
      exact eq.symm
    rw [index]
    refine wp_imp (now.mapKernelPage here) ?_
    rintro ok s₂ ⟨after, heap', following⟩
    cases ok with
    | false => exact after
    | true =>
      have step : s.kheapNext + BitVec.ofNat 64 ((done ++ [done.length]).length * 4096) =
          s.kheapNext + BitVec.ofNat 64 (done.length * 4096) + 4096#64 := by
        rw [List.length_append, List.length_singleton, Nat.succ_mul, BitVec.ofNat_add,
          ← BitVec.add_assoc]
      refine ⟨after, heap'.trans heap, ?_, ?_⟩
      · rw [step]
        exact following rfl
      · intro j lt
        rw [List.length_append, List.length_singleton] at lt
        rcases Nat.lt_succ_iff_lt_or_eq.mp lt with old | rfl
        · exact before j old
        · exact here
  · refine ⟨⟨g, h.reserve _⟩, rfl, ?_, ?_⟩
    · rw [List.length_nil, Nat.zero_mul, BitVec.add_zero]
      exact next
    · intro i lt
      exact absurd lt (Nat.not_lt_zero i)
  · intro mapped s' after
    cases mapped with
    | false => exact ⟨after, fun p none_ => by cases none_⟩
    | true =>
      obtain ⟨unseen, heap, here, pages⟩ := after
      refine ⟨unseen, ?_⟩
      rintro p ⟨rfl⟩
      rw [← whole] at here
      rw [heap, BitVec.add_sub_cancel]
      rw [List.length_range] at pages
      exact ⟨here, pages⟩

/-! ## Other address spaces -/

theorem created (h : Unseen K s₀ g₀ s g) {r : Nat} (made : Created K.pdptHh r s g s' g') :
    Unseen K s₀ g₀ s' g' := by
  refine h.keep made.toGrow.keep made.vm ?_ fun q => by rw [made.leaf]
  intro f _ pos
  rwa [made.ext]

/-- A new space is not that of the task. -/
theorem other_root (h : Unseen K s₀ g₀ s g) {r : Nat} (unused : s.pmm.refcount r = 0) :
    r ≠ s₀.cr3 := by
  rintro rfl
  have root : g.role s₀.cr3 = some (.user s₀.cr3, []) := h.live
  rw [h.vm.wf.rc_table root] at unused
  cases unused

theorem destroyed (h : Unseen K s₀ g₀ s g) {r : Nat} (gone : Destroyed K.pdptHh r s g s' g')
    (other : r ≠ s₀.cr3) : Unseen K s₀ g₀ s' g' := by
  have owner : Owner.user s₀.cr3 ≠ .user r := fun same => other (Owner.user.inj same).symm
  -- tables of the task and of the kernel, and frames that are no tables
  have mine : ∀ {t p}, g.role t = some (.user s₀.cr3, p) →
      g'.role t = some (.user s₀.cr3, p) ∧ s'.mem t = s.mem t := by
    intro t p at_t
    refine ⟨(gone.roles t _).mpr ⟨at_t, owner⟩, gone.mem fun x role => ?_⟩
    rw [at_t] at role
    obtain rfl := Option.some.inj role
    exact owner
  have free : ∀ {f}, g.role f = none → s'.mem f = s.mem f := by
    intro f none_
    refine gone.mem fun x role => ?_
    rw [none_] at role
    cases role
  have same : ∀ q, g'.leaf (.user s₀.cr3, q) = g.leaf (.user s₀.cr3, q) := by
    intro q
    rw [gone.leaf, if_neg owner]
  have root := mine (t := s₀.cr3) (p := []) h.live
  refine ⟨gone.vm, gone.cr3.trans h.cr3, root.1, ?_, ?_, ?_, ?_, h.distinct, ?_, ?_, ?_, ?_, h.apart⟩
  · rw [root.2]
    exact h.top
  · exact (gone.roles _ _).mpr ⟨h.pdptHh, nofun⟩
  · obtain ⟨t, at_t, entry⟩ := h.entrance
    refine ⟨t, (mine at_t).1, ?_⟩
    rwa [(mine at_t).2]
  · intro f member
    rw [gone.ext, gone.evolves.total]
    exact h.held f member
  · rw [free (h.outside (by simp)).1]
    exact h.pd0
  · rw [free (h.outside (by simp)).1]
    exact h.pt0
  · intro q
    rw [same]
    exact h.leaf q
  · intro q filled
    have facts := h.vm.leaf_facts (x := (.user s₀.cr3, q)) (by rwa [h.leaf])
    rw [h.leaf] at facts
    rw [free facts.2.2.1]
    exact h.data q filled

end Unseen

/-! ## Giving blocks back

`kfree` gives the frames of a block to the pool. What the user sees does not depend on the
pool, so the relation is kept for some pool. -/

def Hidden (K : KernelTables) (s₀ : MemState) (g₀ : SpaceGhost) (s : MemState) : Prop :=
  ∃ q g, Unseen K s₀ g₀ { s with pmm := q } g

theorem Unseen.hidden (h : Unseen K s₀ g₀ s g) : Hidden K s₀ g₀ s := ⟨s.pmm, g, h⟩

/-- A leaf of the kernel is cleared. -/
theorem Unseen.kernelCleared (h : Unseen K s₀ g₀ s g) {t : Nat} {p : List Idx} {i : Idx}
    (at_t : g.role t = some (.kernel, p)) (full : p.length = 3) (own : ownsSlot .kernel p i)
    (filled : s.mem t i ≠ 0#64) :
    ∃ g', Unseen K s₀ g₀ { s with mem := store s.mem t i 0#64 } g' := by
  have cleared := h.vm.clearLeaf at_t full own filled
  refine ⟨_, h.keep ?_ cleared ?_ ?_⟩
  · refine ⟨.refl h.vm.ok, rfl, rfl, fun role => role, ?_, ?_⟩
    · intro f free _
      have ne : f ≠ t := by
        rintro rfl
        rw [free] at at_t
        cases at_t
      exact ⟨free, store_frame _ i _ ne⟩
    · intro t' o' p' i' role foreign
      apply store_of_ne
      rintro ⟨rfl, rfl⟩
      rw [at_t] at role
      obtain ⟨rfl, rfl⟩ := Prod.mk.inj (Option.some.inj role)
      exact foreign own
  · intro f _ pos
    change 0 < Function.update g.ext _ _ f
    by_cases here : f = frameOf (s.mem t i)
    · rw [here, Function.update_self]
      exact Nat.succ_pos _
    · rwa [Function.update_of_ne here]
  · intro q
    have other : (Owner.user s₀.cr3, q) ≠ (Owner.kernel, i :: p) := by simp
    exact Function.update_of_ne other 0#64 g.leaf

namespace Hidden

theorem vmmUnmapPage (h : Hidden K s₀ g₀ s) {v : Word} (place : HeapOrWindow v)
    (halt : Kassert → MemState → Prop) :
    wp (vmmUnmapPage s.cr3 v) (fun _ s' => Hidden K s₀ g₀ s') halt s := by
  obtain ⟨q, g, h⟩ := h
  rcases place with heap | low
  · obtain ⟨top, below⟩ := h.walkHeap heap
    refine vmmUnmapPage_below (s := s) (k := K.pdptHh) (g := g) (o := .kernel) top below ?_ ?_
    · intro _
      exact ⟨q, g, h⟩
    · intro t at_t _ filled
      obtain ⟨g', cleared⟩ := h.kernelCleared at_t rfl trivial filled
      exact ⟨q, g', cleared⟩
  · obtain ⟨first, second⟩ := HeapOrWindow.inWindow low
    obtain ⟨t, at_t, top, step, present, _, target⟩ := h.firstLink
    have small := h.vm.frame_small (h.held K.pt0 (by simp)).1
    have loaded : s.cr3 = s₀.cr3 := h.cr3
    have pd : ∀ i, s.mem K.pd0 i = if i = 0 then tableEntry (frameAddr K.pt0) else identityHuge i :=
      h.pd0
    simp only [Mm.vmmUnmapPage, wp_bind, wp_readEntry, first, second, loaded]
    change s.mem s₀.cr3 0 &&& vmmPresent ≠ 0#64 at top
    change frameOf (s.mem s₀.cr3 0) = t at step
    change s.mem t 0 &&& vmmPresent ≠ 0#64 at present
    change frameOf (s.mem t 0) = K.pd0 at target
    rw [if_neg top, wp_bind, wp_readEntry, step, if_neg present, wp_bind, wp_readEntry, target, pd]
    by_cases huge : pdIdx v = 0
    · rw [if_pos huge, if_neg (by simp [tableEntry_present, tableEntry_small]), wp_writeEntry,
        tableEntry_frame small]
      exact ⟨q, g, h.windowStore _ (by decide)⟩
    · rw [if_neg huge, if_pos (.inr (identityHuge_huge _))]
      exact ⟨q, g, h⟩

theorem unmapKernelPage (h : Hidden K s₀ g₀ s) {v : Word} (place : HeapOrWindow v) :
    wp (unmapKernelPage v) (fun _ s' => Hidden K s₀ g₀ s') (fun _ _ => True) s := by
  unfold Mm.unmapKernelPage
  rw [wp_bind, wp_get]
  cases vmmGetPhysical s.mem s.cr3 v with
  | none => exact h.vmmUnmapPage place _
  | some phys =>
    have freed : wp (freeFrame phys) (fun _ s' => ∃ q, s' = { s with pmm := q })
        (fun _ _ => True) s := by
      unfold wp freeFrame
      cases pmmFreeFrame s.pmm phys with
      | ok q => exact ⟨q, rfl⟩
      | error e => trivial
    refine wp_seq freed ?_
    rintro _ _ ⟨q, rfl⟩
    obtain ⟨q', g, unseen⟩ := h
    exact vmmUnmapPage (s := { s with pmm := q }) ⟨q', g, unseen⟩ place _

theorem kfreeLarge (h : Hidden K s₀ g₀ s) {virt : Word} {pages : Nat}
    (block : ∀ i < pages, HeapOrWindow (virt + BitVec.ofNat 64 (i * 4096))) :
    wp (kfreeLarge virt pages) (fun _ s' => Hidden K s₀ g₀ s') (fun _ _ => True) s := by
  refine wp_forM_inv (Hidden K s₀ g₀) ?_ h
  intro i member s₁ now
  exact now.unmapKernelPage (block i (List.mem_range.mp member))

end Hidden

/-! ## What the user sees -/

/-- Where a user access goes and with which flags; `none` if it is refused. -/
def userTranslation (mem : PhysMem) (root : Nat) (v : Word) : Option (Word × Word) :=
  if vmmGetFlags mem root v &&& presentUser = presentUser then
    (vmmGetPhysical mem root v).map fun phys => (phys, vmmGetFlags mem root v)
  else none

/-- No page of the window is a user page. -/
theorem Unseen.window_supervisor (h : Unseen K s₀ g₀ s g) {v : Word} (inside : InWindow v) :
    vmmGetFlags s.mem s₀.cr3 v &&& presentUser ≠ presentUser := by
  obtain ⟨t, at_t, top, step, present, small, target⟩ := h.firstLink
  have low := h.vm.frame_small (h.held K.pt0 (by simp)).1
  have supervisor : ∀ e : Word, e.getLsbD 2 = false →
      e &&& ~~~vmmPhysMask &&& presentUser ≠ presentUser := by
    intro e clear both
    rw [and_presentUser, and_not_physMask_low _ (by decide), and_not_physMask_low _ (by decide),
      clear] at both
    exact absurd both.2 (by decide)
  unfold vmmGetFlags
  simp only [inside.1, inside.2, if_neg top, step, if_neg present, small, target, h.pd0]
  by_cases first : pdIdx v = 0
  · simp only [if_pos first, tableEntry_present, tableEntry_small, tableEntry_frame low, ne_eq,
      not_true_eq_false, if_false]
    split
    · decide
    · exact supervisor _ (h.pt0 _)
  · simp only [if_neg first, identityHuge_present, identityHuge_huge, ne_eq, not_true_eq_false,
      if_false, not_false_eq_true, if_true]
    exact supervisor _ (by rw [identityHuge_low _ (by decide)]; decide)

/-- The task finds what it found, at every user address. -/
theorem Hidden.view (h : Hidden K s₀ g₀ s) (start : Unseen K s₀ g₀ s₀ g₀) {v : Word}
    (below : v < userSpaceTop) :
    userTranslation s.mem s₀.cr3 v = userTranslation s₀.mem s₀.cr3 v ∧
      userLoad s.mem s₀.cr3 v = userLoad s₀.mem s₀.cr3 v := by
  obtain ⟨q, g, h⟩ := h
  have leaf := h.leaf (pagePath v)
  rcases userPage_or_window below with page | inside
  · have flags : vmmGetFlags s.mem s₀.cr3 v = vmmGetFlags s₀.mem s₀.cr3 v := by
      rw [vmmGetFlags_user start.vm start.live page, ← leaf]
      exact vmmGetFlags_user (s := { s with pmm := q }) h.vm h.live page
    have phys : vmmGetPhysical s.mem s₀.cr3 v = vmmGetPhysical s₀.mem s₀.cr3 v := by
      rw [vmmGetPhysical_user start.vm start.live page, ← leaf]
      exact vmmGetPhysical_user (s := { s with pmm := q }) h.vm h.live page
    refine ⟨by rw [userTranslation, userTranslation, flags, phys], ?_⟩
    have loaded : userLoad s.mem s₀.cr3 v = _ := h.vm.userLoad_leaf h.live page
    rw [loaded, start.vm.userLoad_leaf start.live page, leaf, leafPage, leafPage]
    split
    · rfl
    · rename_i filled
      have same : s.mem (frameOf (g₀.leaf (.user s₀.cr3, pagePath v))) = _ := h.data _ filled
      rw [← same]
  · have now : vmmGetFlags s.mem s₀.cr3 v &&& presentUser ≠ presentUser :=
      h.window_supervisor inside
    have before := start.window_supervisor inside
    rw [userTranslation, userTranslation, userLoad, userLoad, if_neg now, if_neg now,
      if_neg before, if_neg before]
    exact ⟨rfl, rfl⟩

end LithiumKernel.Mm
