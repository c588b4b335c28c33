import LithiumKernel.Mm.AddressSpace

/-!
# Destroying an address space (kernel/mm/vmm.c, `vmm_destroy_user_address_space`)

The four nested loops empty one table after the other, from the leaves up. `Shrink`
is what a part of the work below one path may touch; `Destroys` is the contract of
one level, and each level's contract follows from the one below it.
-/
namespace LithiumKernel.Mm

open LithiumKernel.Lib LithiumKernel.Lib.Forest

variable {k : Nat} {s s' s'' : MemState} {g g' g'' : SpaceGhost} {o : Owner} {p : List Idx}

/-- Only tables of `o` at or below path `p` are written, only those strictly below
disappear, and only leaves of `o` change. -/
structure Shrink (o : Owner) (p : List Idx) (s : MemState) (g : SpaceGhost) (s' : MemState)
    (g' : SpaceGhost) : Prop where
  evolves : s.pmm.Evolves s'.pmm
  cr3 : s'.cr3 = s.cr3
  heap : s'.kheapNext = s.kheapNext
  ext : g'.ext = g.ext
  leaf : ∀ {x}, x.1 ≠ o → g'.leaf x = g.leaf x
  tables : ∀ {t x}, g.role t = some x → ¬ (x.1 = o ∧ p <:+ x.2 ∧ p ≠ x.2) → g'.role t = some x
  only : ∀ {t x}, g'.role t = some x → g.role t = some x
  mem : ∀ {t}, (∀ x, g.role t = some x → ¬ (x.1 = o ∧ p <:+ x.2)) → s'.mem t = s.mem t
  foreign : ∀ {t o' p' i}, g'.role t = some (o', p') → ¬ ownsSlot o' p' i →
    s'.mem t i = s.mem t i

theorem Shrink.refl (ok : s.pmm.Ok) : Shrink o p s g s g :=
  ⟨.refl ok, rfl, rfl, rfl, fun _ => rfl, fun role _ => role, fun role => role, fun _ => rfl,
    fun _ _ => rfl⟩

theorem Shrink.trans (first : Shrink o p s g s' g') (second : Shrink o p s' g' s'' g'') :
    Shrink o p s g s'' g'' where
  evolves := first.evolves.trans second.evolves
  cr3 := second.cr3.trans first.cr3
  heap := second.heap.trans first.heap
  ext := second.ext.trans first.ext
  leaf := fun other => (second.leaf other).trans (first.leaf other)
  tables := fun role away => second.tables (first.tables role away) away
  only := fun role => first.only (second.only role)
  mem := by
    intro t away
    exact (second.mem (fun x role => away x (first.only role))).trans (first.mem away)
  foreign := by
    intro t o' p' i role foreign
    exact (second.foreign role foreign).trans (first.foreign (second.only role) foreign)

/-- Work below a slot is work below the table. -/
theorem Shrink.weaken {i : Idx} (below : Shrink o (i :: p) s g s' g') : Shrink o p s g s' g' where
  evolves := below.evolves
  cr3 := below.cr3
  heap := below.heap
  ext := below.ext
  leaf := below.leaf
  tables := by
    intro t x role away
    apply below.tables role
    rintro ⟨owner, suffix, _⟩
    have up : p <:+ x.2 := (List.suffix_cons i p).trans suffix
    refine away ⟨owner, up, ?_⟩
    rintro rfl
    have le := suffix.length_le
    simp at le
  only := below.only
  mem := by
    intro t away
    apply below.mem
    rintro x role ⟨owner, suffix⟩
    exact away x role ⟨owner, (List.suffix_cons i p).trans suffix⟩
  foreign := below.foreign

/-- A slot of table `t` at `(o, p)` has been dealt with. -/
def SlotDone (k : Nat) (t : Nat) (o : Owner) (p : List Idx) (i : Idx) (s : MemState)
    (g : SpaceGhost) (s' : MemState) : Prop :=
  ∃ g', Vm k s' g' ∧ Shrink o p s g s' g' ∧ g'.role t = some (o, p) ∧
    (ownsSlot o p i → s'.mem t i = 0#64) ∧ ∀ j, j ≠ i → s'.mem t j = s.mem t j

/-- The contract of a level: table `t` ends up blank and nothing else is touched. -/
def Destroys (k : Nat) (o : Owner) (p : List Idx) (xs : List Idx) (f : Nat → MmM Unit) : Prop :=
  ∀ s g t, Vm k s g → g.role t = some (o, p) →
    wp (f t) (fun _ s' => ∃ g', Vm k s' g' ∧ Shrink o p s g s' g' ∧ g'.role t = some (o, p) ∧
      ∀ i ∈ xs, ownsSlot o p i → s'.mem t i = 0#64) Saturated s

/-- A loop over the slots of a table, from what it does to one slot. -/
theorem destroys_of_slots {xs : List Idx} {body : Nat → Idx → MmM Unit}
    (slot : ∀ s g t i, i ∈ xs → Vm k s g → g.role t = some (o, p) →
      wp (body t i) (fun _ s' => SlotDone k t o p i s g s') Saturated s) :
    Destroys k o p xs (fun t => forM xs (body t)) := by
  intro s g t h at_t
  refine wp_forM (fun done s' => ∃ g', Vm k s' g' ∧ Shrink o p s g s' g' ∧
    g'.role t = some (o, p) ∧ ∀ i ∈ done, ownsSlot o p i → s'.mem t i = 0#64) xs ?_ ?_
  · rintro done i rest s₁ split ⟨g₁, h₁, upto, at_t₁, cleared⟩
    have inLoop : i ∈ xs := by simp [split]
    refine wp_imp (slot s₁ g₁ t i inLoop h₁ at_t₁) ?_
    rintro _ s₂ ⟨g₂, h₂, step, at_t₂, now, others⟩
    refine ⟨g₂, h₂, upto.trans step, at_t₂, ?_⟩
    intro j member own
    by_cases here : j = i
    · subst here
      exact now own
    · have before : j ∈ done := by simpa [here] using member
      rw [others j here]
      exact cleared j before own
  · exact ⟨g, h, .refl h.ok, at_t, fun i member => absurd member (List.not_mem_nil)⟩

/-! ## Leaves -/

theorem destroyPte_spec {r : Nat} {i j l : Idx} (s : MemState) (g : SpaceGhost) (t : Nat)
    (x : Idx) (_ : x ∈ allSlots) (h : Vm k s g) (at_t : g.role t = some (.user r, [l, j, i])) :
    wp (destroyPte t x) (fun _ s' => SlotDone k t (.user r) [l, j, i] x s g s') Saturated s := by
  rw [destroyPte, wp_bind, wp_readEntry]
  apply wp_ite
  · intro other
    refine ⟨g, h, .refl h.ok, at_t, fun own => ?_, fun _ _ => rfl⟩
    by_contra filled
    rw [← h.wf.leaf_mem at_t rfl own] at filled other
    exact other (h.wf.leaf filled).1
  · intro mapped
    have filled : s.mem t x ≠ 0#64 := by
      intro zero
      rw [zero] at mapped
      exact mapped (by decide)
    have leaf : g.leaf (.user r, [x, l, j, i]) = s.mem t x := h.wf.leaf_mem at_t rfl trivial
    obtain ⟨_, lt, _, pos⟩ := h.leaf_facts (x := (.user r, [x, l, j, i])) (by rwa [leaf])
    rw [leaf] at lt pos
    rw [and_physMask, wp_bind]
    apply freeFrame_spec h.ok lt pos
    intro q evolves counts
    rw [wp_writeEntry]
    -- clearing first and freeing afterwards leads to the same state
    have cleared := h.clearLeaf at_t rfl trivial filled
    have dropped := cleared.dropHeld (f := frameOf (s.mem t x)) lt
      (by simp) evolves counts
    refine ⟨⟨g.role, Function.update g.leaf (.user r, [x, l, j, i]) 0#64, g.ext⟩, ?_, ?_, at_t,
      fun _ => store_same .., fun j ne => store_of_ne _ _ (fun both => ne both.2)⟩
    · simpa using dropped
    · refine ⟨evolves, rfl, rfl, rfl, ?_, fun role _ => role, fun role => role, ?_, ?_⟩
      · intro y other
        have ne : y ≠ (.user r, [x, l, j, i]) := by
          rintro rfl
          exact other rfl
        exact Function.update_of_ne ne _ _
      · intro t' away
        have ne : t' ≠ t := by
          rintro rfl
          exact away _ at_t ⟨rfl, List.suffix_refl _⟩
        exact store_frame _ _ _ ne
      · intro t' o' p' i' role foreign
        apply store_of_ne
        rintro ⟨rfl, rfl⟩
        rw [at_t] at role
        obtain ⟨rfl, rfl⟩ := Prod.mk.inj (Option.some.inj role)
        exact foreign trivial

theorem destroyPt_spec (r : Nat) (i j l : Idx) :
    Destroys k (.user r) [l, j, i] allSlots destroyPt :=
  destroys_of_slots destroyPte_spec

/-! ## Inner tables -/

/-- The table behind a slot is destroyed, given back and cut off. -/
theorem destroyBelow_spec {r : Nat} {xs : List Idx} {below : Nat → MmM Unit} (i : Idx)
    (inner : p.length < 3) (own : ownsSlot (.user r) p i)
    (every : ∀ j, ownsSlot (.user r) (i :: p) j → j ∈ xs)
    (level : Destroys k (.user r) (i :: p) xs below) (h : Vm k s g) {t : Nat}
    (at_t : g.role t = some (.user r, p)) (filled : s.mem t i ≠ 0#64) :
    wp (below (frameOf (s.mem t i)) >>= fun _ => freeTable t i)
      (fun _ s' => SlotDone k t (.user r) p i s g s') Saturated s := by
  obtain ⟨_, at_child⟩ := h.wf.link at_t inner own filled
  refine wp_seq (level s g _ h at_child) ?_
  rintro _ s₁ ⟨g₁, h₁, shrunk, at_child₁, blank⟩
  have longer : ¬ (i :: p) <:+ p := by
    intro suffix
    have le := suffix.length_le
    simp at le
  have at_t₁ : g₁.role t = some (.user r, p) :=
    shrunk.tables at_t (fun strict => longer strict.2.1)
  have same : s₁.mem t = s.mem t := by
    apply shrunk.mem
    rintro x role ⟨_, suffix⟩
    rw [at_t] at role
    obtain rfl := Option.some.inj role
    exact longer suffix
  have filled₁ : s₁.mem t i ≠ 0#64 := by rwa [same]
  have target : (spaceLayout k).target (s₁.mem t i) = frameOf (s.mem t i) := by
    rw [same]
    rfl
  have ne : t ≠ frameOf (s.mem t i) := by
    intro eq
    rw [← eq, at_t₁] at at_child₁
    exact List.ne_cons_self (Prod.mk.inj (Option.some.inj at_child₁)).2
  have unlinked := h₁.wf.unlinkTable at_t₁ inner own filled₁ target
    (fun j own' => blank j (every j own') own')
  have one := h₁.wf.rc_table at_child₁
  rw [freeTable, wp_bind, wp_readEntry, and_physMask, congrFun same i, wp_bind]
  apply freeFrame_spec h₁.ok (h₁.wf.table_lt at_child₁) (by omega)
  intro q evolves counts
  rw [wp_writeEntry]
  have cut : Vm k { s₁ with mem := store s₁.mem t i 0#64 } _ := ⟨h₁.ok, unlinked⟩
  have dropped := cut.dropHeld (h₁.wf.table_lt at_child₁) (by simp) evolves counts
  refine ⟨⟨Function.update g₁.role (frameOf (s.mem t i)) none, g₁.leaf, g₁.ext⟩, ?_,
    shrunk.weaken.trans ?_, (Function.update_of_ne ne _ _).trans at_t₁, fun _ => store_same .., ?_⟩
  · have noExt := h₁.wf.table_ext at_child₁
    have restored : Function.update g₁.ext (frameOf (s.mem t i)) 0 = g₁.ext := by
      rw [← noExt, Function.update_eq_self]
    simpa [restored] using dropped
  · refine ⟨evolves, rfl, rfl, rfl, fun _ => rfl, ?_, ?_, ?_, ?_⟩
    · intro t' x role away
      have ne' : t' ≠ frameOf (s.mem t i) := by
        rintro rfl
        rw [at_child₁] at role
        obtain rfl := Option.some.inj role
        exact away ⟨rfl, List.suffix_cons i p, List.ne_cons_self⟩
      exact (Function.update_of_ne ne' _ _).trans role
    · intro t' x role
      by_cases here : t' = frameOf (s.mem t i)
      · subst here
        simp at role
      · simpa [Function.update_of_ne here] using role
    · intro t' away
      have ne' : t' ≠ t := by
        rintro rfl
        exact away _ at_t₁ ⟨rfl, List.suffix_refl _⟩
      exact store_frame _ _ _ ne'
    · intro t' o' p' i' role foreign
      apply store_of_ne
      rintro ⟨rfl, rfl⟩
      have role' := (Function.update_of_ne ne _ _).symm.trans role
      rw [at_t₁] at role'
      obtain ⟨rfl, rfl⟩ := Prod.mk.inj (Option.some.inj role')
      exact foreign own
  · intro j ne'
    exact (store_of_ne _ _ (fun both => ne' both.2)).trans (congrFun same j)

/-- A slot that holds no link is left alone. -/
theorem slotDone_vacant (h : Vm k s g) {t : Nat} {i : Idx} (at_t : g.role t = some (o, p))
    (vacant : ownsSlot o p i → s.mem t i = 0#64) : SlotDone k t o p i s g s :=
  ⟨g, h, .refl h.ok, at_t, vacant, fun _ _ => rfl⟩

theorem destroyEntry_spec {r : Nat} {below : Nat → MmM Unit} (i : Idx) (inner : p.length < 3)
    (own : ownsSlot (.user r) p i)
    (level : Destroys k (.user r) (i :: p) allSlots below) (h : Vm k s g) {t : Nat}
    (at_t : g.role t = some (.user r, p)) :
    wp (destroyEntry below t i) (fun _ s' => SlotDone k t (.user r) p i s g s') Saturated s := by
  rw [destroyEntry, wp_bind, wp_readEntry]
  apply wp_ite
  · intro absent
    exact slotDone_vacant h at_t (fun _ => (h.link_present at_t inner own).mp absent)
  intro present
  have filled : s.mem t i ≠ 0#64 := fun zero => present ((h.link_present at_t inner own).mpr zero)
  rw [if_neg (not_not.mpr (h.wf.link at_t inner own filled).1.2)]
  exact destroyBelow_spec i inner own (fun j _ => mem_allSlots j) level h at_t filled

theorem destroyPd_spec (r : Nat) (i j : Idx) :
    Destroys k (.user r) [j, i] allSlots destroyPd :=
  destroys_of_slots fun _ _ _ l _ h at_t =>
    destroyEntry_spec (p := [j, i]) (r := r) l (by simp) trivial (destroyPt_spec r i j l) h at_t

theorem destroyPdpt_spec (r : Nat) (i : Idx) :
    Destroys k (.user r) [i] allSlots (destroyPdpt i) := by
  apply destroys_of_slots
  intro s g t j _ h at_t
  unfold destroyPdpte
  apply wp_ite
  · intro window
    exact slotDone_vacant h at_t (fun own => absurd window own)
  · intro own
    exact destroyEntry_spec (p := [i]) (r := r) j (by simp) own (destroyPd_spec r i j) h at_t

theorem destroyPml4_spec (r : Nat) :
    Destroys k (.user r) [] lowerHalf (fun t => forM lowerHalf (destroyPml4e t)) := by
  apply destroys_of_slots
  intro s g t i inLoop h at_t
  have own : ownsSlot (.user r) [] i := (mem_lowerHalf i).mp inLoop
  rw [destroyPml4e, wp_bind, wp_readEntry]
  apply wp_ite
  · intro absent
    exact slotDone_vacant h at_t (fun _ => (h.link_present at_t (by simp) own).mp absent)
  · intro present
    exact destroyBelow_spec (r := r) i (by simp) own (fun j _ => mem_allSlots j)
      (destroyPdpt_spec r i) h at_t
      (fun zero => present ((h.link_present at_t (by simp) own).mpr zero))

/-! ## The whole space -/

/-- The space `r` is gone: its tables and leaves with it, everything else as before. -/
structure Destroyed (k r : Nat) (s : MemState) (g : SpaceGhost) (s' : MemState)
    (g' : SpaceGhost) : Prop where
  vm : Vm k s' g'
  evolves : s.pmm.Evolves s'.pmm
  cr3 : s'.cr3 = s.cr3
  heap : s'.kheapNext = s.kheapNext
  ext : g'.ext = g.ext
  leaf : ∀ x, g'.leaf x = if x.1 = .user r then 0#64 else g.leaf x
  roles : ∀ t x, g'.role t = some x ↔ g.role t = some x ∧ x.1 ≠ .user r
  mem : ∀ {t}, (∀ x, g.role t = some x → x.1 ≠ .user r) → s'.mem t = s.mem t

theorem vmmDestroyUserAddressSpace_spec (h : Vm k s g) {r : Nat}
    (live : (spaceLayout k).Live g (.user r)) :
    wp (vmmDestroyUserAddressSpace r) (fun _ s' => ∃ g', Destroyed k r s g s' g') Saturated s := by
  unfold vmmDestroyUserAddressSpace
  refine wp_seq (destroyPml4_spec r s g r h live) ?_
  rintro _ s₁ ⟨g₁, h₁, shrunk, at_r, cleared⟩
  have blank : ∀ i, ownsSlot (.user r) [] i → s₁.mem r i = 0#64 := fun i own =>
    cleared i ((mem_lowerHalf i).mpr own) own
  -- with a blank root nothing can hang below it any more
  have alone : ∀ {t q}, g₁.role t = some (.user r, q) → q = [] := by
    intro t q role
    by_contra nonempty
    obtain ⟨q', i, rfl⟩ := (List.eq_nil_or_concat' q).resolve_left nonempty
    obtain ⟨t', at_t', own, filled⟩ := h₁.wf.ancestor (i := i) (p := [])
      (by simp [spaceLayout]) role (List.suffix_append q' [i])
    rw [h₁.wf.unique at_t' at_r] at filled
    exact filled (blank i own)
  have gone := h₁.wf.dropBase at_r blank
  have lt := h₁.wf.table_lt at_r
  have one := h₁.wf.rc_table at_r
  apply freeFrame_spec h₁.ok lt (by omega)
  intro q evolves counts
  have cut : Vm k s₁ _ := ⟨h₁.ok, gone⟩
  have dropped := cut.dropHeld lt (by simp) evolves counts
  have noExt := h₁.wf.table_ext at_r
  have restored : Function.update g₁.ext r 0 = g₁.ext := by
    rw [← noExt, Function.update_eq_self]
  have vm : Vm k { s₁ with pmm := q } ⟨Function.update g₁.role r none, g₁.leaf, g₁.ext⟩ := by
    simpa [restored] using dropped
  have notLive : ¬ (spaceLayout k).Live
      ⟨Function.update g₁.role r none, g₁.leaf, g₁.ext⟩ (.user r) := by
    simp [Layout.Live, spaceLayout]
  refine ⟨_, vm, shrunk.evolves.trans evolves, shrunk.cr3, shrunk.heap, shrunk.ext, ?_, ?_, ?_⟩
  · rintro ⟨o, q⟩
    by_cases mine : o = .user r
    · subst mine
      rw [if_pos rfl]
      by_contra filled
      exact notLive (vm.wf.live_of_leaf filled)
    · rw [if_neg mine]
      exact shrunk.leaf mine
  · rintro t ⟨o, q⟩
    constructor
    · intro role
      have ne : t ≠ r := by
        rintro rfl
        simp at role
      have role₁ := (Function.update_of_ne ne _ _).symm.trans role
      refine ⟨shrunk.only role₁, ?_⟩
      rintro rfl
      obtain rfl := alone role₁
      exact ne (h₁.wf.unique role₁ at_r)
    · rintro ⟨role, other⟩
      have role₁ := shrunk.tables role (fun strict => other strict.1)
      have ne : t ≠ r := by
        rintro rfl
        rw [at_r] at role₁
        exact other (Prod.mk.inj (Option.some.inj role₁)).1.symm
      exact (Function.update_of_ne ne _ _).trans role₁
  · intro t away
    exact shrunk.mem (fun x role strict => away x role strict.1)

end LithiumKernel.Mm
