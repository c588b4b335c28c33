import LithiumKernel.Mm.Walk

/-!
# Copy-on-write faults (kernel/mm/vmm.c, `vmm_handle_page_fault`)

A write to a copy-on-write page is resolved in place when the frame is not shared any
more and by a private copy otherwise. Everything else is refused, and a refusal changes
nothing.
-/
namespace LithiumKernel.Mm

open LithiumKernel.Lib LithiumKernel.Lib.Forest

variable {k : Nat} {s s' : MemState} {g g' : SpaceGhost}

/-- The leaf at `x` has become writable. It names `f`, which holds what the old frame
held: the old frame itself if nobody else used it, a frame fresh from the pool otherwise. -/
structure Resolved (k : Nat) (x : Owner × List Idx) (f : Nat) (s : MemState) (g : SpaceGhost)
    (s' : MemState) (g' : SpaceGhost) : Prop extends Keep s g s' g' where
  vm : Vm k s' g'
  ext : g'.ext = g.ext
  live : ∀ o, (spaceLayout k).Live g' o ↔ (spaceLayout k).Live g o
  cow : (g.leaf x).getLsbD 9 = true
  leaf : g'.leaf = Function.update g.leaf x (frameAddr f ||| writableFlags (g.leaf x))
  contents : s'.mem f = s.mem (frameOf (g.leaf x))
  sole : f = frameOf (g.leaf x) ∧ s.pmm.refcount f = 1 ∨
    f < s.pmm.totalFrames ∧ s.pmm.refcount f = 0 ∧ 1 < s.pmm.refcount (frameOf (g.leaf x))

theorem writable_leafOk {r f : Nat} {e : Word} (ok : (spaceLayout k).leafOk (.user r) e) :
    (spaceLayout k).leafOk (.user r) (frameAddr f ||| writableFlags e) := by
  rw [leafOk_user_iff] at ok ⊢
  rw [writable_low f e (by decide), writable_low f e (by decide)]
  exact ok

/-- Nobody else uses the frame: the leaf is made writable in place. -/
theorem Vm.resolveInPlace (h : Vm k s g) {t r : Nat} {p : List Idx} {i : Idx}
    (at_t : g.role t = some (.user r, p)) (full : p.length = 3) (own : ownsSlot (.user r) p i)
    (cow : s.mem t i &&& presentUserCow = presentUserCow)
    (alone : s.pmm.refcount (frameOf (s.mem t i)) ≤ 1) :
    ∃ g', Resolved k (.user r, i :: p) (frameOf (s.mem t i)) s g
      { s with
        mem := store s.mem t i (frameAddr (frameOf (s.mem t i)) ||| writableFlags (s.mem t i)) }
      g' ∧ g'.role = g.role := by
  obtain ⟨present, user, bit⟩ := (and_presentUserCow _).mp cow
  have filled : s.mem t i ≠ 0#64 := ne_zero_of_bit present
  have leaf := h.wf.leaf_mem at_t full own
  obtain ⟨ok, lt, data, pos⟩ := h.leaf_facts (x := (.user r, i :: p)) (by rwa [leaf])
  rw [leaf] at ok lt data pos
  have okNew : (spaceLayout k).leafOk (.user r) (frameAddr (frameOf (s.mem t i)) |||
      writableFlags (s.mem t i)) := writable_leafOk ok
  have target := writable_frame (h.frame_small lt) (s.mem t i)
  obtain ⟨grown, vm⟩ := h.relabelLeaf at_t full own filled okNew
    (ne_zero_of_bit (leafOk_user_iff.mp okNew).1) target
  have ne : frameOf (s.mem t i) ≠ t := by
    intro eq
    rw [eq, at_t] at data
    cases data
  refine ⟨_, ⟨grown.keep, vm, rfl, fun _ => Iff.rfl, by rwa [leaf], by rw [leaf], ?_, ?_⟩, rfl⟩
  · rw [leaf]
    exact store_frame _ _ _ ne
  · rw [leaf]
    exact .inl ⟨rfl, by omega⟩

/-- The frame is shared: the leaf gets a private copy. -/
theorem Vm.resolveCopy (h : Vm k s g) {t r f : Nat} {p : List Idx} {i : Idx} {q q' : Pmm}
    (at_t : g.role t = some (.user r, p)) (full : p.length = 3) (own : ownsSlot (.user r) p i)
    (cow : s.mem t i &&& presentUserCow = presentUserCow)
    (shared : 1 < s.pmm.refcount (frameOf (s.mem t i)))
    (lt : f < s.pmm.totalFrames) (zero : s.pmm.refcount f = 0) (evolves : s.pmm.Evolves q)
    (counts : q.refcount = Function.update s.pmm.refcount f 1) (evolves' : q.Evolves q')
    (counts' : q'.refcount = Function.update q.refcount (frameOf (s.mem t i))
      (q.refcount (frameOf (s.mem t i)) - 1)) :
    ∃ g', Resolved k (.user r, i :: p) f s g
      { s with
        pmm := q'
        mem := store (Function.update s.mem f (s.mem (frameOf (s.mem t i)))) t i
          (frameAddr f ||| writableFlags (s.mem t i)) } g' ∧ g'.role = g.role := by
  obtain ⟨present, user, bit⟩ := (and_presentUserCow _).mp cow
  have filled : s.mem t i ≠ 0#64 := ne_zero_of_bit present
  have leaf := h.wf.leaf_mem at_t full own
  obtain ⟨ok, ltOld, data, _⟩ := h.leaf_facts (x := (.user r, i :: p)) (by rwa [leaf])
  rw [leaf] at ok ltOld data
  obtain ⟨free, _, noExt⟩ := h.wf.unused lt zero
  have ne : frameOf (s.mem t i) ≠ f := by
    intro eq
    rw [eq] at shared
    omega
  have tableNe : t ≠ f := by
    rintro rfl
    rw [free] at at_t
    cases at_t
  have acquired : Vm k { s with pmm := q }
      ⟨g.role, g.leaf, Function.update g.ext f (g.ext f + 1)⟩ := by
    refine ⟨evolves.ok, ?_⟩
    change (spaceLayout k).WF q.totalFrames q.refcount s.mem _
    rw [evolves.total, counts]
    exact h.wf.acquire lt zero
  have copied := acquired.blank free (s.mem (frameOf (s.mem t i)))
  have target := writable_frame (h.frame_small lt) (s.mem t i)
  have okNew : (spaceLayout k).leafOk (.user r) (frameAddr f ||| writableFlags (s.mem t i)) :=
    writable_leafOk ok
  have entry : Function.update s.mem f (s.mem (frameOf (s.mem t i))) t i = s.mem t i := by
    rw [Function.update_of_ne tableNe]
  obtain ⟨ext₁, mapped⟩ := copied.mapLeaf (w := frameAddr f ||| writableFlags (s.mem t i))
    at_t full own okNew (by rw [target]; change f < q.totalFrames; rwa [evolves.total])
    (by rw [target]; simp) (ne_zero_of_bit (leafOk_user_iff.mp okNew).1)
  obtain ⟨_, balance⟩ := mapped.effect
  -- the old leaf's reference is now held outside and goes back to the pool
  have ext₁Eq : ext₁ = Function.update g.ext (frameOf (s.mem t i))
      (g.ext (frameOf (s.mem t i)) + 1) := by
    funext f'
    have even := balance f'
    rw [target] at even
    simp only [leaf, ne_eq, filled, not_false_eq_true, true_and] at even
    by_cases isNew : f' = f
    · subst isNew
      rw [Function.update_of_ne (Ne.symm ne)]
      simpa [ne] using even
    · by_cases isOld : f' = frameOf (s.mem t i)
      · subst isOld
        simpa [isNew, Ne.symm isNew] using even
      · rw [Function.update_of_ne isOld]
        simpa [isNew, isOld, Ne.symm isNew, Ne.symm isOld] using even
  have dropped := mapped.vm.dropHeld (f := frameOf (s.mem t i)) (q := q')
    (by change _ < q.totalFrames; rwa [evolves.total]) (by rw [ext₁Eq]; simp) evolves' counts'
  refine ⟨⟨g.role, Function.update g.leaf (.user r, i :: p)
    (frameAddr f ||| writableFlags (s.mem t i)), g.ext⟩,
    ⟨⟨evolves.trans evolves', rfl, rfl, fun role => role, ?_, ?_⟩, ?_, rfl, fun _ => Iff.rfl,
    by rwa [leaf], by rw [leaf], ?_, ?_⟩, rfl⟩
  · intro f' free' used
    have notNew : f' ≠ f := by
      rintro rfl
      omega
    have notTable : f' ≠ t := by
      rintro rfl
      rw [free'] at at_t
      cases at_t
    exact ⟨free', (store_frame _ _ _ notTable).trans (Function.update_of_ne notNew _ _)⟩
  · intro t' o p' i' role foreign
    have off : ¬ (t' = t ∧ i' = i) := by
      rintro ⟨rfl, rfl⟩
      rw [at_t] at role
      obtain ⟨rfl, rfl⟩ := Prod.mk.inj (Option.some.inj role)
      exact foreign own
    have notNew : t' ≠ f := by
      rintro rfl
      rw [free] at role
      cases role
    exact (store_of_ne _ _ off).trans (congrFun (Function.update_of_ne notNew _ _) i')
  · rw [ext₁Eq] at dropped
    simpa using dropped
  · rw [leaf]
    exact (store_frame _ _ _ (Ne.symm tableNe)).trans (Function.update_self ..)
  · rw [leaf]
    exact .inr ⟨lt, zero, shared⟩

/-- Why a fault is refused. -/
def Refused (s : MemState) (leaf addr err : Word) : Prop :=
  (err &&& 0x3#64 ≠ 0x3#64 ∨ userSpaceTop ≤ addr) ∨
    leaf &&& presentUserCow ≠ presentUserCow ∨ (pmmAllocFrame s.pmm).1 = none

/-- A broken sharing, with the frames written and what it costs: the table of the leaf and the
frame of the page, and for a shared frame one frame of the pool and one reference. -/
structure Broken (k : Nat) (x : Owner × List Idx) (f : Nat) (s : MemState) (g : SpaceGhost)
    (s' : MemState) (g' : SpaceGhost) : Prop extends Resolved k x f s g s' g' where
  role : g'.role = g.role
  frames : ∀ f', s'.mem f' = s.mem f' ∨ f' = f ∨ g.role f' = some (x.1, x.2.tail)
  pool : s.pmm.refcount (frameOf (g.leaf x)) ≤ 1 ∧ s'.pmm = s.pmm ∨
    1 < s.pmm.refcount (frameOf (g.leaf x)) ∧ s'.pmm.freeFrames + 1 = s.pmm.freeFrames ∧
      s'.pmm.refcount = Function.update (Function.update s.pmm.refcount f 1)
        (frameOf (g.leaf x)) (s.pmm.refcount (frameOf (g.leaf x)) - 1)

theorem dropFrame_shared {p : Pmm} {f : Nat} (shared : 1 < p.refcount f) :
    (p.dropFrame f).freeFrames = p.freeFrames := by
  have more : 0 < p.refcount f - 1 := by omega
  simp [Pmm.dropFrame, more]

/-- The fault is handled, or the page is not copy-on-write, or it is shared and there is no
frame for a copy. -/
theorem vmmHandlePageFault_broken {halt : Kassert → MemState → Prop} (h : Vm k s g)
    (live : (spaceLayout k).Live g (.user s.cr3)) {addr err : Word} (page : UserPage addr) :
    wp (vmmHandlePageFault addr err) (fun done s' =>
      if done then ∃ f g', Broken k (.user s.cr3, pagePath addr) f s g s' g'
      else s' = s ∧ ((err &&& 0x3#64 ≠ 0x3#64 ∨ userSpaceTop ≤ addr) ∨
        g.leaf (.user s.cr3, pagePath addr) &&& presentUserCow ≠ presentUserCow ∨
        1 < s.pmm.refcount (frameOf (g.leaf (.user s.cr3, pagePath addr))) ∧
          (pmmAllocFrame s.pmm).1 = none)) halt s := by
  unfold vmmHandlePageFault
  apply wp_ite
  · intro refused
    exact ⟨rfl, .inl refused⟩
  intro _
  rw [wp_bind, wp_get]
  dsimp only
  rcases vmmGetPte_user h live (userPage_alignDown.mpr page) with ⟨none, empty⟩ |
    ⟨t, found, at_t, leaf⟩
  · rw [pagePath_alignDown] at empty
    rw [none]
    exact ⟨rfl, .inr (.inl (by rw [empty]; decide))⟩
  rw [pagePath_alignDown] at leaf
  rw [found]
  dsimp only
  rw [wp_bind, wp_readEntry]
  apply wp_ite
  · intro other
    exact ⟨rfl, .inr (.inl (by rwa [leaf]))⟩
  intro cow
  have cow' := not_not.mp cow
  have filled : g.leaf (.user s.cr3, pagePath addr) ≠ 0#64 := by
    rw [leaf]
    exact ne_zero_of_bit ((and_presentUserCow _).mp cow').1
  obtain ⟨_, lt, _, pos⟩ := h.leaf_facts filled
  rw [leaf] at lt pos
  have path : ptIdx (alignDown addr pageSize) :: [pdIdx (alignDown addr pageSize),
      pdptIdx (alignDown addr pageSize), pml4Idx (alignDown addr pageSize)] = pagePath addr :=
    pagePath_alignDown addr
  have table : g.role t = some (.user s.cr3, (pagePath addr).tail) := by
    rw [← path]
    exact at_t
  rw [and_physMask, wp_bind]
  apply frameRefcount_spec h.ok lt
  apply wp_ite
  · intro alone
    obtain ⟨g', resolved, role⟩ := h.resolveInPlace at_t rfl trivial cow' alone
    rw [path] at resolved
    refine ⟨_, g', resolved, role, fun f' => ?_, .inl ⟨by rwa [leaf], rfl⟩⟩
    by_cases isTable : f' = t
    · exact .inr (.inr (isTable ▸ table))
    · exact .inl (store_frame _ _ _ isTable)
  · intro shared
    rw [wp_bind, wp_allocFrame]
    rcases pmmAllocFrame_cases s.pmm with ⟨f, run, ltNew, free⟩ | run
    · rw [run]
      have zero := h.ok.free_zero f ltNew free
      have evolves : s.pmm.Evolves (s.pmm.takeFrame f) :=
        ⟨Pmm.takeFrame_ok h.ok ltNew free, rfl, Pmm.takeFrame_hole free⟩
      simp only [frameOf_frameAddr (h.frame_small ltNew), frameOf_frameAddr (frameOf_lt _), wp_bind,
        wp_copyFrame, wp_writeEntry]
      generalize frame : frameOf (s.mem t (ptIdx (alignDown addr pageSize))) = old at lt pos shared ⊢
      have ne : old ≠ f := by
        rintro rfl
        omega
      have count : (s.pmm.takeFrame f).refcount old = s.pmm.refcount old :=
        Function.update_of_ne ne _ _
      have used := Pmm.used_of_refcount evolves.ok lt (by rwa [count])
      have back := pmmFreeFrame_run evolves.ok lt (by rwa [count])
      have evolves' : (s.pmm.takeFrame f).Evolves ((s.pmm.takeFrame f).dropFrame old) :=
        ⟨Pmm.dropFrame_ok evolves.ok lt used, Pmm.dropFrame_total .., Pmm.dropFrame_hole used
          (by rwa [count])⟩
      simp only [wp, freeFrame, back]
      subst frame
      obtain ⟨g', resolved, role⟩ := h.resolveCopy at_t rfl trivial cow' (not_le.mp shared) ltNew zero
        evolves rfl evolves' (Pmm.dropFrame_refcount ..)
      rw [path] at resolved
      refine ⟨f, g', resolved, role, fun f' => ?_, .inr ⟨by rw [leaf]; exact not_le.mp shared, ?_, ?_⟩⟩
      · by_cases isTable : f' = t
        · exact .inr (.inr (isTable ▸ table))
        · by_cases isNew : f' = f
          · exact .inr (.inl isNew)
          · exact .inl ((store_frame _ _ _ isTable).trans (Function.update_of_ne isNew _ _))
      · change ((s.pmm.takeFrame f).dropFrame _).freeFrames + 1 = _
        rw [dropFrame_shared (by rw [count]; exact not_le.mp shared)]
        exact takeFrame_left h.ok ltNew free
      · change ((s.pmm.takeFrame f).dropFrame _).refcount = _
        rw [Pmm.dropFrame_refcount, count, leaf]
        rfl
    · rw [run]
      exact ⟨rfl, .inr (.inr ⟨by rw [leaf]; omega, rfl⟩)⟩

theorem vmmHandlePageFault_spec (h : Vm k s g) (live : (spaceLayout k).Live g (.user s.cr3))
    {addr err : Word} (page : UserPage addr) :
    wp (vmmHandlePageFault addr err) (fun done s' =>
      if done then ∃ f g', Resolved k (.user s.cr3, pagePath addr) f s g s' g'
      else s' = s ∧ Refused s (g.leaf (.user s.cr3, pagePath addr)) addr err) Saturated s := by
  refine wp_imp (vmmHandlePageFault_broken h live page) ?_
  rintro (_ | _) s' outcome
  · obtain ⟨same, cause⟩ := outcome
    exact ⟨same, cause.imp_right (Or.imp_right And.right)⟩
  · obtain ⟨f, g', broken⟩ := outcome
    exact ⟨f, g', broken.toResolved⟩

/-- A copy-on-write page that nobody else uses needs no frame. -/
theorem vmmHandlePageFault_sole {halt : Kassert → MemState → Prop} (h : Vm k s g)
    (live : (spaceLayout k).Live g (.user s.cr3)) {addr err : Word} (page : UserPage addr)
    (fault : err &&& 0x3#64 = 0x3#64) (below : addr < userSpaceTop)
    (cow : g.leaf (.user s.cr3, pagePath addr) &&& presentUserCow = presentUserCow)
    (alone : s.pmm.refcount (frameOf (g.leaf (.user s.cr3, pagePath addr))) ≤ 1) :
    wp (vmmHandlePageFault addr err) (fun done s' => done = true ∧ s'.pmm = s.pmm) halt s := by
  have taken : ¬ (err &&& 0x3#64 ≠ 0x3#64 ∨ userSpaceTop ≤ addr) := by
    rintro (other | high)
    · exact other fault
    · exact absurd below (BitVec.not_lt.mpr high)
  unfold vmmHandlePageFault
  rw [if_neg taken, wp_bind, wp_get]
  dsimp only
  rcases vmmGetPte_user h live (userPage_alignDown.mpr page) with ⟨_, empty⟩ |
    ⟨t, found, _, leaf⟩
  · rw [pagePath_alignDown] at empty
    rw [empty] at cow
    exact absurd cow (by decide)
  rw [pagePath_alignDown] at leaf
  have filled : g.leaf (.user s.cr3, pagePath addr) ≠ 0#64 :=
    ne_zero_of_bit ((and_presentUserCow _).mp cow).1
  obtain ⟨_, lt, _, _⟩ := h.leaf_facts filled
  rw [leaf] at cow alone lt
  rw [found]
  dsimp only
  rw [wp_bind, wp_readEntry, if_neg (not_not_intro cow), and_physMask, wp_bind]
  apply frameRefcount_spec h.ok lt
  rw [if_pos alone]
  exact ⟨rfl, rfl⟩

/-- A fault on a page that is not copy-on-write, in whatever space, changes nothing. -/
theorem vmmHandlePageFault_refused {halt : Kassert → MemState → Prop} {addr err : Word}
    (other : ∀ t i, vmmGetPte s.mem s.cr3 (alignDown addr pageSize) = some (t, i) →
      s.mem t i &&& presentUserCow ≠ presentUserCow) :
    wp (vmmHandlePageFault addr err) (fun done s' => done = false ∧ s' = s) halt s := by
  unfold vmmHandlePageFault
  apply wp_ite
  · intro _
    exact ⟨rfl, rfl⟩
  intro _
  rw [wp_bind, wp_get]
  dsimp only
  split
  · exact ⟨rfl, rfl⟩
  · rename_i t i found
    rw [wp_bind, wp_readEntry, if_pos (other t i found)]
    exact ⟨rfl, rfl⟩

end LithiumKernel.Mm
