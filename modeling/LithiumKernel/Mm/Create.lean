import LithiumKernel.Mm.AddressSpace

/-!
# Creating address spaces (kernel/mm/vmm.c, `vmm_create_address_space`)

A new root takes over the kernel half of the current space and gets a PDPT of its own
whose first slot is the identity window of the current space. Nothing else is mapped.
-/
namespace LithiumKernel.Mm

open LithiumKernel.Lib LithiumKernel.Lib.Forest

variable {k : Nat} {s s' s'' : MemState} {g g' g'' : SpaceGhost}

/-- The new root `r` and what it shares with the space that was current. -/
structure Created (k r : Nat) (s : MemState) (g : SpaceGhost) (s' : MemState)
    (g' : SpaceGhost) : Prop extends Grow s g s' g' where
  vm : Vm k s' g'
  leaf : g'.leaf = g.leaf
  ext : g'.ext = g.ext
  live : ∀ o, (spaceLayout k).Live g' o ↔ (spaceLayout k).Live g o ∨ o = .user r
  unused : r < s.pmm.totalFrames ∧ s.pmm.refcount r = 0
  upper : ∀ i : Idx, 256 ≤ i.val → s'.mem r i = s.mem s.cr3 i
  window : s.mem s.cr3 0 &&& vmmPresent ≠ 0#64 →
    ∃ t, g'.role t = some (.user r, [0]) ∧ s'.mem t 0 = s.mem (frameOf (s.mem s.cr3 0)) 0

/-- A fresh frame whose user half is blank becomes the root of a new space. -/
theorem Vm.newRoot (h : Vm k s g) {f : Nat} {q : Pmm} {page : Idx → Word}
    (lt : f < s.pmm.totalFrames) (zero : s.pmm.refcount f = 0) (evolves : s.pmm.Evolves q)
    (counts : q.refcount = Function.update s.pmm.refcount f 1)
    (blank : ∀ i : Idx, i.val < 256 → page i = 0#64) :
    Grow s g { s with pmm := q, mem := Function.update s.mem f page }
        ⟨Function.update g.role f (some (.user f, [])), g.leaf, g.ext⟩ ∧
      Vm k { s with pmm := q, mem := Function.update s.mem f page }
        ⟨Function.update g.role f (some (.user f, [])), g.leaf, g.ext⟩ ∧
      ∀ o, (spaceLayout k).Live
          ⟨Function.update g.role f (some (.user f, [])), g.leaf, g.ext⟩ o ↔
        (spaceLayout k).Live g o ∨ o = .user f := by
  obtain ⟨free, _, noExt⟩ := h.wf.unused lt zero
  have absent : ∀ {t x}, g.role t = some x → t ≠ f := by
    rintro t x role rfl
    rw [free] at role
    cases role
  have acquired : Vm k { s with pmm := q }
      ⟨g.role, g.leaf, Function.update g.ext f (g.ext f + 1)⟩ := by
    refine ⟨evolves.ok, ?_⟩
    change (spaceLayout k).WF q.totalFrames q.refcount s.mem _
    rw [evolves.total, counts]
    exact h.wf.acquire lt zero
  have blanked := acquired.blank free page
  have rooted := blanked.wf.addBase (o := .user f) rfl (by simp [spaceLayout])
    (by change f < q.totalFrames; rwa [evolves.total])
    (by change q.refcount f = 1; rw [counts, Function.update_self])
    (by change Function.update g.ext f (g.ext f + 1) f = 1; rw [Function.update_self, noExt])
    (fun j own => (congrFun (Function.update_self f page s.mem) j).trans (blank j own))
  refine ⟨⟨evolves, rfl, rfl, ?_, ?_, ?_⟩, ⟨evolves.ok, ?_⟩, ?_⟩
  · intro t x role
    exact (Function.update_of_ne (absent role) _ _).trans role
  · intro f' free' used
    have ne : f' ≠ f := by
      rintro rfl
      omega
    refine ⟨(Function.update_of_ne ne _ _).trans free', ?_, Function.update_of_ne ne _ _⟩
    change s.pmm.refcount f' ≤ q.refcount f'
    rw [counts, Function.update_of_ne ne]
  · intro t o p i role _
    exact congrFun (Function.update_of_ne (absent role) _ _) i
  · have same : Function.update (Function.update g.ext f (g.ext f + 1)) f 0 = g.ext := by
      rw [Function.update_idem, ← noExt, Function.update_eq_self]
    rw [← same]
    exact rooted
  · intro o
    unfold Layout.Live
    dsimp only
    by_cases here : (spaceLayout k).baseFrame o = f
    · rw [here, Function.update_self, free]
      simp only [reduceCtorEq, false_or]
      constructor
      · intro eq
        exact (Prod.mk.inj (Option.some.inj eq)).1.symm
      · rintro rfl
        rfl
    · rw [Function.update_of_ne here]
      constructor
      · exact .inl
      · rintro (old | rfl)
        · exact old
        · exact absurd rfl here

/-- The page of a new root after the kernel half of `cur` has been copied. -/
def kernelHalf (mem : PhysMem) (cur : Nat) : Idx → Word := fun i =>
  if 256 ≤ i.val then mem cur i else 0#64

/-- The loop that copies the kernel half. -/
theorem copyUpper_spec {post : Unit → MemState → Prop} {halt : Kassert → MemState → Prop}
    {cur f : Nat} (ne : cur ≠ f) (page : Idx → Word) (blank : ∀ i, page i = 0#64)
    (copied : post () { s with mem := Function.update s.mem f (kernelHalf s.mem cur) }) :
    wp (forM upperHalf fun i => do
      let e ← readEntry cur i
      writeEntry f i e) post halt { s with mem := Function.update s.mem f page } := by
  refine wp_imp (wp_forM (fun done s' => s' = { s with
    mem := Function.update s.mem f (fun i => if i ∈ done then s.mem cur i else 0#64) })
    upperHalf ?_ ?_) ?_
  · rintro done i rest s₁ split rfl
    rw [wp_bind, wp_readEntry, wp_writeEntry]
    congr 1
    funext f' j
    by_cases here : f' = f
    · subst here
      by_cases slot : j = i
      · subst slot
        simp [Function.update_of_ne ne]
      · rw [store_of_ne _ _ (fun both => slot both.2)]
        simp [slot]
    · rw [store_frame _ _ _ here]
      dsimp only
      rw [Function.update_of_ne here, Function.update_of_ne here]
  · congr 1
    funext f' j
    by_cases here : f' = f
    · subst here
      simp [blank]
    · simp [here]
  · rintro _ s' rfl
    have half : kernelHalf s.mem cur = fun i => if i ∈ upperHalf then s.mem cur i else 0#64 := by
      funext i
      simp [kernelHalf]
    rw [half] at copied
    exact copied

/-- The identity window is copied into the fresh PDPT of a new root. -/
theorem Vm.newWindow (h : Vm k s g) {f f₂ : Nat} {q : Pmm} {w : Word} (window : Word)
    (at_f : g.role f = some (.user f, [])) (vacant : s.mem f 0 = 0#64)
    (lt : f₂ < s.pmm.totalFrames) (zero : s.pmm.refcount f₂ = 0) (evolves : s.pmm.Evolves q)
    (counts : q.refcount = Function.update s.pmm.refcount f₂ 1)
    (ok : (spaceLayout k).linkOk w) (target : frameOf w = f₂) :
    Grow s g
        { s with
          pmm := q
          mem := store (store (Function.update s.mem f₂ (fun _ => 0#64)) f₂ 0 window) f 0 w }
        ⟨Function.update g.role f₂ (some (.user f, [0])), g.leaf, g.ext⟩ ∧
      Vm k
        { s with
          pmm := q
          mem := store (store (Function.update s.mem f₂ (fun _ => 0#64)) f₂ 0 window) f 0 w }
        ⟨Function.update g.role f₂ (some (.user f, [0])), g.leaf, g.ext⟩ ∧
      ∀ o, (spaceLayout k).Live
          ⟨Function.update g.role f₂ (some (.user f, [0])), g.leaf, g.ext⟩ o ↔
        (spaceLayout k).Live g o := by
  have hung := h.hang (i := 0) at_f (by simp) (by decide : (0 : Idx).val < 256)
    (by simp [spaceLayout]) vacant lt zero evolves counts ok target
  have free := (h.wf.unused lt zero).1
  have absent : ∀ {t x}, g.role t = some x → t ≠ f₂ := by
    rintro t x role rfl
    rw [free] at role
    cases role
  rw [store_comm _ _ _ _ _ (Ne.symm (absent at_f))]
  refine ⟨⟨hung.evolves, rfl, rfl, hung.tables, ?_, ?_⟩, ⟨hung.vm.ok, ?_⟩, hung.live⟩
  · intro f' free' used
    obtain ⟨role, le, same⟩ := hung.data free' used
    have ne : f' ≠ f₂ := by
      rintro rfl
      omega
    exact ⟨role, le, (store_frame _ _ _ ne).trans same⟩
  · intro t o p i role foreign
    exact (store_of_ne _ _ (fun both => absent role both.1)).trans (hung.foreign role foreign)
  · refine hung.vm.wf.scribble ?_
    intro t o p i role own
    apply store_of_ne
    rintro ⟨rfl, rfl⟩
    -- slot 0 of the PDPT at path `[0]` belongs to nobody
    have eq := (Function.update_self t (some (Owner.user f, [(0 : Idx)])) g.role).symm.trans role
    obtain ⟨rfl, rfl⟩ := Prod.mk.inj (Option.some.inj eq)
    exact own ⟨rfl, rfl⟩

theorem vmmCreateAddressSpace_spec (h : Vm k s g) (cur : 0 < s.pmm.refcount s.cr3)
    (low : s.mem s.cr3 0 &&& vmmPresent ≠ 0#64 →
      0 < s.pmm.refcount (frameOf (s.mem s.cr3 0))) :
    wp vmmCreateAddressSpace (fun result s' => match result with
      | none => ∃ g', Quiet k s g s' g'
      | some r => ∃ g', Created k r s g s' g') Saturated s := by
  unfold vmmCreateAddressSpace
  rw [wp_bind]
  apply allocFrame_spec h
  · intro _
    exact ⟨g, .refl h⟩
  intro f q lt zero evolves counts acquired
  have small := h.frame_small lt
  have free := (h.wf.unused lt zero).1
  have curNe : s.cr3 ≠ f := fun eq => by rw [eq] at cur; omega
  have blank : ∀ i : Idx, i.val < 256 → kernelHalf s.mem s.cr3 i = 0#64 :=
    fun i lower => if_neg (by omega)
  obtain ⟨grown, rooted, roots⟩ := h.newRoot lt zero evolves counts blank
  simp only [frameOf_frameAddr small]
  rw [wp_bind, wp_zeroFrame, wp_bind, wp_get, wp_bind]
  apply copyUpper_spec (s := { s with pmm := q }) curNe _ (fun _ => rfl)
  rw [wp_bind, wp_readEntry]
  have entry : Function.update s.mem f (kernelHalf s.mem s.cr3) s.cr3 0 = s.mem s.cr3 0 := by
    rw [Function.update_of_ne curNe]
  simp only [entry]
  have upper : ∀ i : Idx, 256 ≤ i.val →
      Function.update s.mem f (kernelHalf s.mem s.cr3) f i = s.mem s.cr3 i :=
    fun i high => (congrFun (Function.update_self f _ s.mem) i).trans (if_pos high)
  apply wp_ite
  · intro present
    rw [wp_bind]
    apply allocFrame_spec (acquired.blank free (kernelHalf s.mem s.cr3))
    · -- no frame for the window: the root goes back to the pool
      intro _
      rw [wp_bind]
      apply freeFrame_spec evolves.ok (by change f < q.totalFrames; rwa [evolves.total])
        (by change 0 < q.refcount f; rw [counts, Function.update_self]; exact Nat.one_pos)
      intro q' evolves' counts'
      have dropped := (acquired.blank free (kernelHalf s.mem s.cr3)).dropHeld (f := f)
        (by change f < q.totalFrames; rwa [evolves.total]) (by simp) evolves' counts'
      have restored : q'.refcount = s.pmm.refcount := by
        change q'.refcount = Function.update q.refcount f (q.refcount f - 1) at counts'
        rw [counts', counts, Function.update_self, Function.update_idem,
          show 1 - 1 = s.pmm.refcount f from zero.symm, Function.update_eq_self]
      refine ⟨g, ⟨evolves.trans evolves', rfl, rfl, fun role => role, ?_, ?_⟩, ?_, rfl, rfl,
        fun _ => Iff.rfl⟩
      · intro f' free' used
        have ne : f' ≠ f := by
          rintro rfl
          omega
        refine ⟨free', ?_, Function.update_of_ne ne _ _⟩
        change s.pmm.refcount f' ≤ q'.refcount f'
        rw [restored]
      · intro t o p i role _
        have ne : t ≠ f := by
          rintro rfl
          rw [free] at role
          cases role
        exact congrFun (Function.update_of_ne ne _ _) i
      · simpa using dropped
    · intro f₂ q₂ lt₂ zero₂ evolves₂ counts₂ _
      change f₂ < q.totalFrames at lt₂
      change q.refcount f₂ = 0 at zero₂
      have ne₂ : f₂ ≠ f := by
        rintro rfl
        rw [counts, Function.update_self] at zero₂
        cases zero₂
      have small₂ : f₂ < 2 ^ 40 := h.frame_small (by rwa [← evolves.total])
      have unused₂ : s.pmm.refcount f₂ = 0 := by
        rwa [counts, Function.update_of_ne ne₂] at zero₂
      have lowNe : frameOf (s.mem s.cr3 0) ≠ f := fun eq => by
        have used := low present
        rw [eq] at used
        omega
      have lowNe₂ : frameOf (s.mem s.cr3 0) ≠ f₂ := fun eq => by
        have used := low present
        rw [eq] at used
        omega
      have ok : (spaceLayout k).linkOk (tableEntry (frameAddr f₂) ||| vmmUser) := by
        rw [linkOk_iff, BitVec.getLsbD_or, BitVec.getLsbD_or, tableEntry_low f₂ (by decide),
          tableEntry_low f₂ (by decide)]
        decide
      have target : frameOf (tableEntry (frameAddr f₂) ||| vmmUser) = f₂ := by
        rw [frameOf_or_flags _ (by decide), tableEntry_frame small₂]
      obtain ⟨grown₂, vm₂, roots₂⟩ := rooted.newWindow (f := f) (q := q₂)
        (s.mem (frameOf (s.mem s.cr3 0)) 0) (Function.update_self ..)
        ((congrFun (Function.update_self f _ s.mem) 0).trans (blank 0 (by decide)))
        lt₂ zero₂ evolves₂ counts₂ ok target
      simp only [frameOf_frameAddr small₂, wp_bind, wp_zeroFrame, wp_readEntry, wp_writeEntry,
        wp_pure, Function.update_of_ne lowNe₂, Function.update_of_ne lowNe]
      refine ⟨_, grown.trans grown₂, vm₂, rfl, rfl, fun o => (roots₂ o).trans (roots o),
        ⟨lt, zero⟩, ?_, fun _ => ⟨f₂, Function.update_self .., ?_⟩⟩
      · intro i high
        have off : ¬ (f = f ∧ i = 0) := by
          rintro ⟨_, rfl⟩
          exact absurd high (by decide)
        change store (store _ f₂ 0 _) f 0 _ f i = _
        rw [store_of_ne _ _ off, store_frame _ _ _ (Ne.symm ne₂),
          Function.update_of_ne (Ne.symm ne₂)]
        exact upper i high
      · change store (store _ f₂ 0 _) f 0 _ f₂ 0 = _
        rw [store_frame _ _ _ ne₂, store_same]
  · intro absent
    exact ⟨_, grown, rooted, rfl, rfl, roots, ⟨lt, zero⟩, upper, fun present =>
      absurd present absent⟩

/-- The memory after a root `f` with the low PDPT `f₂` has been made. -/
def createdMem (mem : PhysMem) (cur f f₂ : Nat) : PhysMem :=
  store (store (Function.update (Function.update mem f (kernelHalf mem cur)) f₂ (fun _ => 0#64))
    f₂ 0 (mem (frameOf (mem cur 0)) 0)) f 0 (tableEntry (frameAddr f₂) ||| vmmUser)

/-- The successful run, once the pool has said which two frames it hands out. -/
theorem vmmCreateAddressSpace_run {f f₂ : Nat} {q q₂ : Pmm}
    (first : pmmAllocFrame s.pmm = (some (frameAddr f), q))
    (second : pmmAllocFrame q = (some (frameAddr f₂), q₂)) (small : f < 2 ^ 40)
    (small₂ : f₂ < 2 ^ 40) (cur : s.cr3 ≠ f) (low : frameOf (s.mem s.cr3 0) ≠ f)
    (low₂ : frameOf (s.mem s.cr3 0) ≠ f₂) (present : s.mem s.cr3 0 &&& vmmPresent ≠ 0#64) :
    vmmCreateAddressSpace s =
      .ok (some f) { s with pmm := q₂, mem := createdMem s.mem s.cr3 f f₂ } := by
  apply run_of_wp
  unfold vmmCreateAddressSpace
  rw [wp_bind, wp_allocFrame, first]
  dsimp only
  rw [wp_bind, wp_zeroFrame, wp_bind, wp_get, wp_bind, frameOf_frameAddr small]
  refine copyUpper_spec (s := { s with pmm := q }) cur (fun _ => 0#64) (fun _ => rfl) ?_
  have entry : Function.update s.mem f (kernelHalf s.mem s.cr3) s.cr3 0 = s.mem s.cr3 0 := by
    rw [Function.update_of_ne cur]
  rw [wp_bind, wp_readEntry]
  simp only [entry]
  rw [if_pos present, wp_bind, wp_allocFrame]
  simp only [second, frameOf_frameAddr small₂, wp_bind, wp_zeroFrame, wp_readEntry, wp_writeEntry,
    wp_pure, Function.update_of_ne low₂, Function.update_of_ne low]
  exact ⟨trivial, rfl⟩

end LithiumKernel.Mm
