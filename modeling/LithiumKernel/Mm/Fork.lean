import LithiumKernel.Mm.Create
import LithiumKernel.Mm.Teardown

/-!
# Cloning address spaces (kernel/mm/vmm.c, `vmm_clone_user_address_space`)

A clone copies every user leaf into a new root: writable leaves lose `VMM_WRITE` and
gain `VMM_COW` on both sides, and the frame is shared. On failure the new space is
destroyed again; leaves of the source that were already rewritten stay copy-on-write.
-/
namespace LithiumKernel.Mm

open LithiumKernel.Lib LithiumKernel.Lib.Forest

variable {k : Nat} {s s' s'' : MemState} {g g' g'' : SpaceGhost}

/-! ## Cloning -/

theorem cowEntry_leafOk {r : Nat} {e : Word} (r' : Nat) (ok : (spaceLayout k).leafOk (.user r) e) :
    (spaceLayout k).leafOk (.user r') (cowEntry e) := by
  rw [leafOk_user_iff] at ok ⊢
  rw [cowEntry_low e (by decide), cowEntry_low e (by decide)]
  exact ok

/-- What cloning has done so far. `copied` are the pages already dealt with: their leaf
is in copy-on-write form on both sides. -/
structure Copying (k src dst : Nat) (copied : List Idx → Prop) (s : MemState) (g : SpaceGhost)
    (s' : MemState) (g' : SpaceGhost) : Prop extends Grow s g s' g' where
  vm : Vm k s' g'
  ext : g'.ext = g.ext
  live : ∀ o, (spaceLayout k).Live g' o ↔ (spaceLayout k).Live g o
  here : ∀ {q}, copied q → g'.leaf (.user src, q) = cowEntry (g.leaf (.user src, q)) ∧
    g'.leaf (.user dst, q) = cowEntry (g.leaf (.user src, q))
  rest : ∀ {q}, ¬ copied q → g'.leaf (.user src, q) = g.leaf (.user src, q) ∧
    g'.leaf (.user dst, q) = 0#64
  others : ∀ {o q}, o ≠ .user src → o ≠ .user dst → g'.leaf (o, q) = g.leaf (o, q)

/-- Where cloning stands when it gives up. -/
structure CopyFailed (k src dst : Nat) (s : MemState) (g : SpaceGhost) (s' : MemState)
    (g' : SpaceGhost) : Prop extends Grow s g s' g' where
  vm : Vm k s' g'
  ext : g'.ext = g.ext
  live : ∀ o, (spaceLayout k).Live g' o ↔ (spaceLayout k).Live g o
  source : ∀ q, g'.leaf (.user src, q) = g.leaf (.user src, q) ∨
    g'.leaf (.user src, q) = cowEntry (g.leaf (.user src, q))
  others : ∀ {o q}, o ≠ .user src → o ≠ .user dst → g'.leaf (o, q) = g.leaf (o, q)

/-- The outcome of a part of the work, begun at `s₁`, that was to copy `pages`. -/
def CopyOutcome (k src dst : Nat) (copied pages : List Idx → Prop) (s : MemState) (g : SpaceGhost)
    (s₁ : MemState) (g₁ : SpaceGhost) (done : Bool) (s₂ : MemState) : Prop :=
  ∃ g₂, Grow s₁ g₁ s₂ g₂ ∧
    if done then Copying k src dst (fun q => copied q ∨ pages q) s g s₂ g₂
    else CopyFailed k src dst s g s₂ g₂

/-- Pages without a leaf count as copied. -/
theorem Copying.extend {src dst : Nat} {copied copied' : List Idx → Prop}
    (c : Copying k src dst copied s g s' g') (more : ∀ q, copied q → copied' q)
    (empty : ∀ q, copied' q → ¬ copied q → g.leaf (.user src, q) = 0#64) :
    Copying k src dst copied' s g s' g' := by
  refine ⟨c.toGrow, c.vm, c.ext, c.live, ?_, ?_, c.others⟩
  · intro q now
    by_cases before : copied q
    · exact c.here before
    · have zero := empty q now before
      obtain ⟨source, target⟩ := c.rest before
      rw [zero] at source ⊢
      exact ⟨source, target⟩
  · intro q notNow
    exact c.rest (fun before => notNow (more q before))

/-- Writable or not, the source is left with the copy-on-write form. -/
theorem shareLeaf_spec {post : Unit → MemState → Prop} {halt : Kassert → MemState → Prop}
    (t : Nat) (l : Idx)
    (shared : post () { s with mem := store s.mem t l (cowEntry (s.mem t l)) }) :
    wp (shareLeaf t l (s.mem t l)) post halt s := by
  rw [shareLeaf, cowEntry_halves]
  apply wp_ite
  · intro _
    exact shared
  · intro readOnly
    have same : cowEntry (s.mem t l) = s.mem t l := by
      rw [cowEntry, ← flags_and_write, if_neg readOnly]
    rw [same, store_eq_self rfl] at shared
    exact shared

theorem cowFlags_user {e : Word} (user : e.getLsbD 2 = true) : (cowFlags e).getLsbD 2 = true := by
  have bit : (cowEntry e).getLsbD 2 = true := by
    rw [cowEntry_low e (by decide)]
    simpa using user
  rw [← cowEntry_halves, BitVec.getLsbD_or, and_physMask_low e (by decide), Bool.false_or] at bit
  exact bit

/-- A reference is taken, growth happens, and the reference is given back. -/
theorem Grow.giveBack {f : Nat} {q q' : Pmm} {ext : Nat → Nat}
    (grown : Grow { s with pmm := q } g' s' g'') (role : g'.role = g.role)
    (evolves : s.pmm.Evolves q)
    (counts : q.refcount = Function.update s.pmm.refcount f (s.pmm.refcount f + 1))
    (evolves' : s'.pmm.Evolves q')
    (counts' : q'.refcount = Function.update s'.pmm.refcount f (s'.pmm.refcount f - 1)) :
    Grow s g { s' with pmm := q' } ⟨g''.role, g''.leaf, ext⟩ where
  evolves := (evolves.trans grown.evolves).trans evolves'
  cr3 := grown.cr3
  heap := grown.heap
  tables := by
    intro t x at_t
    rw [← role] at at_t
    exact grown.tables at_t
  data := by
    intro f' free used
    have free' : g'.role f' = none := by rwa [role]
    have le : s.pmm.refcount f' ≤ q.refcount f' := by
      rw [counts]
      by_cases here : f' = f
      · subst here
        simp
      · rw [Function.update_of_ne here]
    obtain ⟨free'', le', same⟩ := grown.data free' (lt_of_lt_of_le used le)
    refine ⟨free'', ?_, same⟩
    change s.pmm.refcount f' ≤ q'.refcount f'
    change q.refcount f' ≤ s'.pmm.refcount f' at le'
    rw [counts']
    by_cases here : f' = f
    · subst here
      rw [counts, Function.update_self] at le'
      rw [Function.update_self]
      omega
    · rw [Function.update_of_ne here]
      exact le.trans le'
  foreign := by
    intro t o p i at_t foreign
    rw [← role] at at_t
    exact grown.foreign at_t foreign

/-- Taking a reference alone is growth. -/
theorem Grow.takeRef {f : Nat} {q : Pmm} (evolves : s.pmm.Evolves q)
    (counts : q.refcount = Function.update s.pmm.refcount f (s.pmm.refcount f + 1))
    (role : g'.role = g.role) : Grow s g { s with pmm := q } g' where
  evolves := evolves
  cr3 := rfl
  heap := rfl
  tables := by
    intro t x at_t
    rwa [role]
  data := by
    intro f' free _
    refine ⟨by rwa [role], ?_, rfl⟩
    change s.pmm.refcount f' ≤ q.refcount f'
    rw [counts]
    by_cases here : f' = f
    · subst here
      simp
    · rw [Function.update_of_ne here]
  foreign := fun _ _ => rfl

/-- A reference that was held for it becomes the reference of the new leaf. -/
theorem MapResult.spent {x : Owner × List Idx} {w : Word} {f : Nat}
    {role : Nat → Option (Owner × List Idx)} {leaf : Owner × List Idx → Word} {ext : Nat → Nat}
    (mapped : MapResult k s ⟨role, leaf, Function.update ext f (ext f + 1)⟩ x w true s' g')
    (frame : frameOf w = f) (vacant : leaf x = 0#64) : g'.ext = ext := by
  funext f'
  have even := mapped.effect.2 f'
  simp only [frame, vacant, ne_eq, not_true_eq_false, false_and, if_false, Nat.add_zero] at even
  by_cases here : f' = f
  · subst here
    simpa using even
  · simpa [here, Ne.symm here] using even

/-- One iteration of the innermost loop. -/
theorem clonePte_effect (h : Vm k s g) {src dst t : Nat} {i j m l : Idx}
    (ne : src ≠ dst) (live : (spaceLayout k).Live g (.user dst))
    (at_t : g.role t = some (.user src, [m, j, i])) (page : UserPage (makeVirt i j m l))
    (vacant : g.leaf (.user dst, [l, m, j, i]) = 0#64) :
    wp (clonePte dst i j m t l) (fun done s' => ∃ g', Grow s g s' g' ∧ Vm k s' g' ∧
      g'.ext = g.ext ∧ (∀ o, (spaceLayout k).Live g' o ↔ (spaceLayout k).Live g o) ∧
      g'.leaf =
        let cow := cowEntry (g.leaf (.user src, [l, m, j, i]))
        let source := Function.update g.leaf (.user src, [l, m, j, i]) cow
        if done then Function.update source (.user dst, [l, m, j, i]) cow else source)
      Saturated s := by
  have leaf : g.leaf (.user src, [l, m, j, i]) = s.mem t l := h.wf.leaf_mem at_t rfl trivial
  rw [clonePte, wp_bind, wp_readEntry]
  apply wp_ite
  · intro other
    have zero : g.leaf (.user src, [l, m, j, i]) = 0#64 := by
      by_contra filled
      rw [← leaf] at other
      exact other (h.wf.leaf filled).1
    refine ⟨g, .refl h.ok rfl, h, rfl, fun _ => Iff.rfl, ?_⟩
    have keepSrc : Function.update g.leaf (.user src, [l, m, j, i]) 0#64 = g.leaf := by
      rw [← zero, Function.update_eq_self]
    have keepDst : Function.update g.leaf (.user dst, [l, m, j, i]) 0#64 = g.leaf := by
      rw [← vacant, Function.update_eq_self]
    simp only [zero, cowEntry_zero, keepSrc, keepDst, if_true]
  intro mapped
  have filled : s.mem t l ≠ 0#64 := by
    intro zero
    rw [zero] at mapped
    exact mapped (by decide)
  have filledLeaf : g.leaf (.user src, [l, m, j, i]) ≠ 0#64 := by rwa [leaf]
  obtain ⟨ok, lt, data, pos⟩ := h.leaf_facts filledLeaf
  rw [leaf] at ok lt data pos
  obtain ⟨present, user⟩ := leafOk_user_iff.mp ok
  dsimp only
  rw [leaf, and_physMask, wp_bind]
  apply refFrame_spec h.ok lt pos
  intro q evolves counts
  have okCow : (spaceLayout k).leafOk (.user src) (cowEntry (s.mem t l)) := cowEntry_leafOk src ok
  have taken : Grow s g { s with pmm := q } ⟨g.role, g.leaf, Function.update g.ext
      (frameOf (s.mem t l)) (g.ext (frameOf (s.mem t l)) + 1)⟩ := .takeRef evolves counts rfl
  obtain ⟨grown, shared⟩ := (h.hold data evolves counts).relabelLeaf (i := l) at_t rfl trivial
    filled okCow (ne_zero_of_bit (leafOk_user_iff.mp okCow).1) (cowEntry_frame _)
  rw [wp_bind]
  apply shareLeaf_spec (s := { s with pmm := q }) t l
  have entry : leafEntry (frameAddr (frameOf (s.mem t l))) (cowFlags (s.mem t l)) =
      cowEntry (s.mem t l) := by
    rw [← and_physMask, leafEntry_cow present]
  refine wp_seq (vmmMapPage_spec shared live page (f := frameOf (s.mem t l))
    (by change _ < q.totalFrames; rw [evolves.total]; exact lt) (by simp) (cowFlags_user user)) ?_
  rw [entry, pagePath_makeVirt]
  rintro done s₁ ⟨g₁, mappedTo⟩
  apply wp_ite
  · rintro rfl
    have leaf₁ := mappedTo.effect.1
    have vacant' : Function.update g.leaf (Owner.user src, [l, m, j, i]) (cowEntry (s.mem t l))
        (Owner.user dst, [l, m, j, i]) = 0#64 := by
      rw [Function.update_of_ne (by simpa using Ne.symm ne)]
      exact vacant
    exact ⟨g₁, taken.trans (grown.trans mappedTo.toGrow), mappedTo.vm,
      mappedTo.spent (cowEntry_frame _) vacant', mappedTo.live, leaf₁⟩
  · intro failed
    obtain rfl : done = false := by simpa using failed
    obtain ⟨leaf₁, ext₁⟩ := mappedTo.effect
    have heldNow : 0 < g₁.ext (frameOf (s.mem t l)) := by
      rw [ext₁]
      simp
    have lt₁ : frameOf (s.mem t l) < s₁.pmm.totalFrames := by
      rw [mappedTo.evolves.total]
      change _ < q.totalFrames
      rw [evolves.total]
      exact lt
    rw [wp_bind]
    apply freeFrame_spec mappedTo.vm.ok lt₁ (mappedTo.vm.rc_pos_of_ext lt₁ heldNow)
    intro q' evolves' counts'
    have dropped := mappedTo.vm.dropHeld lt₁ heldNow evolves' counts'
    refine ⟨⟨g₁.role, g₁.leaf, g.ext⟩, (grown.trans mappedTo.toGrow).giveBack rfl evolves counts
      evolves' counts', ?_, rfl, mappedTo.live, leaf₁⟩
    rw [ext₁] at dropped
    simpa using dropped

section Loops

variable {src dst : Nat} {s₁ : MemState} {g₁ : SpaceGhost} {copied : List Idx → Prop}

/-- The contract of one slot of a source table. -/
def ClonesSlot (k src dst : Nat) (s : MemState) (g : SpaceGhost) (p : List Idx) (i : Idx)
    (body : Nat → MmM Bool) : Prop :=
  ∀ s₁ g₁ t copied, Copying k src dst copied s g s₁ g₁ → g₁.role t = some (.user src, p) →
    (∀ q, (i :: p) <:+ q → ¬ copied q) →
    wp (body t) (CopyOutcome k src dst copied ((i :: p) <:+ ·) s g s₁ g₁) Saturated s₁

/-- The contract of one level: every page below path `p` is copied. -/
def Clones (k src dst : Nat) (s : MemState) (g : SpaceGhost) (p : List Idx)
    (f : Nat → MmM Bool) : Prop :=
  ∀ s₁ g₁ t copied, Copying k src dst copied s g s₁ g₁ → g₁.role t = some (.user src, p) →
    (∀ q, p <:+ q → ¬ copied q) →
    wp (f t) (CopyOutcome k src dst copied (p <:+ ·) s g s₁ g₁) Saturated s₁

/-- Two slots of one table have no page in common. -/
theorem slot_unique {i j : Idx} {p q : List Idx} (hi : (i :: p) <:+ q) (hj : (j :: p) <:+ q) :
    i = j := by
  have nested := List.suffix_of_suffix_length_le hi hj (by simp)
  exact (List.cons.inj (nested.eq_of_length (by simp))).1

theorem clones_of_slots {p xs : List Idx} {body : Nat → Idx → MmM Bool} (nodup : xs.Nodup)
    (cover : ∀ q, p <:+ q → g.leaf (.user src, q) ≠ 0#64 → ∃ i ∈ xs, (i :: p) <:+ q)
    (slot : ∀ i ∈ xs, ClonesSlot k src dst s g p i (body · i)) :
    Clones k src dst s g p (fun t => xs.allM (body t)) := by
  intro s₁ g₁ t copied start at_t fresh
  refine wp_imp (wp_allM
    (fun done s₂ => ∃ g₂, Grow s₁ g₁ s₂ g₂ ∧
      Copying k src dst (fun q => copied q ∨ ∃ i ∈ done, (i :: p) <:+ q) s g s₂ g₂)
    (fun s₂ => ∃ g₂, Grow s₁ g₁ s₂ g₂ ∧ CopyFailed k src dst s g s₂ g₂) xs ?_ ?_) ?_
  rotate_left 2
  · rintro (_ | _) s₂ outcome
    · exact outcome
    · obtain ⟨g₂, grown, all⟩ := outcome
      refine ⟨g₂, grown, all.extend ?_ ?_⟩
      · rintro q (before | ⟨i, _, below⟩)
        · exact .inl before
        · exact .inr ((List.suffix_cons i p).trans below)
      · rintro q (before | below) missed
        · exact absurd (.inl before) missed
        · by_contra filled
          exact missed (.inr (cover q below filled))
  · rintro done i rest s₂ split ⟨g₂, grown, upto⟩
    have notDone : i ∉ done := by
      rw [split] at nodup
      intro member
      exact (List.nodup_append.mp nodup).2.2 i member i (by simp) rfl
    have untouched : ∀ q, (i :: p) <:+ q → ¬ (copied q ∨ ∃ i ∈ done, (i :: p) <:+ q) := by
      rintro q below (before | ⟨j, member, below'⟩)
      · exact fresh q ((List.suffix_cons i p).trans below) before
      · rw [slot_unique below below'] at notDone
        exact notDone member
    refine wp_imp (slot i (by simp [split]) s₂ g₂ t _ upto (grown.tables at_t) untouched) ?_
    rintro (_ | _) s₃ ⟨g₃, grown₃, result⟩
    · exact ⟨g₃, grown.trans grown₃, result⟩
    · refine ⟨g₃, grown.trans grown₃, result.extend ?_ ?_⟩
      · rintro q ((before | ⟨j, member, below⟩) | below)
        · exact .inl before
        · exact .inr ⟨j, by simp [member], below⟩
        · exact .inr ⟨i, by simp, below⟩
      · rintro q (before | ⟨j, member, below⟩) missed
        · exact absurd (.inl (.inl before)) missed
        · rcases List.mem_append.mp member with earlier | now
          · exact absurd (.inl (.inr ⟨j, earlier, below⟩)) missed
          · rw [List.mem_singleton.mp now] at below
            exact absurd (.inr below) missed
  · exact ⟨g₁, .refl start.vm.ok rfl, start.extend (fun q before => .inl before) (by
      rintro q (before | ⟨_, member, _⟩) missed
      · exact absurd before missed
      · cases member)⟩

/-- Nothing to copy behind a slot: the pages below it count as copied. -/
theorem clonesSlot_vacant {p : List Idx} {i : Idx}
    (start : Copying k src dst copied s g s₁ g₁)
    (empty : ∀ q, (i :: p) <:+ q → g.leaf (.user src, q) = 0#64) :
    CopyOutcome k src dst copied ((i :: p) <:+ ·) s g s₁ g₁ true s₁ := by
  refine ⟨g₁, .refl start.vm.ok rfl, start.extend (fun q before => .inl before) ?_⟩
  rintro q (before | below) missed
  · exact absurd before missed
  · exact empty q below

theorem clonePte_spec (h : Vm k s g) (ne : src ≠ dst) (live : (spaceLayout k).Live g (.user dst))
    (i j m l : Idx) : ClonesSlot k src dst s g [m, j, i] l (clonePte dst i j m · l) := by
  intro s₁ g₁ t copied start at_t fresh
  obtain ⟨lower, window⟩ := start.vm.table_owned at_t
  have below : [l, m, j, i] <:+ [l, m, j, i] := List.suffix_refl _
  obtain ⟨source, target⟩ := start.rest (fresh _ below)
  -- among the paths below the slot only the page itself can hold a leaf
  have only : ∀ q, [l, m, j, i] <:+ q → q ≠ [l, m, j, i] → g.leaf (.user src, q) = 0#64 := by
    intro q suffix other
    by_contra filled
    obtain ⟨_, _, _, _, rfl, _⟩ := h.leaf_owned filled
    exact other (suffix.eq_of_length (by simp)).symm
  have ownerNe : Owner.user src ≠ .user dst := fun eq => ne (Owner.user.inj eq)
  refine wp_imp (clonePte_effect start.vm ne ((start.live _).mpr live) at_t
    (userPage_makeVirt m l lower window) target) ?_
  rintro done s₂ ⟨g₂, grown, vm, ext, roots, leaf⟩
  dsimp only at leaf
  rw [source] at leaf
  refine ⟨g₂, grown, ?_⟩
  cases done with
  | true =>
    simp only [if_true] at leaf ⊢
    have pageDone : Copying k src dst (fun q => copied q ∨ q = [l, m, j, i]) s g s₂ g₂ := by
      refine ⟨start.toGrow.trans grown, vm, ext.trans start.ext,
        fun o => (roots o).trans (start.live o), ?_, ?_, ?_⟩
      · rintro q (before | rfl)
        · have other : q ≠ [l, m, j, i] := by
            rintro rfl
            exact fresh _ below before
          rw [leaf]
          simpa [Function.update, other] using start.here before
        · rw [leaf]
          simp [Function.update, ownerNe]
      · intro q missed
        have other : q ≠ [l, m, j, i] := fun eq => missed (.inr eq)
        rw [leaf]
        simpa [Function.update, other] using start.rest (fun before => missed (.inl before))
      · intro o q notSrc notDst
        rw [leaf]
        simpa [Function.update, notSrc, notDst] using start.others notSrc notDst
    refine pageDone.extend ?_ ?_
    · rintro q (before | rfl)
      · exact .inl before
      · exact .inr below
    · rintro q (before | suffix) missed
      · exact absurd (.inl before) missed
      · exact only q suffix (fun eq => missed (.inr eq))
  | false =>
    simp only [Bool.false_eq_true, if_false] at leaf ⊢
    refine ⟨start.toGrow.trans grown, vm, ext.trans start.ext,
      fun o => (roots o).trans (start.live o), ?_, ?_⟩
    · intro q
      rw [leaf]
      by_cases here : q = [l, m, j, i]
      · subst here
        exact .inr (Function.update_self ..)
      · rw [Function.update_of_ne (by simpa using here)]
        by_cases before : copied q
        · exact .inr (start.here before).1
        · exact .inl (start.rest before).1
    · intro o q notSrc notDst
      rw [leaf, Function.update_of_ne (by simpa using fun eq => absurd eq notSrc)]
      exact start.others notSrc notDst

/-- A leaf below a table lies behind one of its slots. -/
theorem Vm.leaf_slot (h : Vm k s g) {p q : List Idx} (short : p.length < 4) (below : p <:+ q)
    (filled : g.leaf (.user src, q) ≠ 0#64) : ∃ i, (i :: p) <:+ q := by
  obtain ⟨_, _, _, _, rfl, _⟩ := h.leaf_owned filled
  obtain ⟨front, split⟩ := below
  rcases List.eq_nil_or_concat' front with rfl | ⟨front', i, rfl⟩
  · simp only [List.nil_append] at split
    simp [split] at short
  · exact ⟨i, front', by simpa using split⟩

/-- A slot of an inner table either has nothing behind it or names a source table. -/
theorem cloneSlot_cases {p : List Idx} {i : Idx} {t : Nat}
    (start : Copying k src dst copied s g s₁ g₁) (at_t : g₁.role t = some (.user src, p))
    (fresh : ∀ q, (i :: p) <:+ q → ¬ copied q) (inner : p.length < 3)
    (own : ownsSlot (.user src) p i) :
    s₁.mem t i &&& vmmPresent = 0#64 ∧
      CopyOutcome k src dst copied ((i :: p) <:+ ·) s g s₁ g₁ true s₁ ∨
    s₁.mem t i &&& vmmPresent ≠ 0#64 ∧ s₁.mem t i &&& vmmHuge = 0#64 ∧
      g₁.role (frameOf (s₁.mem t i)) = some (.user src, i :: p) := by
  by_cases vacant : s₁.mem t i = 0#64
  · refine .inl ⟨by rw [vacant]; decide, clonesSlot_vacant start ?_⟩
    intro q suffix
    rw [← (start.rest (fresh q suffix)).1]
    exact start.vm.wf.leaf_below_empty at_t inner ⟨p, by simp [spaceLayout]⟩ vacant suffix
  · obtain ⟨link, at_child⟩ := start.vm.wf.link at_t inner own vacant
    exact .inr ⟨link.1, link.2, at_child⟩

/-- The slots of an inner table, from the contract of the tables behind them. -/
theorem cloneEntry_spec {below : Nat → MmM Bool} {p : List Idx} {i : Idx} (inner : p.length < 3)
    (own : ownsSlot (.user src) p i) (level : Clones k src dst s g (i :: p) below) :
    ClonesSlot k src dst s g p i (cloneEntry below · i) := by
  intro s₁ g₁ t copied start at_t fresh
  dsimp only
  rw [cloneEntry, wp_bind, wp_readEntry]
  rcases cloneSlot_cases start at_t fresh inner own with ⟨absent, done⟩ | ⟨present, huge, at_child⟩
  · rw [if_pos absent]
    exact done
  · rw [if_neg present, if_neg (not_not.mpr huge)]
    exact level s₁ g₁ _ copied start at_child fresh

variable (h : Vm k s g) (ne : src ≠ dst) (live : (spaceLayout k).Live g (.user dst))

include h ne live

theorem clonePt_spec (i j m : Idx) : Clones k src dst s g [m, j, i] (clonePt dst i j m) := by
  refine clones_of_slots nodup_allSlots ?_ (fun l _ => clonePte_spec h ne live i j m l)
  intro q below filled
  obtain ⟨l, slot⟩ := h.leaf_slot (by simp) below filled
  exact ⟨l, mem_allSlots l, slot⟩

theorem clonePd_spec (i j : Idx) : Clones k src dst s g [j, i] (clonePd dst i j) := by
  unfold clonePd
  refine clones_of_slots nodup_allSlots ?_ ?_
  · intro q below filled
    obtain ⟨m, slot⟩ := h.leaf_slot (by simp) below filled
    exact ⟨m, mem_allSlots m, slot⟩
  · intro m _
    exact cloneEntry_spec (p := [j, i]) (by simp) trivial (clonePt_spec h ne live i j m)

theorem clonePdpt_spec (i : Idx) : Clones k src dst s g [i] (clonePdpt dst i) := by
  refine clones_of_slots nodup_allSlots ?_ ?_
  · intro q below filled
    obtain ⟨j, slot⟩ := h.leaf_slot (by simp) below filled
    exact ⟨j, mem_allSlots j, slot⟩
  · intro j _ s₁ g₁ t copied start at_t fresh
    unfold clonePdpte
    apply wp_ite
    · -- the identity window holds no leaf of the space
      rintro ⟨rfl, rfl⟩
      refine clonesSlot_vacant start ?_
      intro q suffix
      by_contra filled
      obtain ⟨l, m, j, i, rfl, _, window⟩ := h.leaf_owned filled
      have nested := List.suffix_of_suffix_length_le suffix ⟨[l, m], rfl⟩ (by simp)
      have same := nested.eq_of_length (by simp)
      simp only [List.cons.injEq, and_true] at same
      exact window ⟨same.2.symm, same.1.symm⟩
    · intro own
      exact cloneEntry_spec (p := [i]) (by simp) own (clonePd_spec h ne live i j) s₁ g₁ t copied
        start at_t fresh

theorem clonePml4_spec : Clones k src dst s g [] (fun t => lowerHalf.allM (clonePml4e dst t)) := by
  refine clones_of_slots nodup_lowerHalf ?_ ?_
  · intro q _ filled
    obtain ⟨l, m, j, i, rfl, lower, _⟩ := h.leaf_owned filled
    exact ⟨i, (mem_lowerHalf i).mpr lower, [l, m, j], rfl⟩
  · intro i member s₁ g₁ t copied start at_t fresh
    have own : ownsSlot (.user src) [] i := (mem_lowerHalf i).mp member
    dsimp only
    rw [clonePml4e, wp_bind, wp_readEntry]
    rcases cloneSlot_cases start at_t fresh (by simp) own with ⟨absent, done⟩ |
      ⟨present, _, at_child⟩
    · rw [if_pos absent]
      exact done
    · rw [if_neg present]
      exact clonePdpt_spec h ne live i s₁ g₁ _ copied start at_child fresh

end Loops

/-! ## The whole clone -/

/-- Both spaces see every page of the source in copy-on-write form. -/
structure Cloned (k src dst : Nat) (s : MemState) (g : SpaceGhost) (s' : MemState)
    (g' : SpaceGhost) : Prop extends Grow s g s' g' where
  vm : Vm k s' g'
  ext : g'.ext = g.ext
  live : ∀ o, (spaceLayout k).Live g' o ↔ (spaceLayout k).Live g o ∨ o = .user dst
  unused : dst < s.pmm.totalFrames ∧ s.pmm.refcount dst = 0
  upper : ∀ i : Idx, 256 ≤ i.val → s'.mem dst i = s.mem s.cr3 i
  window : s.mem s.cr3 0 &&& vmmPresent ≠ 0#64 →
    ∃ t, g'.role t = some (.user dst, [0]) ∧ s'.mem t 0 = s.mem (frameOf (s.mem s.cr3 0)) 0
  source : ∀ q, g'.leaf (.user src, q) = cowEntry (g.leaf (.user src, q))
  copy : ∀ q, g'.leaf (.user dst, q) = cowEntry (g.leaf (.user src, q))
  others : ∀ {o q}, o ≠ .user src → o ≠ .user dst → g'.leaf (o, q) = g.leaf (o, q)

/-- A clone that failed leaves some pages of the source in copy-on-write form. -/
structure NotCloned (k src : Nat) (s : MemState) (g : SpaceGhost) (s' : MemState)
    (g' : SpaceGhost) : Prop extends Keep s g s' g' where
  vm : Vm k s' g'
  ext : g'.ext = g.ext
  live : ∀ o, (spaceLayout k).Live g' o ↔ (spaceLayout k).Live g o
  source : ∀ q, g'.leaf (.user src, q) = g.leaf (.user src, q) ∨
    g'.leaf (.user src, q) = cowEntry (g.leaf (.user src, q))
  others : ∀ {o q}, o ≠ .user src → g'.leaf (o, q) = g.leaf (o, q)

/-- A root that is not in use is not a live space and has no leaves. -/
theorem Vm.unused_root (h : Vm k s g) {r : Nat} (lt : r < s.pmm.totalFrames)
    (zero : s.pmm.refcount r = 0) :
    ¬ (spaceLayout k).Live g (.user r) ∧ ∀ q, g.leaf (.user r, q) = 0#64 := by
  have notLive : ¬ (spaceLayout k).Live g (.user r) := by
    intro live
    have role : g.role r = some (.user r, []) := live
    rw [(h.wf.unused lt zero).1] at role
    cases role
  refine ⟨notLive, fun q => ?_⟩
  by_contra filled
  exact notLive (h.wf.live_of_leaf filled)

theorem vmmCloneUserAddressSpace_spec (h : Vm k s g) {src : Nat}
    (live : (spaceLayout k).Live g (.user src)) (cur : 0 < s.pmm.refcount s.cr3)
    (low : s.mem s.cr3 0 &&& vmmPresent ≠ 0#64 →
      0 < s.pmm.refcount (frameOf (s.mem s.cr3 0))) :
    wp (vmmCloneUserAddressSpace src) (fun result s' => match result with
      | none => ∃ g', NotCloned k src s g s' g'
      | some dst => ∃ g', Cloned k src dst s g s' g') Saturated s := by
  unfold vmmCloneUserAddressSpace
  refine wp_seq (vmmCreateAddressSpace_spec h cur low) ?_
  rintro (_ | dst) s₁ created
  · obtain ⟨g₁, quiet⟩ := created
    exact ⟨g₁, quiet.toGrow.keep, quiet.vm, quiet.ext, quiet.live,
      fun q => .inl (by rw [quiet.leaf]), fun _ => by rw [quiet.leaf]⟩
  obtain ⟨g₁, made⟩ := created
  obtain ⟨notLive, noLeaf⟩ := h.unused_root made.unused.1 made.unused.2
  have ne : src ≠ dst := by
    rintro rfl
    exact notLive live
  have liveSrc : (spaceLayout k).Live g₁ (.user src) := (made.live _).mpr (.inl live)
  have liveDst : (spaceLayout k).Live g₁ (.user dst) := (made.live _).mpr (.inr rfl)
  have start : Copying k src dst (fun _ => False) s₁ g₁ s₁ g₁ := by
    refine ⟨.refl made.vm.ok rfl, made.vm, rfl, fun _ => Iff.rfl, fun no => no.elim, ?_,
      fun _ _ => rfl⟩
    intro q _
    exact ⟨rfl, by rw [made.leaf]; exact noLeaf q⟩
  refine wp_seq (clonePml4_spec made.vm ne liveDst s₁ g₁ src _ start liveSrc
    (fun _ _ no => no)) ?_
  rintro done s₂ ⟨g₂, _, outcome⟩
  apply wp_ite
  · rintro rfl
    have all : Copying k src dst _ s₁ g₁ s₂ g₂ := outcome
    refine ⟨g₂, made.toGrow.trans all.toGrow, all.vm, all.ext.trans made.ext,
      fun o => (all.live o).trans (made.live o), made.unused, ?_, ?_, ?_, ?_, ?_⟩
    · intro i high
      have foreign : ¬ ownsSlot (.user dst) [] i := by
        change ¬ i.val < 256
        omega
      exact (all.foreign liveDst foreign).trans (made.upper i high)
    · intro present
      obtain ⟨t, at_t, entry⟩ := made.window present
      refine ⟨t, all.tables at_t, ?_⟩
      rw [all.foreign at_t (fun own => own ⟨rfl, rfl⟩)]
      exact entry
    · intro q
      rw [(all.here (.inr List.nil_suffix)).1, made.leaf]
    · intro q
      rw [(all.here (.inr List.nil_suffix)).2, made.leaf]
    · intro o q notSrc notDst
      rw [all.others notSrc notDst, made.leaf]
  · intro failed
    obtain rfl : done = false := by simpa using failed
    have part : CopyFailed k src dst s₁ g₁ s₂ g₂ := outcome
    refine wp_seq (vmmDestroyUserAddressSpace_spec part.vm ((part.live _).mpr liveDst)) ?_
    rintro _ s₃ ⟨g₃, gone⟩
    have grown := made.toGrow.trans part.toGrow
    have notDst : ∀ {t x}, g.role t = some x → x.1 ≠ .user dst := by
      rintro t ⟨o, p⟩ role rfl
      exact notLive (h.wf.live_of_role role)
    refine ⟨g₃, ⟨grown.evolves.trans gone.evolves, gone.cr3.trans grown.cr3,
      gone.heap.trans grown.heap, ?_, ?_, ?_⟩, gone.vm, ?_, ?_, ?_, ?_⟩
    · intro t x role
      exact (gone.roles t x).mpr ⟨grown.tables role, notDst role⟩
    · intro f free used
      obtain ⟨free₂, _, same⟩ := grown.data free used
      refine ⟨?_, ?_⟩
      · cases role : g₃.role f with
        | none => rfl
        | some x =>
          have role₂ := ((gone.roles f x).mp role).1
          rw [free₂] at role₂
          cases role₂
      · rw [gone.mem (fun x role => by rw [free₂] at role; cases role)]
        exact same
    · intro t o p i role foreign
      have kept : s₃.mem t = s₂.mem t := gone.mem (by
        intro x role₂
        rw [grown.tables role] at role₂
        obtain rfl := Option.some.inj role₂
        exact notDst role)
      rw [kept]
      exact grown.foreign role foreign
    · rw [gone.ext, part.ext, made.ext]
    · intro o
      have dead : (spaceLayout k).Live g₃ o ↔ (spaceLayout k).Live g₂ o ∧ o ≠ .user dst :=
        gone.roles _ _
      rw [dead, part.live, made.live]
      constructor
      · rintro ⟨old | rfl, other⟩
        · exact old
        · exact absurd rfl other
      · intro old
        refine ⟨.inl old, ?_⟩
        rintro rfl
        exact notLive old
    · intro q
      have other : Owner.user src ≠ .user dst := fun eq => ne (Owner.user.inj eq)
      rw [gone.leaf, if_neg other]
      rcases part.source q with same | cow
      · exact .inl (by rw [same, made.leaf])
      · exact .inr (by rw [cow, made.leaf])
    · intro o q notSrc
      rw [gone.leaf]
      by_cases isDst : o = .user dst
      · subst isDst
        rw [if_pos rfl]
        exact (noLeaf q).symm
      · rw [if_neg isDst, part.others notSrc isDst, made.leaf]

end LithiumKernel.Mm
