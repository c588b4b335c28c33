import LithiumKernel.Mm.AddressSpace

/-!
# What the table walks of kernel/mm/vmm.c read

`vmm_get_pte`, `vmm_get_physical` and `vmm_get_flags` descend from a root. For a page
that belongs to the forest all three are functions of the leaf at the page's path, and
`vmm_unmap_page` clears that leaf.
-/
namespace LithiumKernel.Mm

open LithiumKernel.Lib LithiumKernel.Lib.Forest

variable {k : Nat} {s s' : MemState} {g g' : SpaceGhost}

/-- How far the walk for `v` gets from the PDPT of its owner, and the leaf it finds. -/
def WalkBelow (k : Nat) (s : MemState) (g : SpaceGhost) (o : Owner) (pdpt : Nat) (v : Word) : Prop :=
  let e₃ := s.mem pdpt (pdptIdx v)
  let e₂ := s.mem (frameOf e₃) (pdIdx v)
  e₃ = 0#64 ∧ g.leaf (o, pagePath v) = 0#64 ∨
  (spaceLayout k).linkOk e₃ ∧ (e₂ = 0#64 ∧ g.leaf (o, pagePath v) = 0#64 ∨
    (spaceLayout k).linkOk e₂ ∧
      g.role (frameOf e₂) = some (o, [pdIdx v, pdptIdx v, pml4Idx v]) ∧
      g.leaf (o, pagePath v) = s.mem (frameOf e₂) (ptIdx v))

theorem Vm.leaf_present (h : Vm k s g) {x : Owner × List Idx} (filled : g.leaf x ≠ 0#64) :
    g.leaf x &&& vmmPresent ≠ 0#64 := by
  have ok := (h.wf.leaf filled).1
  rcases x with ⟨_ | r, q⟩
  · exact ok
  · rw [ne_eq, and_present, (leafOk_user_iff.mp ok).1]
    decide

theorem Vm.walkBelow (h : Vm k s g) {o : Owner} {pdpt : Nat} {v : Word}
    (at_pdpt : g.role pdpt = some (o, [pml4Idx v])) (own₃ : ownsSlot o [pml4Idx v] (pdptIdx v))
    (own₂ : ownsSlot o [pdptIdx v, pml4Idx v] (pdIdx v))
    (base : (spaceLayout k).base o <:+ [pml4Idx v]) : WalkBelow k s g o pdpt v := by
  have own₁ : ownsSlot o [pdIdx v, pdptIdx v, pml4Idx v] (ptIdx v) := by
    cases o <;> trivial
  by_cases vacant₃ : s.mem pdpt (pdptIdx v) = 0#64
  · exact .inl ⟨vacant₃, h.wf.leaf_below_empty at_pdpt (by simp [spaceLayout]) base vacant₃
      ⟨[ptIdx v, pdIdx v], rfl⟩⟩
  obtain ⟨link₃, at_pd⟩ := h.wf.link at_pdpt (by simp [spaceLayout]) own₃ vacant₃
  refine .inr ⟨link₃, ?_⟩
  by_cases vacant₂ : s.mem (frameOf (s.mem pdpt (pdptIdx v))) (pdIdx v) = 0#64
  · exact .inl ⟨vacant₂, h.wf.leaf_below_empty at_pd (by simp [spaceLayout])
      (base.trans ⟨[pdptIdx v], rfl⟩) vacant₂ ⟨[ptIdx v], rfl⟩⟩
  obtain ⟨link₂, at_pt⟩ := h.wf.link at_pd (by simp [spaceLayout]) own₂ vacant₂
  exact .inr ⟨link₂, at_pt, h.wf.leaf_mem at_pt rfl own₁⟩

section Reads

variable {o : Owner} {pml4 : Nat} {v : Word}

theorem vmmGetPte_below (top : s.mem pml4 (pml4Idx v) &&& vmmPresent ≠ 0#64)
    (below : WalkBelow k s g o (frameOf (s.mem pml4 (pml4Idx v))) v) :
    vmmGetPte s.mem pml4 v = none ∧ g.leaf (o, pagePath v) = 0#64 ∨
    ∃ t, vmmGetPte s.mem pml4 v = some (t, ptIdx v) ∧
      g.role t = some (o, [pdIdx v, pdptIdx v, pml4Idx v]) ∧
      g.leaf (o, pagePath v) = s.mem t (ptIdx v) := by
  rcases below with ⟨vacant, empty⟩ | ⟨⟨present₃, huge₃⟩, ⟨vacant, empty⟩ |
    ⟨⟨present₂, huge₂⟩, at_pt, leaf⟩⟩
  · exact .inl ⟨by simp [vmmGetPte, vacant], empty⟩
  · exact .inl ⟨by simp [vmmGetPte, vacant], empty⟩
  · exact .inr ⟨_, by simp [vmmGetPte, top, present₃, huge₃, present₂, huge₂], at_pt, leaf⟩

theorem vmmGetFlags_below (h : Vm k s g) (top : s.mem pml4 (pml4Idx v) &&& vmmPresent ≠ 0#64)
    (below : WalkBelow k s g o (frameOf (s.mem pml4 (pml4Idx v))) v) :
    vmmGetFlags s.mem pml4 v = g.leaf (o, pagePath v) &&& ~~~vmmPhysMask := by
  rcases below with ⟨vacant, empty⟩ | ⟨⟨present₃, huge₃⟩, ⟨vacant, empty⟩ |
    ⟨⟨present₂, huge₂⟩, _, leaf⟩⟩
  · simp [vmmGetFlags, vacant, empty]
  · simp [vmmGetFlags, top, present₃, huge₃, vacant, empty]
  · by_cases filled : g.leaf (o, pagePath v) = 0#64
    · have vacant := leaf.symm.trans filled
      simp [vmmGetFlags, top, present₃, huge₃, present₂, huge₂, filled, vacant]
    · have present := h.leaf_present filled
      rw [leaf] at present
      simp [vmmGetFlags, top, present₃, huge₃, present₂, huge₂, present, leaf]

theorem vmmGetPhysical_below (h : Vm k s g) (top : s.mem pml4 (pml4Idx v) &&& vmmPresent ≠ 0#64)
    (below : WalkBelow k s g o (frameOf (s.mem pml4 (pml4Idx v))) v) :
    vmmGetPhysical s.mem pml4 v =
      if g.leaf (o, pagePath v) = 0#64 then none
      else some ((g.leaf (o, pagePath v) &&& vmmPhysMask) ||| (v &&& 0xFFF#64)) := by
  rcases below with ⟨vacant, empty⟩ | ⟨⟨present₃, huge₃⟩, ⟨vacant, empty⟩ |
    ⟨⟨present₂, huge₂⟩, _, leaf⟩⟩
  · simp [vmmGetPhysical, vacant, empty]
  · simp [vmmGetPhysical, top, present₃, huge₃, vacant, empty]
  · by_cases filled : g.leaf (o, pagePath v) = 0#64
    · have vacant := leaf.symm.trans filled
      simp [vmmGetPhysical, top, present₃, huge₃, present₂, huge₂, filled, vacant]
    · have present := h.leaf_present filled
      have filled' := filled
      rw [leaf] at present filled'
      simp [vmmGetPhysical, top, present₃, huge₃, present₂, huge₂, present, leaf, filled']

theorem vmmUnmapPage_below {post : Unit → MemState → Prop} {halt : Kassert → MemState → Prop}
    (top : s.mem pml4 (pml4Idx v) &&& vmmPresent ≠ 0#64)
    (below : WalkBelow k s g o (frameOf (s.mem pml4 (pml4Idx v))) v)
    (empty : g.leaf (o, pagePath v) = 0#64 → post () s)
    (cleared : ∀ t, g.role t = some (o, [pdIdx v, pdptIdx v, pml4Idx v]) →
      g.leaf (o, pagePath v) = s.mem t (ptIdx v) → s.mem t (ptIdx v) ≠ 0#64 →
      post () { s with mem := store s.mem t (ptIdx v) 0#64 }) :
    wp (vmmUnmapPage pml4 v) post halt s := by
  simp only [vmmUnmapPage, wp_bind, wp_readEntry, if_neg top]
  rcases below with ⟨vacant, leaf⟩ | ⟨⟨present₃, huge₃⟩, ⟨vacant, leaf⟩ |
    ⟨⟨present₂, huge₂⟩, at_pt, leaf⟩⟩
  · simpa [vacant] using empty leaf
  · simpa [present₃, vacant, wp_bind] using empty leaf
  · have walked : ¬ (s.mem (frameOf (s.mem (frameOf (s.mem pml4 (pml4Idx v))) (pdptIdx v)))
        (pdIdx v) &&& vmmPresent = 0#64 ∨ s.mem (frameOf (s.mem (frameOf (s.mem pml4
        (pml4Idx v))) (pdptIdx v))) (pdIdx v) &&& vmmHuge ≠ 0#64) := by
      simp [present₂, huge₂]
    rw [if_neg present₃, wp_bind, wp_readEntry, if_neg walked, wp_writeEntry]
    by_cases filled : g.leaf (o, pagePath v) = 0#64
    · rw [store_eq_self (leaf.symm.trans filled)]
      exact empty filled
    · exact cleared _ at_pt leaf (fun vacant => filled (leaf.trans vacant))

end Reads

/-! ## Pages of a user space -/

section User

variable {r : Nat} {v : Word}

/-- From its root, a user space either has no PDPT for the page or walks on in it. -/
theorem Vm.walkUser (h : Vm k s g) (live : (spaceLayout k).Live g (.user r)) (page : UserPage v) :
    s.mem r (pml4Idx v) = 0#64 ∧ g.leaf (.user r, pagePath v) = 0#64 ∨
    s.mem r (pml4Idx v) &&& vmmPresent ≠ 0#64 ∧
      WalkBelow k s g (.user r) (frameOf (s.mem r (pml4Idx v))) v := by
  by_cases vacant : s.mem r (pml4Idx v) = 0#64
  · exact .inl ⟨vacant, h.wf.leaf_below_empty live (by simp [spaceLayout]) (List.suffix_refl _)
      vacant ⟨[ptIdx v, pdIdx v, pdptIdx v], rfl⟩⟩
  · obtain ⟨link, at_pdpt⟩ := h.wf.link live (by simp [spaceLayout]) page.1 vacant
    exact .inr ⟨link.1, h.walkBelow at_pdpt page.2 trivial ⟨[pml4Idx v], rfl⟩⟩

theorem vmmGetPte_user (h : Vm k s g) (live : (spaceLayout k).Live g (.user r))
    (page : UserPage v) :
    vmmGetPte s.mem r v = none ∧ g.leaf (.user r, pagePath v) = 0#64 ∨
    ∃ t, vmmGetPte s.mem r v = some (t, ptIdx v) ∧
      g.role t = some (.user r, [pdIdx v, pdptIdx v, pml4Idx v]) ∧
      g.leaf (.user r, pagePath v) = s.mem t (ptIdx v) := by
  rcases h.walkUser live page with ⟨vacant, leaf⟩ | ⟨top, below⟩
  · exact .inl ⟨by simp [vmmGetPte, vacant], leaf⟩
  · exact vmmGetPte_below top below

theorem vmmGetFlags_user (h : Vm k s g) (live : (spaceLayout k).Live g (.user r))
    (page : UserPage v) :
    vmmGetFlags s.mem r v = g.leaf (.user r, pagePath v) &&& ~~~vmmPhysMask := by
  rcases h.walkUser live page with ⟨vacant, leaf⟩ | ⟨top, below⟩
  · simp [vmmGetFlags, vacant, leaf]
  · exact vmmGetFlags_below h top below

theorem vmmGetPhysical_user (h : Vm k s g) (live : (spaceLayout k).Live g (.user r))
    (page : UserPage v) :
    vmmGetPhysical s.mem r v =
      if g.leaf (.user r, pagePath v) = 0#64 then none
      else some ((g.leaf (.user r, pagePath v) &&& vmmPhysMask) ||| (v &&& 0xFFF#64)) := by
  rcases h.walkUser live page with ⟨vacant, leaf⟩ | ⟨top, below⟩
  · simp [vmmGetPhysical, vacant, leaf]
  · exact vmmGetPhysical_below h top below

theorem vmmUnmapPage_user {post : Unit → MemState → Prop} {halt : Kassert → MemState → Prop}
    (h : Vm k s g) (live : (spaceLayout k).Live g (.user r)) (page : UserPage v)
    (empty : g.leaf (.user r, pagePath v) = 0#64 → post () s)
    (cleared : ∀ t, g.role t = some (.user r, [pdIdx v, pdptIdx v, pml4Idx v]) →
      g.leaf (.user r, pagePath v) = s.mem t (ptIdx v) → s.mem t (ptIdx v) ≠ 0#64 →
      post () { s with mem := store s.mem t (ptIdx v) 0#64 }) :
    wp (vmmUnmapPage r v) post halt s := by
  rcases h.walkUser live page with ⟨vacant, leaf⟩ | ⟨top, below⟩
  · simpa [vmmUnmapPage, wp_bind, vacant] using empty leaf
  · exact vmmUnmapPage_below top below empty cleared

end User

end LithiumKernel.Mm
