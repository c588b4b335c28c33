import LithiumKernel.Mm.System

/-!
# Pages of the kernel heap (kernel/mm/heap.c)

The heap takes virtual addresses from `vmm_alloc_kernel`, which never hands one out
twice, and maps frames there for the kernel only. This is the part of `kmalloc` and `kfree`
that changes mappings; the objects inside the pages are in `HeapObjects`, the counters in
`HeapFailure`. `none` stands for `NULL`.
-/
namespace LithiumKernel.Mm

open LithiumKernel.Lib LithiumKernel.Lib.Forest

/-- Takes a frame from the pool and maps it at a kernel address of the current space. -/
def mapKernelPage (virt : Word) : MmM Bool := do
  match ← allocFrame with
  | none => pure false
  | some phys =>
    let cr3 := (← get).cr3
    mapOrFree cr3 virt phys vmmWrite

/-- The mapping part of `slab_alloc_page`. -/
def slabAllocPage : MmM (Option Word) := do
  match ← allocFrame with
  | none => pure none
  | some phys =>
    let virt ← vmmAllocKernel pageSize
    let cr3 := (← get).cr3
    if ← mapOrFree cr3 virt phys vmmWrite then pure (some virt) else pure none

/-- The bytes a large allocation takes, header included. -/
def largeBytes (size : Word) : Word := alignUp (size + 16#64) pageSize

/-- The large path of `kmalloc`. Pages mapped before a failure stay mapped. -/
def kmallocLarge (size : Word) : MmM (Option Word) := do
  let bytes := largeBytes size
  let virt ← vmmAllocKernel bytes
  let mapped ← (List.range (bytes.toNat / 4096)).allM fun i =>
    mapKernelPage (virt + BitVec.ofNat 64 (i * 4096))
  if mapped then pure (some (virt + 16#64)) else pure none

/-- One page of the large path of `kfree`. -/
def unmapKernelPage (virt : Word) : MmM Unit := do
  let s ← get
  match vmmGetPhysical s.mem s.cr3 virt with
  | none => vmmUnmapPage s.cr3 virt
  | some phys => do
    freeFrame phys
    vmmUnmapPage s.cr3 virt

/-- The large path of `kfree`: `virt` and `pages` are what the header says. -/
def kfreeLarge (virt : Word) (pages : Nat) : MmM Unit :=
  forM (List.range pages) fun i => unmapKernelPage (virt + BitVec.ofNat 64 (i * 4096))

/-! ## Pages of the heap -/

variable {K : KernelTables} {roots : List Nat} {s s' : MemState} {g g' : SpaceGhost}

/-- A heap address lies in a slot of the kernel. -/
theorem heap_indices {v : Word} (above : heapBase ≤ v) :
    pml4Idx v = 511 ∧ 510 ≤ (pdptIdx v).val ∧ ¬ (pdptIdx v = 510 ∧ pdIdx v = 0) := by
  have low : 0xFFFFFFFF80200000 ≤ v.toNat := above
  have high := v.isLt
  have pml4 : (pml4Idx v).val = v.toNat / 2 ^ 39 % 512 := idxOf_shift_val v 39
  have pdpt : (pdptIdx v).val = v.toNat / 2 ^ 30 % 512 := idxOf_shift_val v 30
  have pd : (pdIdx v).val = v.toNat / 2 ^ 21 % 512 := idxOf_shift_val v 21
  refine ⟨Fin.ext ?_, ?_, ?_⟩
  · rw [pml4]
    change _ = 511
    omega
  · omega
  · rintro ⟨first, second⟩
    rw [first] at pdpt
    rw [second] at pd
    change 510 = _ at pdpt
    change 0 = _ at pd
    omega

/-- Mapping a held frame at a heap address of any root. -/
theorem vmmMapPage_heap {k : Nat} (h : Vm k s g) (flags : Word) {r f : Nat} {v : Word}
    (entry : s.mem r 511 = tableEntry (frameAddr k)) (at_pdpt : g.role k = some (.kernel, [511]))
    (above : heapBase ≤ v) (lt : f < s.pmm.totalFrames) (held : 0 < g.ext f)
    (supervisor : flags &&& vmmUser = 0#64) :
    wp (vmmMapPage r v (frameAddr f) flags) (fun done s' => ∃ g',
      MapResult k s g (.kernel, pagePath v) (leafEntry (frameAddr f) flags) done s' g')
      Saturated s := by
  obtain ⟨top, own₃, own₂⟩ := heap_indices above
  have small : k < 2 ^ 40 := h.frame_small (h.wf.table_lt at_pdpt)
  have ok : (spaceLayout k).leafOk .kernel (leafEntry (frameAddr f) flags) := by
    change leafEntry (frameAddr f) flags &&& vmmPresent ≠ 0#64
    rw [ne_eq, and_present, leafEntry_low f flags (by decide)]
    simp
  rw [← top] at at_pdpt entry
  unfold vmmMapPage ptWalkOrAlloc markUser
  simp only [wp_bind, wp_readEntry, entry, if_pos (tableEntry_present k), wp_pure,
    if_neg (not_not.mpr supervisor), tableEntry_frame small]
  exact mapBelowPdpt_spec h at_pdpt (by rw [top]; exact own₃) own₂ lt held ok

/-- A frame from the pool is mapped at a heap address of any root that has the kernel's PDPT. -/
theorem Vm.mapOrFree_fresh {k r : Nat} (h : Vm k s g)
    (entry : s.mem r 511 = tableEntry (frameAddr k)) (at_pdpt : g.role k = some (.kernel, [511]))
    {f : Nat} {q : Pmm} {v : Word} (above : heapBase ≤ v) (lt : f < s.pmm.totalFrames)
    (zero : s.pmm.refcount f = 0) (evolves : s.pmm.Evolves q)
    (counts : q.refcount = Function.update s.pmm.refcount f 1) :
    wp (mapOrFree r v (frameAddr f) vmmWrite) (fun done s' => ∃ g',
      FreshResult k s g (.kernel, pagePath v) vmmWrite (s.mem f) done s' g')
      Saturated { s with pmm := q } := by
  have same : Function.update s.mem f (s.mem f) = s.mem := Function.update_eq_self f s.mem
  have held := (h.fresh lt zero evolves counts (s.mem f)).2
  have mapped := vmmMapPage_heap (r := r) (v := v) held vmmWrite ?_ at_pdpt above
    (by change f < q.totalFrames; rwa [evolves.total]) (by simp) (by decide)
  · have fresh := mapOrFree_spec h lt zero evolves counts (s.mem f) mapped
    rw [same] at fresh
    refine wp_imp fresh ?_
    rintro done s' ⟨g', result, _⟩
    exact ⟨g', result⟩
  · change Function.update s.mem f (s.mem f) r 511 = _
    rw [same]
    exact entry

theorem System.mapOrFree_fresh (h : System K roots s g) {f : Nat} {q : Pmm} {v : Word}
    (above : heapBase ≤ v) (lt : f < s.pmm.totalFrames) (zero : s.pmm.refcount f = 0)
    (evolves : s.pmm.Evolves q) (counts : q.refcount = Function.update s.pmm.refcount f 1) :
    wp (mapOrFree s.cr3 v (frameAddr f) vmmWrite) (fun done s' => ∃ g',
      FreshResult K.pdptHh s g (.kernel, pagePath v) vmmWrite (s.mem f) done s' g')
      Saturated { s with pmm := q } :=
  h.vm.mapOrFree_fresh (h.topEntry h.cur) h.pdptHh above lt zero evolves counts

theorem System.mapOrFree_heap (h : System K roots s g) {f : Nat} {q : Pmm} {v : Word}
    (above : heapBase ≤ v) (lt : f < s.pmm.totalFrames) (zero : s.pmm.refcount f = 0)
    (evolves : s.pmm.Evolves q) (counts : q.refcount = Function.update s.pmm.refcount f 1) :
    wp (mapOrFree s.cr3 v (frameAddr f) vmmWrite) (fun _ s' => s'.cr3 = s.cr3 ∧
      ∃ g', System K roots s' g') Saturated { s with pmm := q } := by
  refine wp_imp (h.mapOrFree_fresh above lt zero evolves counts) ?_
  rintro done s' ⟨g', result⟩
  exact ⟨result.cr3, g', h.keep result.toGrow.keep (h.toSpaces.fresh result)⟩

/-- The way to a heap page from the loaded root. -/
theorem System.walkHeap (h : System K roots s g) {v : Word} (above : heapBase ≤ v) :
    s.mem s.cr3 (pml4Idx v) &&& vmmPresent ≠ 0#64 ∧
      WalkBelow K.pdptHh s g .kernel (frameOf (s.mem s.cr3 (pml4Idx v))) v := by
  obtain ⟨first, own₃, own₂⟩ := heap_indices above
  have entry := h.topEntry h.cur
  have at_pdpt := h.pdptHh
  rw [← first] at entry at_pdpt
  rw [entry]
  refine ⟨tableEntry_present _, ?_⟩
  rw [tableEntry_frame h.pdptHh_small]
  exact h.vm.walkBelow at_pdpt (by rw [first]; exact own₃) own₂
    (by rw [first]; exact List.suffix_refl _)

theorem System.heapPhysical (h : System K roots s g) {v : Word} (above : heapBase ≤ v) :
    vmmGetPhysical s.mem s.cr3 v =
      if g.leaf (.kernel, pagePath v) = 0#64 then none
      else some ((g.leaf (.kernel, pagePath v) &&& vmmPhysMask) ||| (v &&& 0xFFF#64)) :=
  vmmGetPhysical_below h.vm (h.walkHeap above).1 (h.walkHeap above).2

/-- A heap page of the loaded root is unmapped and its frame given back. -/
theorem System.unmapKernelPage_spec (h : System K roots s g) {v : Word} (above : heapBase ≤ v)
    (aligned : v.toNat % 4096 = 0) :
    wp (unmapKernelPage v) (fun _ s' => s' = s ∧ g.leaf (.kernel, pagePath v) = 0#64 ∨
      ∃ g', Unmapped K.pdptHh (.kernel, pagePath v) s g s' g') Saturated s := by
  obtain ⟨top, below⟩ := h.walkHeap above
  unfold unmapKernelPage
  rw [wp_bind, wp_get, h.heapPhysical above]
  by_cases empty : g.leaf (.kernel, pagePath v) = 0#64
  · rw [if_pos empty]
    exact vmmUnmapPage_below top below (fun _ => .inl ⟨rfl, empty⟩)
      (fun t _ leaf filled => absurd (leaf.symm.trans empty) filled)
  · obtain ⟨_, lt, _, pos⟩ := h.vm.leaf_facts empty
    rw [if_neg empty, and_page_mask aligned, BitVec.or_zero, and_physMask]
    dsimp only
    rw [wp_bind]
    refine freeFrame_spec h.vm.ok lt pos ?_
    intro q evolves counts
    refine vmmUnmapPage_below (s := { s with pmm := q }) top below (fun no => absurd no empty) ?_
    intro t at_t leaf filled
    rw [leaf] at counts
    exact .inr ⟨_, h.vm.unmapLeaf at_t rfl trivial filled evolves counts⟩

section Sound

variable {c : Nat}

theorem System.reserve (h : System K roots s g) {w : Word} (above : heapBase ≤ w) :
    System K roots { s with kheapNext := w } g :=
  ⟨⟨⟨h.vm.ok, h.vm.wf⟩, h.live, h.nodup, h.held, h.shared, h.apart, h.window, h.kernel, h.entrance,
    h.upper, h.cur⟩, h.pdptHh, h.pdHh, h.covered, above⟩

theorem mapKernelPage_sound {v : Word} (above : heapBase ≤ v) (h : Sound K roots c s) :
    wp (mapKernelPage v) (fun _ s' => Sound K roots c s') Saturated s := by
  obtain ⟨rfl, g, sys⟩ := h
  unfold mapKernelPage
  rw [wp_bind]
  apply allocFrame_spec sys.vm
  · intro _
    exact ⟨rfl, g, sys⟩
  · intro f q lt zero evolves counts _
    exact sys.mapOrFree_heap above lt zero evolves counts

/-- The heap moves on without passing the end of the address space. -/
theorem heap_next (size : Word) (above : heapBase ≤ s.kheapNext)
    (room : s.kheapNext.toNat + (alignUp size pageSize).toNat < 2 ^ 64) :
    heapBase ≤ s.kheapNext + alignUp size pageSize := by
  rw [BitVec.le_def] at above ⊢
  rw [BitVec.toNat_add, Nat.mod_eq_of_lt room]
  omega

theorem slabAllocPage_sound (room : s.kheapNext.toNat + 4096 < 2 ^ 64) (h : Sound K roots c s) :
    wp slabAllocPage (fun _ s' => Sound K roots c s') Saturated s := by
  obtain ⟨rfl, g, sys⟩ := h
  unfold slabAllocPage
  rw [wp_bind]
  apply allocFrame_spec sys.vm
  · intro _
    exact ⟨rfl, g, sys⟩
  · intro f q lt zero evolves counts _
    have next := sys.reserve (heap_next pageSize sys.heap room)
    simp only [vmmAllocKernel, wp_bind, wp_get, wp_modify, wp_pure]
    refine wp_imp (next.mapOrFree_heap sys.heap lt zero evolves counts) ?_
    intro done s' after
    cases done <;> exact after

theorem kmallocLarge_sound {size : Word}
    (room : s.kheapNext.toNat + (largeBytes size).toNat < 2 ^ 64) (h : Sound K roots c s) :
    wp (kmallocLarge size) (fun _ s' => Sound K roots c s') Saturated s := by
  obtain ⟨rfl, g, sys⟩ := h
  have value := alignUp_page_toNat (size + 16#64)
  have twice := alignUp_page_toNat (largeBytes size)
  have same : (alignUp (largeBytes size) pageSize).toNat = (largeBytes size).toNat := by
    rw [twice, largeBytes, value]
    omega
  have next := sys.reserve (heap_next (largeBytes size) sys.heap (by rwa [same]))
  unfold kmallocLarge
  simp only [vmmAllocKernel, wp_bind, wp_get, wp_modify, wp_pure]
  refine wp_imp (wp_allM_inv (Sound K roots s.cr3) ?_ ⟨rfl, g, next⟩) ?_
  · intro i member s₁ now
    refine mapKernelPage_sound ?_ now
    have lt := List.mem_range.mp member
    have above := sys.heap
    rw [BitVec.le_def] at above ⊢
    rw [BitVec.toNat_add, BitVec.toNat_ofNat]
    omega
  · intro mapped s' after
    cases mapped <;> exact after

theorem unmapKernelPage_sound {v : Word} (above : heapBase ≤ v) (aligned : v.toNat % 4096 = 0)
    (h : Sound K roots c s) :
    wp (unmapKernelPage v) (fun _ s' => Sound K roots c s') Saturated s := by
  obtain ⟨rfl, g, sys⟩ := h
  refine wp_imp (sys.unmapKernelPage_spec above aligned) ?_
  rintro _ s' (⟨rfl, _⟩ | ⟨g', gone⟩)
  · exact ⟨rfl, g, sys⟩
  · exact ⟨gone.cr3, g', sys.keep gone.toKeep (sys.toSpaces.unmapped gone)⟩

/-- `kfree` of a block of the heap. -/
theorem kfreeLarge_sound {v : Word} {pages : Nat} (above : heapBase ≤ v)
    (aligned : v.toNat % 4096 = 0) (room : v.toNat + pages * 4096 ≤ 2 ^ 64)
    (h : Sound K roots c s) :
    wp (kfreeLarge v pages) (fun _ s' => Sound K roots c s') Saturated s := by
  refine wp_forM_inv (Sound K roots c) ?_ h
  intro i member s₁ now
  have lt := List.mem_range.mp member
  have value : (v + BitVec.ofNat 64 (i * 4096)).toNat = v.toNat + i * 4096 := by
    rw [BitVec.toNat_add, BitVec.toNat_ofNat]
    omega
  refine unmapKernelPage_sound ?_ (by rw [value]; omega) now
  rw [BitVec.le_def] at above ⊢
  omega

end Sound

end LithiumKernel.Mm
