import LithiumKernel.Mm.AddressSpace

/-!
# The kernel's own tables (kernel/mm/vmm.c, `vmm_init`)

`vmm_init` builds the kernel root: the identity window [0, 1 GiB) behind `PML4[0]`, with
holes for the null page and the stack guard, and the higher-half alias behind
`PML4[511]`. `Booted` is the state it leaves. The tables behind the window are shared
with every address space, so their contents are recorded exactly.
-/
namespace LithiumKernel.Mm

open LithiumKernel.Lib LithiumKernel.Lib.Forest

/-- The frames `vmm_init` takes from the pool, and the hole below the boot stack. -/
structure KernelTables where
  pml4 : Nat
  pt0 : Nat
  pd0 : Nat
  pdptId : Nat
  pdptHh : Nat
  pdHh : Nat
  guardPhys : Word

namespace KernelTables

def frames (K : KernelTables) : List Nat := [K.pdHh, K.pdptHh, K.pdptId, K.pd0, K.pt0, K.pml4]

/-- The tables behind the identity window. -/
structure Window (K : KernelTables) (mem : PhysMem) : Prop where
  pd0 : ∀ i, mem K.pd0 i = if i = 0 then tableEntry (frameAddr K.pt0) else identityHuge i
  pt0 : ∀ i, mem K.pt0 i =
    if i = 0 ∨ BitVec.ofNat 64 (i.val * 4096) = K.guardPhys then 0#64 else identityPage i

/-- The root of the kernel and the PDPT of its lower half. -/
structure Root (K : KernelTables) (mem : PhysMem) : Prop where
  pml4 : ∀ i, mem K.pml4 i =
    if i = 0 then tableEntry (frameAddr K.pdptId)
    else if i = 511 then tableEntry (frameAddr K.pdptHh) else 0#64
  pdptId : ∀ i, mem K.pdptId i = if i = 0 then tableEntry (frameAddr K.pd0) else 0#64

/-- The higher-half alias: one 2 MiB page over physical address 0. -/
structure Alias (K : KernelTables) (mem : PhysMem) : Prop where
  pdptHh : ∀ i, mem K.pdptHh i = if i = 510 then tableEntry (frameAddr K.pdHh) else 0#64
  pdHh : ∀ i, mem K.pdHh i = if i = 0 then 0#64 ||| vmmPresent ||| vmmWrite ||| vmmHuge else 0#64

end KernelTables

/-- The state after `vmm_init`. -/
structure Booted (K : KernelTables) (kernelEnd : Word) (s : MemState) : Prop where
  ok : s.pmm.Ok
  distinct : K.frames.Nodup
  used : ∀ f ∈ K.frames, f < s.pmm.totalFrames ∧ s.pmm.refcount f = 1
  window : K.Window s.mem
  root : K.Root s.mem
  high : K.Alias s.mem
  cr3 : s.cr3 = K.pml4
  heap : s.kheapNext = alignUp (kernelVma + kernelEnd) 0x200000#64

/-! ## vmm_init -/

variable {s : MemState} {fs : List Nat}

/-- The frames `fs` have been taken, one after the other. -/
structure Taken (fs : List Nat) (p : Pmm) : Prop where
  ok : p.Ok
  distinct : fs.Nodup
  used : ∀ f ∈ fs, f < p.totalFrames ∧ p.refcount f = 1

def OutOfFrames (e : Kassert) (_ : MemState) : Prop := e = .initAlloc

theorem allocTable_spec (taken : Taken fs s.pmm) {post : Nat → MemState → Prop}
    (made : ∀ f q, Taken (f :: fs) q →
      post f { s with pmm := q, mem := Function.update s.mem f (fun _ => 0#64) }) :
    wp allocTable post OutOfFrames s := by
  unfold allocTable
  rw [wp_bind, wp_allocFrame]
  rcases pmmAllocFrame_spec taken.ok with ⟨f, q, run, evolves, lt, free, counts⟩ | run
  · have small : f < 2 ^ 40 := lt_of_lt_of_le lt (le_trans taken.ok.total_le (by decide))
    have zero := taken.ok.free_zero f lt free
    have new : f ∉ fs := by
      intro member
      have used := (taken.used f member).2
      omega
    have next : Taken (f :: fs) q := by
      refine ⟨evolves.ok, List.nodup_cons.mpr ⟨new, taken.distinct⟩, ?_⟩
      intro f' member
      rw [evolves.total, counts]
      rcases List.mem_cons.mp member with rfl | old
      · exact ⟨lt, Function.update_self ..⟩
      · have ne : f' ≠ f := by
          rintro rfl
          exact new old
        rw [Function.update_of_ne ne]
        exact taken.used f' old
    rw [run]
    simp only [wp_bind, wp_zeroFrame, wp_pure, frameOf_frameAddr small]
    exact made f q next
  · rw [run]
    exact rfl

/-- A loop that fills slots of one table. -/
theorem fillTable_spec {post : Unit → MemState → Prop} {halt : Kassert → MemState → Prop}
    {xs : List Idx} {body : Idx → MmM Unit} (t : Nat) (value : Idx → Option Word)
    (write : ∀ i s, body i s = .ok () { s with
      mem := match value i with
        | some w => store s.mem t i w
        | none => s.mem })
    (filled : post () { s with
      mem := Function.update s.mem t (fun i =>
        if i ∈ xs then (value i).getD (s.mem t i) else s.mem t i) }) :
    wp (forM xs body) post halt s := by
  refine wp_imp (wp_forM (fun done s' => s' = { s with
    mem := Function.update s.mem t (fun i =>
      if i ∈ done then (value i).getD (s.mem t i) else s.mem t i) }) xs ?_ ?_) ?_
  · rintro done i rest s' split rfl
    rw [wp, write]
    congr 1
    funext f j
    by_cases slot : f = t ∧ j = i
    · obtain ⟨rfl, rfl⟩ := slot
      cases entry : value j <;> simp [entry]
    · have other : f = t → j ≠ i := fun here same => slot ⟨here, same⟩
      by_cases here : f = t
      · subst here
        have ne := other rfl
        cases value i <;> simp [store_of_ne _ _ slot, ne]
      · cases value i <;> simp [store_of_ne _ _ slot, here]
  · simp
  · rintro _ s' rfl
    exact filled

theorem vmmInit_spec (ok : s.pmm.Ok) (guardPhys kernelEnd : Word) :
    wp (vmmInit guardPhys kernelEnd) (fun _ s' => ∃ K : KernelTables, K.guardPhys = guardPhys ∧
      Booted K kernelEnd s') OutOfFrames s := by
  unfold vmmInit
  rw [wp_bind]
  have start : Taken [] s.pmm := ⟨ok, List.nodup_nil, by simp⟩
  refine allocTable_spec start ?_
  intro pml4 q₁ taken₁
  rw [wp_bind]
  refine allocTable_spec taken₁ ?_
  intro pt0 q₂ taken₂
  rw [wp_bind]
  refine fillTable_spec pt0 (fun i => if BitVec.ofNat 64 (i.val * 4096) = guardPhys then none
    else some (identityPage i)) ?_ ?_
  · intro i s'
    split <;> rfl
  rw [wp_bind]
  refine allocTable_spec taken₂ ?_
  intro pd0 q₃ taken₃
  rw [wp_bind, wp_writeEntry, wp_bind]
  refine fillTable_spec pd0 (fun i => some (identityHuge i)) (fun i s' => rfl) ?_
  rw [wp_bind]
  refine allocTable_spec taken₃ ?_
  intro pdptId q₄ taken₄
  rw [wp_bind, wp_writeEntry, wp_bind, wp_writeEntry, wp_bind]
  refine allocTable_spec taken₄ ?_
  intro pdptHh q₅ taken₅
  rw [wp_bind]
  refine allocTable_spec taken₅ ?_
  intro pdHh q₆ taken₆
  simp only [wp_bind, wp_writeEntry, vmmSwitch, wp_modify]
  have distinct := taken₆.distinct
  simp only [List.nodup_cons, List.mem_cons, List.not_mem_nil, or_false, not_or] at distinct
  obtain ⟨⟨h₁, h₂, h₃, h₄, h₅⟩, ⟨h₆, h₇, h₈, h₉⟩, ⟨h₁₀, h₁₁, h₁₂⟩, ⟨h₁₃, h₁₄⟩, h₁₅, -⟩ := distinct
  refine ⟨⟨pml4, pt0, pd0, pdptId, pdptHh, pdHh, guardPhys⟩, rfl, taken₆.ok, taken₆.distinct,
    taken₆.used, ⟨?_, ?_⟩, ⟨?_, ?_⟩, ⟨?_, ?_⟩, rfl, rfl⟩
  -- what is left of the writes above in each of the six frames
  all_goals
    intro i
    simp only [store, Function.update_apply, h₁, h₅, h₉, h₁₀, h₁₂, h₁₃, h₁₄, h₁₅,
      Ne.symm h₁, Ne.symm h₂, Ne.symm h₃, Ne.symm h₄, Ne.symm h₅, Ne.symm h₆, Ne.symm h₇,
      Ne.symm h₈, Ne.symm h₉, Ne.symm h₁₀, Ne.symm h₁₁, Ne.symm h₁₂, Ne.symm h₁₃, Ne.symm h₁₄,
      Ne.symm h₁₅, false_and, true_and, if_false, if_true]
  · by_cases first : i = 0 <;> simp [first]
  · by_cases first : i = 0 <;> by_cases guard : BitVec.ofNat 64 (i.val * 4096) = guardPhys <;>
      simp [first, guard]
  · by_cases first : i = 0 <;> simp [first]

/-! ## Reading through the window -/

def InWindow (v : Word) : Prop := pml4Idx v = 0 ∧ pdptIdx v = 0

theorem userPage_or_window {v : Word} (below : v < userSpaceTop) : UserPage v ∨ InWindow v := by
  by_cases window : InWindow v
  · exact .inr window
  · refine .inl ⟨?_, window⟩
    have lt : v.toNat < 2 ^ 47 := below
    rw [pml4Idx, idxOf_shift_val]
    omega

/-- `PML4[0]` and `PDPT[0]` of the root lead to the shared PD of the window. -/
structure KernelTables.Reaches (K : KernelTables) (mem : PhysMem) (root : Nat) : Prop where
  top : mem root 0 &&& vmmPresent ≠ 0#64
  present : mem (frameOf (mem root 0)) 0 &&& vmmPresent ≠ 0#64
  small : mem (frameOf (mem root 0)) 0 &&& vmmHuge = 0#64
  target : frameOf (mem (frameOf (mem root 0)) 0) = K.pd0

/-- The entry that translates an address of the window. -/
def KernelTables.windowEntry (K : KernelTables) (v : Word) : Word :=
  if pdIdx v ≠ 0 then identityHuge (pdIdx v)
  else if ptIdx v = 0 ∨ BitVec.ofNat 64 ((ptIdx v).val * 4096) = K.guardPhys then 0#64
  else identityPage (ptIdx v)

/-- The physical address it stands for. -/
def KernelTables.windowPhys (K : KernelTables) (v : Word) : Option Word :=
  if pdIdx v ≠ 0 then
    some ((identityHuge (pdIdx v) &&& 0x000FFFFFFFE00000#64) ||| (v &&& 0x1FFFFF#64))
  else if ptIdx v = 0 ∨ BitVec.ofNat 64 ((ptIdx v).val * 4096) = K.guardPhys then none
  else some ((identityPage (ptIdx v) &&& vmmPhysMask) ||| (v &&& 0xFFF#64))

section Reads

variable {K : KernelTables} {mem : PhysMem} {root : Nat} {v : Word}

theorem tableEntry_present (f : Nat) : tableEntry (frameAddr f) &&& vmmPresent ≠ 0#64 := by
  rw [ne_eq, and_present, tableEntry_low f (by decide)]
  decide

theorem tableEntry_small (f : Nat) : tableEntry (frameAddr f) &&& vmmHuge = 0#64 := by
  rw [and_huge, tableEntry_low f (by decide)]
  decide

theorem identityPage_eq (i : Idx) : identityPage i = tableEntry (frameAddr i.val) := rfl

theorem identityHuge_eq (i : Idx) :
    identityHuge i = tableEntry (frameAddr (i.val * 512)) ||| vmmHuge := by
  rw [identityHuge, tableEntry, frameAddr]
  simp only [pmmFrameSize, Nat.mul_assoc, Nat.reduceMul]

theorem identityHuge_low (i : Idx) {k : Nat} (low : k < 12) :
    (identityHuge i).getLsbD k = (decide (k = 0 ∨ k = 1) || decide (k = 7)) := by
  rw [identityHuge_eq, BitVec.getLsbD_or, tableEntry_low _ low, vmmHuge, getLsbD_bit _ _ (by omega)]

theorem identityHuge_present (i : Idx) : identityHuge i &&& vmmPresent ≠ 0#64 := by
  rw [ne_eq, and_present, identityHuge_low i (by decide)]
  decide

theorem identityHuge_huge (i : Idx) : identityHuge i &&& vmmHuge ≠ 0#64 := by
  rw [ne_eq, and_huge, identityHuge_low i (by decide)]
  decide

/-- No entry of the window carries a flag other than present, write and huge. -/
theorem KernelTables.windowEntry_low (K : KernelTables) (v : Word) {k : Nat} (low : k < 12)
    (other : k ≠ 0 ∧ k ≠ 1 ∧ k ≠ 7) : (K.windowEntry v).getLsbD k = false := by
  unfold windowEntry
  split
  · rw [identityHuge_low _ low]
    simp [other]
  · split
    · simp
    · rw [identityPage_eq, tableEntry_low _ low]
      simp [other]

theorem vmmGetPte_window (reach : K.Reaches mem root) (window : K.Window mem)
    (lt : K.pt0 < 2 ^ 40) (inside : InWindow v) :
    vmmGetPte mem root v = if pdIdx v = 0 then some (K.pt0, ptIdx v) else none := by
  unfold vmmGetPte
  simp only [inside.1, inside.2, reach.top, reach.present, reach.small, reach.target, window.pd0]
  by_cases first : pdIdx v = 0
  · simp [first, tableEntry_present, tableEntry_small, tableEntry_frame lt]
  · simp [first, identityHuge_present, identityHuge_huge]

theorem vmmGetFlags_window (reach : K.Reaches mem root) (window : K.Window mem)
    (lt : K.pt0 < 2 ^ 40) (inside : InWindow v) :
    vmmGetFlags mem root v = K.windowEntry v &&& ~~~vmmPhysMask := by
  unfold vmmGetFlags KernelTables.windowEntry
  simp only [inside.1, inside.2, reach.top, reach.present, reach.small, reach.target, window.pd0]
  by_cases first : pdIdx v = 0
  · by_cases hole : ptIdx v = 0 ∨ BitVec.ofNat 64 ((ptIdx v).val * 4096) = K.guardPhys
    · simp [first, tableEntry_present, tableEntry_small, tableEntry_frame lt, window.pt0, hole]
    · simp [first, tableEntry_present, tableEntry_small, tableEntry_frame lt, window.pt0, hole,
        identityPage_eq]
  · simp [first, identityHuge_present, identityHuge_huge]

theorem vmmGetPhysical_window (reach : K.Reaches mem root) (window : K.Window mem)
    (lt : K.pt0 < 2 ^ 40) (inside : InWindow v) :
    vmmGetPhysical mem root v = K.windowPhys v := by
  unfold vmmGetPhysical KernelTables.windowPhys
  simp only [inside.1, inside.2, reach.top, reach.present, reach.small, reach.target, window.pd0]
  by_cases first : pdIdx v = 0
  · by_cases hole : ptIdx v = 0 ∨ BitVec.ofNat 64 ((ptIdx v).val * 4096) = K.guardPhys
    · simp [first, tableEntry_present, tableEntry_small, tableEntry_frame lt, window.pt0, hole]
    · simp [first, tableEntry_present, tableEntry_small, tableEntry_frame lt, window.pt0, hole,
        identityPage_eq]
  · simp [first, identityHuge_present, identityHuge_huge]

theorem inWindow_of_lt {v : Word} (low : v.toNat < 2 ^ 30) : InWindow v := by
  refine ⟨Fin.ext ?_, Fin.ext ?_⟩
  · rw [pml4Idx, idxOf_shift_val]
    change _ = 0
    omega
  · rw [pdptIdx, idxOf_shift_val]
    change _ = 0
    omega

/-- The kernel's own root maps nothing in the user half beyond the window. -/
theorem kernelRoot_vacant (root : K.Root mem) (lt : K.pdptId < 2 ^ 40) (page : UserPage v) :
    vmmGetPte mem K.pml4 v = none ∧ vmmGetPhysical mem K.pml4 v = none ∧
      vmmGetFlags mem K.pml4 v = 0#64 := by
  unfold vmmGetPte vmmGetPhysical vmmGetFlags
  by_cases first : pml4Idx v = 0
  · have next : pdptIdx v ≠ 0 := fun zero => page.2 ⟨first, zero⟩
    simp [root.pml4, first, tableEntry_frame lt, root.pdptId, next]
  · have low : pml4Idx v ≠ 511 := by
      intro top
      have half := page.1
      rw [top] at half
      exact absurd half (by decide)
    simp [root.pml4, first, low]

theorem KernelTables.Root.reaches (root : K.Root mem) (idSmall : K.pdptId < 2 ^ 40)
    (pdSmall : K.pd0 < 2 ^ 40) : K.Reaches mem K.pml4 := by
  have top : mem K.pml4 0 = tableEntry (frameAddr K.pdptId) := by simp [root.pml4]
  have pdptId : frameOf (mem K.pml4 0) = K.pdptId := by rw [top, tableEntry_frame idSmall]
  have next : mem K.pdptId 0 = tableEntry (frameAddr K.pd0) := by simp [root.pdptId]
  refine ⟨?_, ?_, ?_, ?_⟩
  · rw [top]
    exact tableEntry_present _
  all_goals rw [pdptId, next]
  · exact tableEntry_present _
  · exact tableEntry_small _
  · exact tableEntry_frame pdSmall

end Reads

/-! ## A small machine -/

/-- 64 frames, of which the first eight are taken: the kernel's six tables among them. -/
def smallTables : KernelTables where
  pml4 := 1
  pt0 := 2
  pd0 := 3
  pdptId := 4
  pdptHh := 5
  pdHh := 6
  guardPhys := 0x7000#64

def smallPool : Pmm where
  bitmap b := if b = 0 then 0xFF#8 else 0#8
  refcount f := if 1 ≤ f ∧ f ≤ 6 then 1 else 0
  totalFrames := 64
  freeFrames := 56
  nextHint := 7

def smallMemory : PhysMem := fun f i =>
  match f with
  | 1 => if i = 0 then tableEntry (frameAddr 4) else if i = 511 then tableEntry (frameAddr 5)
    else 0#64
  | 2 => if i = 0 ∨ BitVec.ofNat 64 (i.val * 4096) = 0x7000#64 then 0#64 else identityPage i
  | 3 => if i = 0 then tableEntry (frameAddr 2) else identityHuge i
  | 4 => if i = 0 then tableEntry (frameAddr 3) else 0#64
  | 5 => if i = 510 then tableEntry (frameAddr 6) else 0#64
  | 6 => if i = 0 then 0#64 ||| vmmPresent ||| vmmWrite ||| vmmHuge else 0#64
  | _ => 0#64

def smallMachine : MemState where
  pmm := smallPool
  mem := smallMemory
  cr3 := 1
  kheapNext := alignUp (kernelVma + 0x180000#64) 0x200000#64

theorem smallPool_ok : smallPool.Ok where
  total_le := by decide
  free_zero := by decide
  count := by decide

theorem smallMachine_booted : Booted smallTables 0x180000#64 smallMachine where
  ok := smallPool_ok
  distinct := by decide
  used := by decide
  window := ⟨fun _ => rfl, fun _ => rfl⟩
  root := ⟨fun _ => rfl, fun _ => rfl⟩
  high := ⟨fun _ => rfl, fun _ => rfl⟩
  cr3 := rfl
  heap := rfl

end LithiumKernel.Mm
