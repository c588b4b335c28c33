import LithiumKernel.Mm.CowIsolation
import LithiumKernel.Mm.HeapRun

/-!
# One kernel half for all address spaces

`vmm_create_address_space` copies the upper half of the root that is loaded, entry by entry.
So all roots translate the upper half alike exactly as long as no upper slot of a root is
filled later: what the heap maps and unmaps must lie below a table that is already shared.
`HalfStep` are the operations of kernel/mm/vmm.c and the page operations of `kmalloc` and
`kfree`, made while any root is loaded. `TameStep` keeps user mappings out of the first 2 MiB,
through which the kernel itself reaches its tables, and the heap inside the address space.
-/
namespace LithiumKernel.Mm

open LithiumKernel.Lib LithiumKernel.Lib.Forest

inductive HalfOp where
  | create
  | clone (root : Nat)
  | destroy (root : Nat)
  | map (root : Nat) (virt flags : Word)
  | switch (root : Nat)
  | slabPage
  | largeAlloc (size : Word)
  | largeFree (virt : Word) (pages : Nat)

/-- The memory, the live address spaces, and the large blocks in use with their pages. -/
structure HalfState where
  mm : MemState
  roots : List Nat
  large : List (Word × Nat)

/-- An operation, with the roots and the large blocks there are after it. -/
def halfExec (roots : List Nat) (large : List (Word × Nat)) :
    HalfOp → MmM (List Nat × List (Word × Nat))
  | .create => do
    match ← vmmCreateAddressSpace with
    | none => pure (roots, large)
    | some r => pure (r :: roots, large)
  | .clone root => do
    match ← vmmCloneUserAddressSpace root with
    | none => pure (roots, large)
    | some r => pure (r :: roots, large)
  | .destroy root => do
    vmmDestroyUserAddressSpace root
    pure (roots.erase root, large)
  | .map root virt flags => do
    let _ ← mapUserZeroPage root virt flags
    pure (roots, large)
  | .switch root => do
    vmmSwitch root
    pure (roots, large)
  | .slabPage => do
    let _ ← slabAllocPage
    pure (roots, large)
  | .largeAlloc size => do
    match ← kmallocLarge size with
    | none => pure (roots, large)
    -- the pointer is 16 bytes into the first page
    | some p => pure (roots, (p - 16#64, (largeBytes size).toNat / 4096) :: large)
  | .largeFree virt pages => do
    kfreeLarge virt pages
    pure (roots, large.erase (virt, pages))

/-- What the callers promise: roots they name are live, the loaded space is not destroyed, a
user mapping is at a user address with `VMM_USER`, and `kfree` gets a block in use. -/
def HalfAllowed (K : KernelTables) (st : HalfState) : HalfOp → Prop
  | .clone root => root ∈ st.roots
  | .destroy root => root ∈ st.roots ∧ root ≠ st.mm.cr3
  | .map root virt flags => root ∈ st.roots ∧ virt < userSpaceTop ∧ flags &&& vmmUser ≠ 0#64
  | .switch root => root = K.pml4 ∨ root ∈ st.roots
  | .largeFree virt pages => (virt, pages) ∈ st.large
  | _ => True

structure HalfStep (K : KernelTables) (st : HalfState) (op : HalfOp) (st' : HalfState) : Prop where
  allowed : HalfAllowed K st op
  ran : halfExec st.roots st.large op st.mm = .ok (st'.roots, st'.large) st'.mm

/-- User pages are mapped from 2 MiB on, and the heap does not pass the end of the address
space. -/
def Tame (st : HalfState) : HalfOp → Prop
  | .map _ virt _ => 2 ^ 21 ≤ virt.toNat
  | .slabPage => st.mm.kheapNext.toNat + 4096 < 2 ^ 64
  | .largeAlloc size => st.mm.kheapNext.toNat + (largeBytes size).toNat < 2 ^ 64
  | _ => True

def TameStep (K : KernelTables) (st : HalfState) (op : HalfOp) (st' : HalfState) : Prop :=
  Tame st op ∧ HalfStep K st op st'

/-- The canonical addresses of the upper half. -/
def UpperHalf (v : Word) : Prop := 0xFFFF800000000000#64 ≤ v

/-- Every live root translates the upper half as the kernel's own root does. -/
def Coherent (K : KernelTables) (st : HalfState) : Prop :=
  ∀ r ∈ st.roots, ∀ v, UpperHalf v →
    vmmGetPhysical st.mm.mem r v = vmmGetPhysical st.mm.mem K.pml4 v ∧
    vmmGetFlags st.mm.mem r v = vmmGetFlags st.mm.mem K.pml4 v

/-! ## Translation starts at the root only once -/

section Roots

variable {mem : PhysMem} {r r' : Nat} {v : Word}

theorem pml4Idx_upper (upper : UpperHalf v) : 256 ≤ (pml4Idx v).val := by
  have low : 0xFFFF800000000000 ≤ v.toNat := upper
  have high := v.isLt
  have value : (pml4Idx v).val = v.toNat / 2 ^ 39 % 512 := idxOf_shift_val v 39
  omega

theorem vmmGetPhysical_root (same : mem r (pml4Idx v) = mem r' (pml4Idx v)) :
    vmmGetPhysical mem r v = vmmGetPhysical mem r' v := by
  unfold vmmGetPhysical
  rw [same]

theorem vmmGetFlags_root (same : mem r (pml4Idx v) = mem r' (pml4Idx v)) :
    vmmGetFlags mem r v = vmmGetFlags mem r' v := by
  unfold vmmGetFlags
  rw [same]

end Roots

variable {K : KernelTables} {roots : List Nat} {s s' : MemState} {g g' : SpaceGhost}

theorem System.coherent {large : List (Word × Nat)} (h : System K roots s g) :
    Coherent K ⟨s, roots, large⟩ := by
  intro r member v upper
  have same := h.upper r member _ (pml4Idx_upper upper)
  exact ⟨vmmGetPhysical_root same, vmmGetFlags_root same⟩

/-! ## The invariant -/

/-- The pages of a large block lie in the heap. -/
def BlockOk (block : Word × Nat) : Prop :=
  heapBase ≤ block.1 ∧ block.1.toNat % 4096 = 0 ∧ block.1.toNat + block.2 * 4096 ≤ 2 ^ 64

structure HalfInv (K : KernelTables) (st : HalfState) : Prop where
  sound : Sound K st.roots st.mm.cr3 st.mm
  aligned : st.mm.kheapNext.toNat % 4096 = 0
  blocks : ∀ block ∈ st.large, BlockOk block

/-- What an operation has to leave behind. -/
def Leaves (K : KernelTables) (after : List Nat × List (Word × Nat)) (s : MemState) : Prop :=
  HalfInv K ⟨s, after.1, after.2⟩

section Steps

variable {large : List (Word × Nat)} {r : Nat}

/-- The spaces may change as long as the end of the heap and the blocks stay. -/
theorem HalfInv.still (inv : HalfInv K ⟨s, roots, large⟩) {roots' : List Nat}
    (system : System K roots' s' g') (heap : s'.kheapNext = s.kheapNext) :
    HalfInv K ⟨s', roots', large⟩ where
  sound := ⟨rfl, g', system⟩
  aligned := by
    change s'.kheapNext.toNat % 4096 = 0
    rw [heap]
    exact inv.aligned
  blocks := inv.blocks

theorem create_half (inv : HalfInv K ⟨s, roots, large⟩) :
    wp (halfExec roots large .create) (Leaves K) Saturated s := by
  obtain ⟨_, g, sys⟩ := inv.sound
  refine wp_seq (vmmCreateAddressSpace_spec sys.vm sys.current.1 (fun _ => sys.current.2)) ?_
  rintro (_ | r) s' ⟨g', made⟩
  · exact inv.still (sys.effect (.quiet made)) made.toGrow.heap
  · exact inv.still (sys.effect (.created made)) made.toGrow.heap

theorem clone_half (inv : HalfInv K ⟨s, roots, large⟩) (root : r ∈ roots) :
    wp (halfExec roots large (.clone r)) (Leaves K) Saturated s := by
  obtain ⟨_, g, sys⟩ := inv.sound
  refine wp_seq (vmmCloneUserAddressSpace_spec sys.vm ((sys.live r).mpr root) sys.current.1
    (fun _ => sys.current.2)) ?_
  rintro (_ | dst) s' ⟨g', made⟩
  · exact inv.still (sys.effect (.notCloned made)) made.toKeep.heap
  · exact inv.still (sys.effect (.cloned root made)) made.toGrow.heap

theorem destroy_half (inv : HalfInv K ⟨s, roots, large⟩) (root : r ∈ roots) (idle : r ≠ s.cr3) :
    wp (halfExec roots large (.destroy r)) (Leaves K) Saturated s := by
  obtain ⟨_, g, sys⟩ := inv.sound
  refine wp_seq (vmmDestroyUserAddressSpace_spec sys.vm ((sys.live r).mpr root)) ?_
  rintro _ s' ⟨g', gone⟩
  exact inv.still (sys.effect (.destroyed idle gone)) gone.heap

theorem keeps_mapUserZeroPage (r : Nat) (v flags : Word) : MmKeeps (mapUserZeroPage r v flags) := by
  refine keeps_allocFrame.bind fun frame => ?_
  cases frame with
  | none => exact .pure _
  | some phys => exact (keeps_zeroFrame _).bind fun _ => keeps_mapOrFree _ _ _ _

theorem map_half {v flags : Word} (inv : HalfInv K ⟨s, roots, large⟩) (root : r ∈ roots)
    (low : 2 ^ 21 ≤ v.toNat) (below : v < userSpaceTop) (user : flags &&& vmmUser ≠ 0#64) :
    wp (halfExec roots large (.map r v flags)) (Leaves K) Saturated s := by
  refine wp_seq (wp_and (mapUserZeroPage_sound root low below user inv.sound)
    (keeps_mapUserZeroPage r v flags s)) ?_
  rintro _ s' ⟨⟨_, g', sys⟩, heap⟩
  exact inv.still sys heap

theorem switch_half (inv : HalfInv K ⟨s, roots, large⟩) (root : r = K.pml4 ∨ r ∈ roots) :
    wp (halfExec roots large (.switch r)) (Leaves K) Saturated s := by
  obtain ⟨_, g, sys⟩ := inv.sound
  exact inv.still (sys.effect (.switched root)) rfl

/-- The heap grows by whole pages. -/
theorem HalfInv.grown {n : Word} (inv : HalfInv K ⟨s, roots, large⟩)
    (sound : Sound K roots s.cr3 s') (whole : n.toNat % 4096 = 0)
    (next : s'.kheapNext = s.kheapNext ∨ s'.kheapNext = s.kheapNext + n) :
    HalfInv K ⟨s', roots, large⟩ := by
  obtain ⟨_, g', sys⟩ := sound
  refine ⟨⟨rfl, g', sys⟩, ?_, inv.blocks⟩
  have aligned : s.kheapNext.toNat % 4096 = 0 := inv.aligned
  rcases next with same | moved
  · change s'.kheapNext.toNat % 4096 = 0
    rwa [same]
  · change s'.kheapNext.toNat % 4096 = 0
    rw [moved, BitVec.toNat_add]
    omega

theorem slabPage_half (inv : HalfInv K ⟨s, roots, large⟩)
    (room : s.kheapNext.toNat + 4096 < 2 ^ 64) :
    wp (halfExec roots large .slabPage) (Leaves K) Saturated s := by
  have taken := takes_slabAllocPage (freshHeap s)
  rw [wp_onMm] at taken
  refine wp_seq (wp_and (slabAllocPage_sound room inv.sound) taken) ?_
  rintro _ s' ⟨sound, next⟩
  exact inv.grown sound (by decide) next

/-- The block of a large request begins where the heap ended. -/
theorem kmallocLarge_base (size : Word) (s : MemState) :
    wp (kmallocLarge size) (fun result _ => ∀ p, result = some p → p = s.kheapNext + 16#64)
      (fun _ _ => True) s := by
  unfold kmallocLarge
  simp only [vmmAllocKernel, wp_bind, wp_get, wp_modify, wp_pure]
  have page : ∀ v, MmKeeps (mapKernelPage v) := keeps_mapKernelPage
  refine wp_imp (Keeps.allM _ (fun i => page _) _) ?_
  intro done s' _
  cases done with
  | false => exact fun _ no => by cases no
  | true => exact fun _ same => (Option.some.inj same).symm

theorem largeAlloc_half {size : Word} (inv : HalfInv K ⟨s, roots, large⟩)
    (room : s.kheapNext.toNat + (largeBytes size).toNat < 2 ^ 64) :
    wp (halfExec roots large (.largeAlloc size)) (Leaves K) Saturated s := by
  have taken := takes_kmallocLarge size (freshHeap s)
  rw [wp_onMm] at taken
  have whole : (largeBytes size).toNat % 4096 = 0 := by
    rw [largeBytes, alignUp_page_toNat]
    omega
  refine wp_seq (wp_and (wp_and (kmallocLarge_sound room inv.sound) taken)
    (kmallocLarge_base size s)) ?_
  rintro result s' ⟨⟨sound, next⟩, base⟩
  have grown := inv.grown sound whole next
  cases result with
  | none => exact grown
  | some p =>
    refine ⟨grown.sound, grown.aligned, ?_⟩
    obtain ⟨_, g, sys⟩ := inv.sound
    intro block member
    rcases List.mem_cons.mp member with rfl | old
    · rw [base p rfl, BitVec.add_sub_cancel]
      exact ⟨sys.heap, inv.aligned, by dsimp only; omega⟩
    · exact inv.blocks block old

theorem largeFree_half {v : Word} {n : Nat} (inv : HalfInv K ⟨s, roots, large⟩)
    (used : (v, n) ∈ large) :
    wp (halfExec roots large (.largeFree v n)) (Leaves K) Saturated s := by
  obtain ⟨above, aligned, room⟩ := inv.blocks _ used
  have next : MmKeeps (kfreeLarge v n) := keeps_kfreeLarge v n
  refine wp_seq (wp_and (kfreeLarge_sound above aligned room inv.sound) (next s)) ?_
  rintro _ s' ⟨⟨_, g', sys⟩, heap⟩
  have after := inv.still sys heap
  exact ⟨after.sound, after.aligned, fun block member => inv.blocks block (List.mem_of_mem_erase member)⟩

end Steps

theorem HalfInv.step {st st' : HalfState} {op : HalfOp} (inv : HalfInv K st)
    (step : TameStep K st op st') : HalfInv K st' := by
  obtain ⟨tame, allowed, ran⟩ := step
  have left : wp (halfExec st.roots st.large op) (Leaves K) Saturated st.mm := by
    cases op with
    | create => exact create_half inv
    | clone r => exact clone_half inv allowed
    | destroy r => exact destroy_half inv allowed.1 allowed.2
    | map r v flags => exact map_half inv allowed.1 tame allowed.2.1 allowed.2.2
    | switch r => exact switch_half inv allowed
    | slabPage => exact slabPage_half inv tame
    | largeAlloc size => exact largeAlloc_half inv tame
    | largeFree v n => exact largeFree_half inv allowed
  have after := wp_ok left ran
  exact after

theorem Booted.half {kernelEnd : Word} (boot : Booted K kernelEnd s)
    (image : 0 < kernelEnd.toNat ∧ kernelEnd.toNat ≤ 2 ^ 30) : HalfInv K ⟨s, [], []⟩ where
  sound := ⟨rfl, _, boot.system (boot.heapBase_le image)⟩
  aligned := by
    have value := alignUp_toNat (kernelVma + kernelEnd) (n := 21) (by decide)
    have size : BitVec.ofNat 64 (2 ^ 21) = 0x200000#64 := by decide
    rw [size] at value
    change s.kheapNext.toNat % 4096 = 0
    rw [boot.heap, value]
    omega
  blocks := by simp

/-- In every run that keeps user mappings out of the first 2 MiB and the heap inside the
address space, all live address spaces translate the upper half as the kernel's root. -/
theorem kernel_half_coherent {kernelEnd : Word} {ops : List HalfOp} {st : HalfState}
    (boot : Booted K kernelEnd s) (image : 0 < kernelEnd.toNat ∧ kernelEnd.toNat ≤ 2 ^ 30)
    (run : Run (TameStep K) ⟨s, [], []⟩ ops st) : Coherent K st := by
  have inv : HalfInv K st := run.invariant (HalfInv K) (boot.half image)
    (fun _ _ _ inv step => inv.step step)
  obtain ⟨_, g, sys⟩ := inv.sound
  exact sys.coherent

/-! ## Concrete runs -/

section SmallMachine

def HalfState.after (st : HalfState) (op : HalfOp) : HalfState :=
  let result := halfExec st.roots st.large op st.mm
  let lists := (resultValue result).getD (st.roots, st.large)
  ⟨resultState result, lists.1, lists.2⟩

theorem HalfStep.eval {st : HalfState} {op : HalfOp} (allowed : HalfAllowed K st op)
    (done : (resultValue (halfExec st.roots st.large op st.mm)).isSome = true) :
    HalfStep K st op (st.after op) := by
  obtain ⟨lists, value⟩ := Option.isSome_iff_exists.mp done
  refine ⟨allowed, ?_⟩
  rw [result_eq value]
  simp [HalfState.after, value]

theorem create_step {st : HalfState} {r : Nat} {s : MemState}
    (made : vmmCreateAddressSpace st.mm = .ok (some r) s) :
    HalfStep K st .create ⟨s, r :: st.roots, st.large⟩ := by
  refine ⟨trivial, run_of_wp ?_⟩
  rw [halfExec, wp_bind, wp_run made]
  exact ⟨rfl, rfl⟩

/-- A large request without free frames takes its addresses and fails. -/
def HalfState.refused (st : HalfState) (size : Word) : HalfState :=
  { st with mm := { st.mm with kheapNext := st.mm.kheapNext + largeBytes size } }

theorem refused_step {st : HalfState} {size : Word} (empty : st.mm.pmm.freeFrames = 0)
    (pos : 4096 ≤ (largeBytes size).toNat) :
    HalfStep K st (.largeAlloc size) (st.refused size) := by
  refine ⟨trivial, run_of_wp ?_⟩
  rw [halfExec, wp_bind, wp_run (kmallocLarge_empty empty pos)]
  exact ⟨rfl, rfl⟩

/-- A slab page is mapped while the first space is loaded. -/
theorem kernel_half_coherent_slab :
    ∃ st, Run (TameStep smallTables) ⟨smallMachine, [], []⟩ [.create, .switch 8, .slabPage] st ∧
      vmmGetPhysical st.mm.mem 8 0xFFFFFFFF80200000#64 =
        vmmGetPhysical st.mm.mem 1 0xFFFFFFFF80200000#64 ∧
      vmmGetPhysical st.mm.mem 1 0xFFFFFFFF80200000#64 = some 0xA000#64 := by
  have first : TameStep smallTables ⟨smallMachine, [], []⟩ .create ⟨smallFirst, [8], []⟩ :=
    ⟨trivial, create_step smallMachine_create⟩
  have second : TameStep smallTables ⟨smallFirst, [8], []⟩ (.switch 8)
      (HalfState.after ⟨smallFirst, [8], []⟩ (.switch 8)) :=
    ⟨trivial, .eval (.inr (List.mem_singleton_self 8)) (by decide +kernel)⟩
  have third : TameStep smallTables (HalfState.after ⟨smallFirst, [8], []⟩ (.switch 8)) .slabPage
      (.after (.after ⟨smallFirst, [8], []⟩ (.switch 8)) .slabPage) :=
    ⟨by unfold Tame; decide +kernel, .eval trivial (by decide +kernel)⟩
  have run := ((Run.nil.snoc first).snoc second).snoc third
  have all := kernel_half_coherent smallMachine_booted (by decide) run 8 (by decide +kernel)
    0xFFFFFFFF80200000#64 (by unfold UpperHalf; decide)
  exact ⟨_, run, all.1, by decide +kernel⟩

/-- The small machine with seven free frames. -/
def tightMachine : MemState :=
  { smallMachine with pmm := { smallPool with totalFrames := 15, freeFrames := 7 } }

theorem tightMachine_booted : Booted smallTables 0x180000#64 tightMachine where
  ok := ⟨by decide, by decide, by decide⟩
  distinct := by decide
  used := by decide
  window := ⟨fun _ => rfl, fun _ => rfl⟩
  root := ⟨fun _ => rfl, fun _ => rfl⟩
  high := ⟨fun _ => rfl, fun _ => rfl⟩
  cr3 := rfl
  heap := rfl

def tightFirst : MemState :=
  { tightMachine with
    pmm := (tightMachine.pmm.takeFrame 8).takeFrame 9
    mem := createdMem smallMemory 1 8 9 }

theorem tightMachine_create : vmmCreateAddressSpace tightMachine = .ok (some 8) tightFirst :=
  vmmCreateAddressSpace_run (pmmAllocFrame_run (by decide) (by decide))
    (pmmAllocFrame_run (by decide) (by decide)) (by decide) (by decide) (by decide) (by decide)
    (by decide) (by decide)

/-- A block of four pages takes the last frames. -/
def tightBlock : HalfState := HalfState.after ⟨tightFirst, [8], []⟩ (.largeAlloc 0x3FF0#64)

/-- A request that cannot be met has moved the end of the heap to the lowest address of the
upper half. -/
def tightMoved : HalfState := tightBlock.refused 0xFFFF80007FDFBFF0#64

def tightFreed : HalfState := tightMoved.after (.largeFree 0xFFFFFFFF80200000#64 4)

def tightRun : List HalfOp :=
  [.create, .largeAlloc 0x3FF0#64, .largeAlloc 0xFFFF80007FDFBFF0#64,
   .largeFree 0xFFFFFFFF80200000#64 4, .slabPage]

theorem tightRun_run :
    Run (HalfStep smallTables) ⟨tightMachine, [], []⟩ tightRun (tightFreed.after .slabPage) := by
  have made : HalfStep smallTables ⟨tightMachine, [], []⟩ .create ⟨tightFirst, [8], []⟩ :=
    create_step tightMachine_create
  have block : HalfStep smallTables ⟨tightFirst, [8], []⟩ (.largeAlloc 0x3FF0#64) tightBlock :=
    .eval trivial (by decide +kernel)
  have moved : HalfStep smallTables tightBlock (.largeAlloc 0xFFFF80007FDFBFF0#64) tightMoved :=
    refused_step (by decide +kernel) (by decide)
  have freed : HalfStep smallTables tightMoved (.largeFree 0xFFFFFFFF80200000#64 4) tightFreed :=
    .eval (by unfold HalfAllowed; decide +kernel) (by decide +kernel)
  have mapped : HalfStep smallTables tightFreed .slabPage (tightFreed.after .slabPage) :=
    .eval trivial (by decide +kernel)
  exact ((((Run.nil.snoc made).snoc block).snoc moved).snoc freed).snoc mapped

/-- The frame the kernel finds when it reads a frame at the address equal to its physical
address, as all walks over page tables do. -/
def frameRead (s : MemState) (f : Nat) : Option Nat :=
  (vmmGetPhysical s.mem s.cr3 (frameAddr f)).map frameOf

/-- A user page over the root of another space. -/
def coveredState : HalfState :=
  HalfState.after ⟨smallSecond, [10, 8], []⟩ (.map 8 0xA000#64 (vmmUser ||| vmmWrite))

/-- A slab page that is mapped after the end of the heap has moved to another slot of the root
is there for the loaded root only. And a user page mapped at the address of the root of
another space hides that root from the kernel: reading it gives an empty page. -/
theorem kernel_half_coherent_moved :
    (Booted smallTables 0x180000#64 tightMachine ∧
      ∃ st, Run (HalfStep smallTables) ⟨tightMachine, [], []⟩ tightRun st ∧ 8 ∈ st.roots ∧
        vmmGetPhysical st.mm.mem 8 0xFFFF800000000000#64 = none ∧
        (vmmGetPhysical st.mm.mem 1 0xFFFF800000000000#64).isSome = true ∧
        ¬ Coherent smallTables st) ∧
    ∃ st, Run (HalfStep smallTables) ⟨smallMachine, [], []⟩
        [.create, .create, .map 8 0xA000#64 (vmmUser ||| vmmWrite)] st ∧ 10 ∈ st.roots ∧
      frameRead st.mm 10 = some 12 ∧ st.mm.mem 12 511 = 0#64 ∧ st.mm.mem 10 511 ≠ 0#64 := by
  have second : vmmCreateAddressSpace smallFirst = .ok (some 10) smallSecond :=
    vmmCreateAddressSpace_run (pmmAllocFrame_run (by decide) (by decide))
      (pmmAllocFrame_run (by decide) (by decide)) (by decide) (by decide) (by decide) (by decide)
      (by decide) (by decide)
  have lost : vmmGetPhysical (tightFreed.after .slabPage).mm.mem 8 0xFFFF800000000000#64 = none := by
    decide +kernel
  have there : (vmmGetPhysical (tightFreed.after .slabPage).mm.mem 1
      0xFFFF800000000000#64).isSome = true := by decide +kernel
  have live : 8 ∈ (tightFreed.after .slabPage).roots := by decide +kernel
  have covered : HalfStep smallTables ⟨smallSecond, [10, 8], []⟩
      (.map 8 0xA000#64 (vmmUser ||| vmmWrite)) coveredState :=
    .eval (by unfold HalfAllowed; decide +kernel) (by decide +kernel)
  refine ⟨⟨tightMachine_booted, _, tightRun_run, live, lost, there, ?_⟩,
    _, .snoc (.snoc (.snoc .nil (create_step smallMachine_create)) (create_step second)) covered,
    ?_, ?_, ?_, ?_⟩
  · intro all
    have same := (all 8 live 0xFFFF800000000000#64 (by unfold UpperHalf; decide)).1
    rw [lost] at same
    have kernel : (vmmGetPhysical (tightFreed.after .slabPage).mm.mem smallTables.pml4
        0xFFFF800000000000#64).isSome = true := there
    rw [← same] at kernel
    cases kernel
  · decide +kernel
  · decide +kernel
  · decide +kernel
  · decide +kernel

end SmallMachine

end LithiumKernel.Mm
