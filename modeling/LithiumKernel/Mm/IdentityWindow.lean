import LithiumKernel.Lib.Run
import LithiumKernel.Mm.PmmInit
import LithiumKernel.Mm.Spaces

/-!
# Which frames the kernel can reach

The kernel uses a physical address as a pointer, which works inside the identity window
that `vmm_init` maps. The pool of kernel/mm/pmm.c goes up to 4 GiB and the window of
kernel/mm/vmm.c up to 1 GiB. The machine below allocates frames, gives back frames it has
allocated, and makes and loads address spaces.
-/
namespace LithiumKernel.Mm

open LithiumKernel.Lib LithiumKernel.Lib.Forest

/-! ## Addresses of the window translate to themselves -/

theorem identityHuge_phys (i : Idx) :
    identityHuge i &&& 0x000FFFFFFFE00000#64 = BitVec.ofNat 64 (i.val * 2 ^ 21) := by
  have all : ∀ i : Idx, identityHuge i &&& 0x000FFFFFFFE00000#64 =
      BitVec.ofNat 64 (i.val * 2 ^ 21) := by decide +kernel
  exact all i

/-- A 2 MiB page of the window and an offset in it. -/
theorem hugePage_toNat (i : Idx) (v : Word) :
    ((identityHuge i &&& 0x000FFFFFFFE00000#64) ||| (v &&& 0x1FFFFF#64)).toNat =
      i.val * 2 ^ 21 + v.toNat % 2 ^ 21 := by
  have lt := i.isLt
  rw [identityHuge_phys, BitVec.toNat_or, BitVec.toNat_and, BitVec.toNat_ofNat,
    Nat.mod_eq_of_lt (by omega)]
  change _ ||| v.toNat &&& (2 ^ 21 - 1) = _
  rw [Nat.and_two_pow_sub_one_eq_mod, Nat.mul_comm]
  exact (Nat.two_pow_add_eq_or_of_lt (Nat.mod_lt _ (by decide)) i.val).symm

theorem identityPage_frame (i : Idx) : frameOf (identityPage i) = i.val := by
  have lt := i.isLt
  rw [identityPage_eq, tableEntry_frame (by omega)]

/-- Every address of the window outside its two holes stands for itself. -/
theorem KernelTables.windowPhys_self (K : KernelTables) {v : Word} (low : v.toNat < 2 ^ 30)
    (null : 4096 ≤ v.toNat) (guard : K.guardPhys.toNat ≠ v.toNat / 4096 * 4096) :
    K.windowPhys v = some v := by
  have pd : (pdIdx v).val = v.toNat / 2 ^ 21 % 512 := idxOf_shift_val v 21
  have pt : (ptIdx v).val = v.toNat / 2 ^ 12 % 512 := idxOf_shift_val v 12
  unfold windowPhys
  by_cases first : pdIdx v = 0
  · have zero := congrArg Fin.val first
    rw [pd] at zero
    change v.toNat / 2 ^ 21 % 512 = 0 at zero
    have hole : ¬ (ptIdx v = 0 ∨ BitVec.ofNat 64 ((ptIdx v).val * 4096) = K.guardPhys) := by
      rintro (nullPage | guardPage)
      · have value := congrArg Fin.val nullPage
        rw [pt] at value
        change v.toNat / 2 ^ 12 % 512 = 0 at value
        omega
      · have value := congrArg BitVec.toNat guardPage
        rw [BitVec.toNat_ofNat, pt] at value
        omega
    rw [if_neg (not_not.mpr first), if_neg hole]
    congr 1
    apply BitVec.eq_of_toNat_eq
    rw [phys_toNat, identityPage_frame, pt]
    omega
  · rw [if_pos first]
    congr 1
    apply BitVec.eq_of_toNat_eq
    rw [hugePage_toNat, pd]
    omega

/-- The kernel's root maps nothing between the window and 512 GiB. -/
theorem vmmGetPhysical_kernelRoot {K : KernelTables} {mem : PhysMem} {v : Word} (root : K.Root mem)
    (small : K.pdptId < 2 ^ 40) (above : 2 ^ 30 ≤ v.toNat) (below : v.toNat < 2 ^ 39) :
    vmmGetPhysical mem K.pml4 v = none := by
  refine (kernelRoot_vacant root small ⟨?_, ?_⟩).2.1
  · rw [pml4Idx, idxOf_shift_val]
    omega
  · rintro ⟨_, zero⟩
    have value := congrArg Fin.val zero
    rw [pdptIdx, idxOf_shift_val] at value
    change _ = 0 at value
    omega

/-! ## The pool over vmm_init -/

/-- No frame becomes free. -/
def Shrinks (p : Pmm) (s : MemState) : Prop :=
  s.pmm.Ok ∧ s.pmm.totalFrames = p.totalFrames ∧
    ∀ f, s.pmm.frameIsFree f = true → p.frameIsFree f = true

section Shrinks

variable {p : Pmm} {s : MemState} {halt : Kassert → MemState → Prop}

theorem allocFrame_shrinks (h : Shrinks p s) :
    wp allocFrame (fun _ s' => Shrinks p s') halt s := by
  rw [wp_allocFrame]
  unfold pmmAllocFrame
  split
  · exact h
  · split
    · rename_i f found
      obtain ⟨lt, free⟩ := Pmm.scanFrames_some found
      exact ⟨Pmm.takeFrame_ok h.1 lt free, h.2.1,
        fun g here => h.2.2 g ((Pmm.takeFrame_free _ f g).mp here).1⟩
    · exact h

theorem allocTable_shrinks (h : Shrinks p s) :
    wp allocTable (fun _ s' => Shrinks p s') (fun _ _ => True) s := by
  unfold allocTable
  refine wp_seq (allocFrame_shrinks h) ?_
  rintro (_ | phys) s' after
  · trivial
  · exact after

theorem vmmInit_shrinks (h : Shrinks p s) (guardPhys kernelEnd : Word) :
    wp (vmmInit guardPhys kernelEnd) (fun _ s' => Shrinks p s') (fun _ _ => True) s := by
  unfold vmmInit
  refine wp_seq (allocTable_shrinks h) fun pml4 s₁ h₁ => ?_
  refine wp_seq (allocTable_shrinks h₁) fun pt0 s₂ h₂ => ?_
  refine wp_seq (wp_forM_inv (Shrinks p) ?_ h₂) fun _ s₃ h₃ => ?_
  · intro i _ s here
    split
    · exact here
    · exact here
  refine wp_seq (allocTable_shrinks h₃) fun pd0 s₄ h₄ => ?_
  rw [wp_bind, wp_writeEntry]
  refine wp_seq (wp_forM_inv (Shrinks p) ?_ h₄) fun _ s₅ h₅ => ?_
  · exact fun i _ s here => here
  refine wp_seq (allocTable_shrinks h₅) fun pdptId s₆ h₆ => ?_
  rw [wp_bind, wp_writeEntry, wp_bind, wp_writeEntry]
  refine wp_seq (allocTable_shrinks (s := { s₆ with mem := _ }) h₆) fun pdptHh s₇ h₇ => ?_
  refine wp_seq (allocTable_shrinks h₇) fun pdHh s₈ h₈ => ?_
  exact h₈

end Shrinks

/-- What the boot code and the linker promise `vmm_init`: the pool comes from `pmm_init`,
and the page below the boot stack lies below the end of the kernel image. -/
structure PoweredOn (bootMem : BootMem) (bootMagic bootInfoPhys : BitVec 32)
    (guardPhys kernelEnd : Word) (s : MemState) : Prop where
  pool : pmmInit bootMem kernelEnd bootMagic bootInfoPhys = .ok s.pmm
  imageAligned : kernelEnd.toNat % 4096 = 0
  guardInside : guardPhys.toNat < kernelEnd.toNat

section Boot

variable {bootMem : BootMem} {bootMagic bootInfoPhys : BitVec 32} {guardPhys kernelEnd : Word}
  {s s' : MemState}

theorem PoweredOn.booted (on : PoweredOn bootMem bootMagic bootInfoPhys guardPhys kernelEnd s)
    (init : vmmInit guardPhys kernelEnd s = .ok () s') :
    ∃ K : KernelTables, K.guardPhys = guardPhys ∧ Booted K kernelEnd s' := by
  obtain ⟨entries, _, pool⟩ := pmmInit_ok on.pool
  have ok : s.pmm.Ok := by
    rw [pool]
    exact (poolOf_ok _ _).1
  exact wp_ok (vmmInit_spec ok guardPhys kernelEnd) init

/-- No page of the first MiB or of the kernel image is free after `vmm_init`. -/
theorem PoweredOn.free_above (on : PoweredOn bootMem bootMagic bootInfoPhys guardPhys kernelEnd s)
    (init : vmmInit guardPhys kernelEnd s = .ok () s') {f : Nat}
    (free : s'.pmm.frameIsFree f = true) :
    f < s'.pmm.totalFrames ∧ 256 ≤ f ∧ kernelEnd.toNat ≤ f * 4096 := by
  obtain ⟨entries, _, pool⟩ := pmmInit_ok on.pool
  have start : Shrinks s.pmm s := ⟨by rw [pool]; exact (poolOf_ok _ _).1, rfl, fun _ here => here⟩
  obtain ⟨_, total, shrinks⟩ := wp_ok (vmmInit_shrinks start guardPhys kernelEnd) init
  have before := shrinks f free
  rw [pool] at before total
  rw [total]
  have inside := poolOf_inside _ _ f before
  rw [poolOf_free on.imageAligned] at before
  exact ⟨inside, before.2.1, before.2.2.1⟩

end Boot

/-! ## The machine -/

structure PoolState where
  mm : MemState
  held : List Nat
  roots : List Nat

inductive PoolOp where
  | alloc (result : Option Word)
  | free (phys : Word)
  | create (root : Option Nat)
  | switch (root : Nat)

/-- `pmm_free_frame` gets addresses that `pmm_alloc_frame` has handed out, and only live
roots and the kernel's own are loaded. -/
inductive PoolStep (K : KernelTables) (st : PoolState) : PoolOp → PoolState → Prop where
  | allocated {phys mm} : allocFrame st.mm = .ok (some phys) mm →
      PoolStep K st (.alloc (some phys)) ⟨mm, frameOf phys :: st.held, st.roots⟩
  | exhausted {mm} : allocFrame st.mm = .ok none mm →
      PoolStep K st (.alloc none) ⟨mm, st.held, st.roots⟩
  | freed {f mm} : f ∈ st.held → freeFrame (frameAddr f) st.mm = .ok () mm →
      PoolStep K st (.free (frameAddr f)) ⟨mm, st.held.erase f, st.roots⟩
  | created {r mm} : vmmCreateAddressSpace st.mm = .ok (some r) mm →
      PoolStep K st (.create (some r)) ⟨mm, st.held, r :: st.roots⟩
  | notCreated {mm} : vmmCreateAddressSpace st.mm = .ok none mm →
      PoolStep K st (.create none) ⟨mm, st.held, st.roots⟩
  | switched {r} : r = K.pml4 ∨ r ∈ st.roots →
      PoolStep K st (.switch r) ⟨{ st.mm with cr3 := r }, st.held, st.roots⟩

/-- The address spaces stand, and a frame is held outside as often as it was in use at the
start and has been handed out since. -/
structure Stocked (K : KernelTables) (start : Pmm) (st : PoolState) (g : SpaceGhost) : Prop where
  spaces : Spaces K (fun f => f < start.totalFrames ∧ 0 < start.refcount f) st.roots st.mm g
  ext : ∀ f, g.ext f = start.refcount f + st.held.count f
  bound : ∀ f ∈ st.held, f < st.mm.pmm.totalFrames
  evolves : start.Evolves st.mm.pmm

variable {K : KernelTables} {start : Pmm} {st st' : PoolState} {g : SpaceGhost}

theorem Booted.stocked {kernelEnd : Word} {s : MemState} (boot : Booted K kernelEnd s) :
    Stocked K s.pmm ⟨s, [], []⟩ ⟨fun _ => none, fun _ => 0#64, s.pmm.refcount⟩ := by
  refine ⟨⟨⟨boot.ok, .nil (spaceLayout K.pdptHh) _ _ _⟩, ?_, List.nodup_nil, fun f here => here, ?_,
    fun x filled => absurd rfl filled, boot.window, boot.root, by simp, by simp, .inl boot.cr3⟩,
    by simp, by simp, .refl boot.ok⟩
  · intro r
    simp only [List.not_mem_nil, iff_false]
    intro live
    cases live
  · intro f member
    have used := boot.used f (by
      simp only [List.mem_cons, List.not_mem_nil, or_false, KernelTables.frames] at member ⊢
      tauto)
    exact ⟨used.1, by omega⟩

namespace Stocked

theorem alloc (h : Stocked K start st g) :
    wp allocFrame (fun result mm => match result with
      | none => mm = st.mm
      | some phys => ∃ g', Stocked K start ⟨mm, frameOf phys :: st.held, st.roots⟩ g')
      (fun _ _ => False) st.mm := by
  refine allocFrame_spec h.spaces.vm (fun _ => rfl) ?_
  intro f q lt zero evolves counts acquired
  obtain ⟨_, _, none⟩ := h.spaces.vm.wf.unused lt zero
  refine ⟨_, h.spaces.keep ?_ acquired (fun _ => Iff.rfl) ?_ h.spaces.apart, ?_, ?_,
    h.evolves.trans evolves⟩
  · exact ⟨evolves, rfl, rfl, fun at_t => at_t, fun data _ => ⟨data, rfl⟩, fun _ _ => rfl⟩
  · intro f' _
    by_cases same : f' = f
    · simp [same]
    · simp [Function.update_of_ne same]
  · intro f'
    have old := h.ext f'
    rw [frameOf_frameAddr (h.spaces.vm.frame_small lt), List.count_cons]
    change Function.update g.ext f (g.ext f + 1) f' = _
    by_cases same : f' = f
    · subst same
      simp only [Function.update_self, beq_self_eq_true, if_true]
      omega
    · rw [Function.update_of_ne same, if_neg (by simpa using Ne.symm same), old, Nat.add_zero]
  · intro f' member
    change f' < q.totalFrames
    rw [evolves.total]
    rcases List.mem_cons.mp member with rfl | old
    · rwa [frameOf_frameAddr (h.spaces.vm.frame_small lt)]
    · exact h.bound f' old

theorem free (h : Stocked K start st g) {f : Nat} (member : f ∈ st.held) :
    wp (freeFrame (frameAddr f)) (fun _ mm =>
      ∃ g', Stocked K start ⟨mm, st.held.erase f, st.roots⟩ g') (fun _ _ => False) st.mm := by
  have lt := h.bound f member
  have often := List.count_pos_iff.mpr member
  have held : 0 < g.ext f := by
    rw [h.ext]
    omega
  refine freeFrame_spec h.spaces.vm.ok lt (h.spaces.vm.rc_pos_of_ext lt held) ?_
  intro q evolves counts
  have ext : ∀ f', Function.update g.ext f (g.ext f - 1) f' =
      start.refcount f' + (st.held.erase f).count f' := by
    intro f'
    by_cases same : f' = f
    · subst same
      rw [Function.update_self, h.ext, List.count_erase_self]
      omega
    · rw [Function.update_of_ne same, h.ext, List.count_erase_of_ne same]
  have dropped := h.spaces.vm.dropHeld lt held evolves counts
  refine ⟨⟨g.role, g.leaf, Function.update g.ext f (g.ext f - 1)⟩, ⟨dropped, h.spaces.live,
    h.spaces.nodup, ?_, h.spaces.shared, h.spaces.apart, h.spaces.window, h.spaces.kernel,
    h.spaces.entrance, h.spaces.upper, h.spaces.cur⟩, ext, ?_, h.evolves.trans evolves⟩
  · intro f' kept
    refine ⟨?_, ?_⟩
    · change f' < q.totalFrames
      rw [evolves.total]
      exact (h.spaces.held f' kept).1
    · change 0 < Function.update g.ext f (g.ext f - 1) f'
      rw [ext]
      have := kept.2
      omega
  · intro f' still
    change f' < q.totalFrames
    rw [evolves.total]
    exact h.bound f' (List.mem_of_mem_erase still)

theorem create (h : Stocked K start st g) :
    wp vmmCreateAddressSpace (fun result mm => match result with
      | none => ∃ g', Stocked K start ⟨mm, st.held, st.roots⟩ g'
      | some r => ∃ g', Stocked K start ⟨mm, st.held, r :: st.roots⟩ g') Saturated st.mm := by
  refine wp_imp (vmmCreateAddressSpace_spec h.spaces.vm h.spaces.current.1
    (fun _ => h.spaces.current.2)) ?_
  rintro (_ | r) mm ⟨g', made⟩
  · refine ⟨g', h.spaces.keep made.toGrow.keep made.vm made.live (fun f _ => by rw [made.ext])
      (by rw [made.leaf]; exact h.spaces.apart), fun f => by rw [made.ext]; exact h.ext f, ?_,
      h.evolves.trans made.evolves⟩
    intro f member
    rw [made.evolves.total]
    exact h.bound f member
  · refine ⟨g', h.spaces.created made, fun f => by rw [made.ext]; exact h.ext f, ?_,
      h.evolves.trans made.evolves⟩
    intro f member
    rw [made.evolves.total]
    exact h.bound f member

theorem step (h : Stocked K start st g) {op : PoolOp} (step : PoolStep K st op st') :
    ∃ g', Stocked K start st' g' := by
  cases step with
  | allocated ran => exact wp_ok h.alloc ran
  | exhausted ran =>
    obtain rfl := wp_ok h.alloc ran
    exact ⟨g, h⟩
  | freed member ran => exact wp_ok (h.free member) ran
  | created ran => exact wp_ok h.create ran
  | notCreated ran => exact wp_ok h.create ran
  | switched root => exact ⟨g, h.spaces.switched root, h.ext, h.bound, h.evolves⟩

/-- A frame that is free was free at the start. -/
theorem free_at_start (h : Stocked K start st g) (ok : start.Ok) {f : Nat}
    (lt : f < st.mm.pmm.totalFrames) (free : st.mm.pmm.frameIsFree f = true) :
    start.frameIsFree f = true := by
  obtain ⟨zero, known⟩ := (Pmm.frameIsFree_of_counts h.spaces.vm.ok lt).mp free
  have none := (h.spaces.vm.wf.unused lt zero).2.2
  rw [h.ext] at none
  rw [h.evolves.total] at lt
  rw [Pmm.frameIsFree_of_counts ok lt]
  exact ⟨by omega, fun hole => known ((h.evolves.hole f).mpr hole)⟩

end Stocked

/-! ## Every free frame is handed out at last -/

theorem alloc_reaches {first : PoolState} {f : Nat} : ∀ {n : Nat} {st : PoolState}
    {ops : List PoolOp}, Run (PoolStep K) first ops st → st.mm.pmm.Ok → st.mm.pmm.freeFrames = n →
    f < st.mm.pmm.totalFrames → st.mm.pmm.frameIsFree f = true →
    ∃ ops' st' mm, Run (PoolStep K) first ops' st' ∧ st'.mm.mem = st.mm.mem ∧
      allocFrame st'.mm = .ok (some (frameAddr f)) mm := by
  intro n
  induction n with
  | zero =>
    intro st ops _ ok count lt free
    have member : f ∈ st.mm.pmm.freeSet := by simp [Pmm.freeSet, lt, free]
    rw [ok.count, Finset.card_eq_zero] at count
    rw [count] at member
    cases member
  | succ n ih =>
    intro st ops run ok count lt free
    cases found : st.mm.pmm.scanFrames with
    | none => exact absurd found (Pmm.scanFrames_complete lt free)
    | some g =>
      obtain ⟨ltg, freeg⟩ := Pmm.scanFrames_some found
      have ran : allocFrame st.mm = .ok (some (frameAddr g))
          { st.mm with pmm := st.mm.pmm.takeFrame g } := by
        rw [allocFrame, pmmAllocFrame_run (by omega) found]
      by_cases same : g = f
      · exact ⟨ops, st, _, run, rfl, by rw [ran, same]⟩
      · -- another frame came first: there is one free frame less
        have still : (st.mm.pmm.takeFrame g).frameIsFree f = true :=
          (Pmm.takeFrame_free _ g f).mpr ⟨free, Ne.symm same⟩
        have fewer : (st.mm.pmm.takeFrame g).freeFrames = n := by
          change st.mm.pmm.freeFrames - 1 = n
          omega
        have next := run.snoc (PoolStep.allocated ran)
        obtain ⟨ops', st', mm, more, mem, last⟩ :=
          ih next (Pmm.takeFrame_ok ok ltg freeg) fewer lt still
        exact ⟨ops', st', mm, more, mem, last⟩

theorem allocFrame_mem {s s' : MemState} {result : Option Word}
    (ran : allocFrame s = .ok result s') : s'.mem = s.mem := by
  unfold allocFrame at ran
  injection ran with _ after
  rw [← after]

/-- A free frame beyond the window is handed out at last, and the kernel cannot reach it. -/
theorem Booted.beyond_window {kernelEnd : Word} {s : MemState} (boot : Booted K kernelEnd s) {f : Nat}
    (lt : f < s.pmm.totalFrames) (free : s.pmm.frameIsFree f = true) (beyond : 2 ^ 30 ≤ f * 4096) :
    ∃ ops st mm, Run (PoolStep K) ⟨s, [], []⟩ ops st ∧
      allocFrame st.mm = .ok (some (frameAddr f)) mm ∧
      vmmGetPhysical mm.mem K.pml4 (frameAddr f) = none := by
  have limit := le_trans (le_of_lt lt) boot.ok.total_le
  simp only [pmmMaxFrames] at limit
  have value : (frameAddr f).toNat = f * 4096 := frameAddr_toNat (by omega)
  have small := (boot.used K.pdptId (by simp [KernelTables.frames])).1
  have start : Run (PoolStep K) ⟨s, [], []⟩ [] ⟨s, [], []⟩ := .nil
  obtain ⟨ops, st, mm, run, mem, ran⟩ := alloc_reaches start boot.ok rfl lt free
  refine ⟨ops, st, mm, run, ran, ?_⟩
  rw [allocFrame_mem ran, mem]
  exact vmmGetPhysical_kernelRoot boot.root
    (lt_of_lt_of_le small (le_trans boot.ok.total_le (by decide))) (by omega) (by omega)

/-- **Frames the kernel can reach.** After `pmm_init` and `vmm_init`, whatever is allocated
and given back, every address of every frame that `pmm_alloc_frame` returns translates to
itself in the kernel's tables and in every address space made from them, exactly if no frame
at or above 1 GiB is free when `vmm_init` returns. -/
theorem allocated_frames_reachable {bootMem : BootMem} {bootMagic bootInfoPhys : BitVec 32}
    {guardPhys kernelEnd : Word} {s₀ s : MemState}
    (on : PoweredOn bootMem bootMagic bootInfoPhys guardPhys kernelEnd s₀)
    (init : vmmInit guardPhys kernelEnd s₀ = .ok () s) :
    ∃ K : KernelTables, K.pml4 = s.cr3 ∧
      ((∀ ops st phys mm, Run (PoolStep K) ⟨s, [], []⟩ ops st →
        allocFrame st.mm = .ok (some phys) mm → ∀ r, r = K.pml4 ∨ r ∈ st.roots →
        ∀ v : Word, phys.toNat ≤ v.toNat → v.toNat < phys.toNat + 4096 →
          vmmGetPhysical mm.mem r v = some v) ↔
      ∀ f, s.pmm.frameIsFree f = true → f * 4096 < 2 ^ 30) := by
  obtain ⟨K, guard, boot⟩ := on.booted init
  refine ⟨K, boot.cr3.symm, ?_, ?_⟩
  · intro all f free
    by_contra beyond
    obtain ⟨ops, st, mm, run, ran, none⟩ :=
      boot.beyond_window (on.free_above init free).1 free (by omega)
    have found := all ops st _ mm run ran K.pml4 (.inl rfl) (frameAddr f) (le_refl _) (by omega)
    rw [none] at found
    cases found
  · intro low ops st phys mm run ran r root v above below
    obtain ⟨g, h⟩ := run.invariant (fun st => ∃ g, Stocked K s.pmm st g) ⟨_, boot.stocked⟩
      (fun _ _ _ ⟨_, h⟩ step => h.step step)
    rcases pmmAllocFrame_spec h.spaces.vm.ok with ⟨f, q, found, _, lt, free, _⟩ | none
    · obtain rfl : frameAddr f = phys := by
        have result := congrArg resultValue ran
        rw [allocFrame, found] at result
        exact Option.some.inj (Option.some.inj result)
      have atStart := h.free_at_start boot.ok lt free
      obtain ⟨_, aboveLow, aboveImage⟩ := on.free_above init atStart
      have inside := low f atStart
      have value : (frameAddr f).toNat = f * 4096 := frameAddr_toNat (by omega)
      have guarded := on.guardInside
      rw [allocFrame_mem ran, vmmGetPhysical_window (h.spaces.reaches root) h.spaces.window
        (h.spaces.small (h.spaces.shared K.pt0 (by simp))) (inWindow_of_lt (by omega))]
      exact K.windowPhys_self (by omega) (by omega) (by rw [guard]; omega)
    · have result := congrArg resultValue ran
      rw [allocFrame, none] at result
      cases Option.some.inj result

/-! ## Two small machines -/

/-- RAM up to 0x110000, and with one more page at 1 GiB. -/
def lowMap : List MapEntry := [⟨0x100000#64, 0x10000#64, 1#32⟩]

def highMap : List MapEntry := [⟨0x100000#64, 0x10000#64, 1#32⟩, ⟨0x40000000#64, 0x1000#64, 1#32⟩]

def freshMachine (entries : List MapEntry) : MemState :=
  ⟨poolOf 0x102000#64 entries, fun _ _ => 0#64, 0, 0#64⟩

def initialised (entries : List MapEntry) : MemState :=
  resultState (vmmInit 0x101000#64 0x102000#64 (freshMachine entries))

theorem freshMachine_on (entries : List MapEntry)
    (map : BootMap (pvhImage entries) 0#32 0x1000#32 entries)
    (some_ : calcTotalFrames hvmMmapRam entries ≠ 0) :
    PoweredOn (pvhImage entries) 0#32 0x1000#32 0x101000#64 0x102000#64 (freshMachine entries) := by
  refine ⟨?_, by decide, by decide⟩
  rw [pmmInit_of_map 0x102000#64 map, if_neg some_, freshMachine]

theorem allocated_frames_reachable_low :
    PoweredOn (pvhImage lowMap) 0#32 0x1000#32 0x101000#64 0x102000#64 (freshMachine lowMap) ∧
    vmmInit 0x101000#64 0x102000#64 (freshMachine lowMap) = .ok () (initialised lowMap) ∧
    (initialised lowMap).pmm.frameIsFree 264 = true ∧
    ∃ K : KernelTables, ∀ ops st phys mm, Run (PoolStep K) ⟨initialised lowMap, [], []⟩ ops st →
      allocFrame st.mm = .ok (some phys) mm → vmmGetPhysical mm.mem K.pml4 phys = some phys := by
  have on := freshMachine_on lowMap (by unfold BootMap; decide +kernel) (by decide)
  have init : vmmInit 0x101000#64 0x102000#64 (freshMachine lowMap) = .ok () (initialised lowMap) :=
    result_eq (by decide +kernel)
  have total : (initialised lowMap).pmm.totalFrames = 272 := by decide +kernel
  refine ⟨on, init, by decide +kernel, ?_⟩
  obtain ⟨K, _, exact_⟩ := allocated_frames_reachable on init
  refine ⟨K, fun ops st phys mm run ran => ?_⟩
  refine exact_.mpr ?_ ops st phys mm run ran K.pml4 (.inl rfl) phys (le_refl _) (by omega)
  intro f free
  have lt := (on.free_above init free).1
  omega

/-- The page at 1 GiB is allocated in the end and is not mapped. -/
theorem allocated_frames_reachable_high :
    PoweredOn (pvhImage highMap) 0#32 0x1000#32 0x101000#64 0x102000#64 (freshMachine highMap) ∧
    vmmInit 0x101000#64 0x102000#64 (freshMachine highMap) = .ok () (initialised highMap) ∧
    ∃ K ops st mm, Booted K 0x102000#64 (initialised highMap) ∧
      Run (PoolStep K) ⟨initialised highMap, [], []⟩ ops st ∧
      allocFrame st.mm = .ok (some 0x40000000#64) mm ∧
      vmmGetPhysical mm.mem K.pml4 0x40000000#64 ≠ some 0x40000000#64 := by
  have on := freshMachine_on highMap (by unfold BootMap; decide +kernel) (by decide)
  have init : vmmInit 0x101000#64 0x102000#64 (freshMachine highMap) = .ok () (initialised highMap) :=
    result_eq (by decide +kernel)
  obtain ⟨K, _, boot⟩ := on.booted init
  obtain ⟨ops, st, mm, run, ran, none⟩ :=
    boot.beyond_window (f := 0x40000) (by decide +kernel) (by decide +kernel) (by decide)
  have addr : frameAddr 0x40000 = 0x40000000#64 := by decide
  rw [addr] at ran none
  refine ⟨on, init, K, ops, st, mm, boot, run, ran, ?_⟩
  rw [none]
  simp

end LithiumKernel.Mm
