import LithiumKernel.Mm.SpaceRun

/-!
# The memory of the whole system

`System` is `Spaces` together with the kernel's own part of the forest: the tables of the
higher half, with the 2 MiB alias of `vmm_init` in a slot that nobody writes. `Sound` hides
the forest; the system calls are shown to keep it.
-/
namespace LithiumKernel.Mm

open LithiumKernel.Lib LithiumKernel.Lib.Forest

/-! ## The kernel half -/

/-- The tables every root shares with the kernel. -/
def KernelTables.Shared (K : KernelTables) (f : Nat) : Prop :=
  f ∈ [K.pml4, K.pdptId, K.pd0, K.pt0]

/-- The entry of the higher-half alias. -/
def aliasHuge : Word := 0#64 ||| vmmPresent ||| vmmWrite ||| vmmHuge

/-- Where the heap may begin: right above the alias. -/
def heapBase : Word := kernelVma + 0x200000#64

structure System (K : KernelTables) (roots : List Nat) (s : MemState) (g : SpaceGhost) : Prop
    extends Spaces K K.Shared roots s g where
  pdptHh : g.role K.pdptHh = some (.kernel, [511])
  pdHh : g.role K.pdHh = some (.kernel, [510, 511])
  covered : s.mem K.pdHh 0 = aliasHuge
  heap : heapBase ≤ s.kheapNext

variable {K : KernelTables} {roots : List Nat} {s s' : MemState} {g g' : SpaceGhost}

namespace System

theorem keep (h : System K roots s g) {roots' : List Nat} (kept : Keep s g s' g')
    (spaces : Spaces K K.Shared roots' s' g') : System K roots' s' g' where
  toSpaces := spaces
  pdptHh := kept.tables h.pdptHh
  pdHh := kept.tables h.pdHh
  covered := by
    rw [kept.foreign h.pdHh (fun own => own ⟨rfl, rfl⟩)]
    exact h.covered
  heap := by
    rw [kept.heap]
    exact h.heap

/-- A change of memory outside the kernel's tables. -/
theorem elsewhere (h : System K roots s g) {mem : PhysMem} (same : mem K.pdHh = s.mem K.pdHh)
    (spaces : Spaces K K.Shared roots { s with mem := mem } g) :
    System K roots { s with mem := mem } g where
  toSpaces := spaces
  pdptHh := h.pdptHh
  pdHh := h.pdHh
  covered := by
    change mem K.pdHh 0 = aliasHuge
    rw [same]
    exact h.covered
  heap := h.heap

theorem ne_pdHh (h : System K roots s g) {t : Nat} {r : Nat} {p : List Idx}
    (at_t : g.role t = some (.user r, p)) : K.pdHh ≠ t := by
  rintro rfl
  rw [h.pdHh] at at_t
  simp at at_t

theorem scribble (h : System K roots s g) {f : Nat} (data : g.role f = none) (free : ¬ K.Shared f)
    (page : Page) : System K roots { s with mem := Function.update s.mem f page } g := by
  refine h.elsewhere (Function.update_of_ne ?_ _ _) (h.toSpaces.scribbled data free page)
  rintro rfl
  rw [h.pdHh] at data
  cases data

theorem effect (h : System K roots s g) {ev : Option VmEvent}
    (effect : Effect K roots s g ev s' g') :
    System K (ev.toList.foldl VmEvent.roots roots) s' g' := by
  have after := h.toSpaces.effect effect
  cases effect with
  | quiet q => exact h.keep q.toGrow.keep after
  | @marked r t at_t =>
    have root : g.role r = some (.user r, []) := h.vm.wf.live_of_role at_t
    refine h.elsewhere ?_ after
    rw [markedMem, store_frame _ _ _ (h.ne_pdHh at_t), store_frame _ _ _ (h.ne_pdHh root)]
  | created made => exact h.keep made.toGrow.keep after
  | mapped _ _ done => exact h.keep done.toGrow.keep after
  | unmapped gone => exact h.keep gone.toKeep after
  | cloned _ made => exact h.keep made.toGrow.keep after
  | notCloned failed => exact h.keep failed.toKeep after
  | resolved done => exact h.keep done.toKeep after
  | destroyed _ gone =>
    refine ⟨after, (gone.roles _ _).mpr ⟨h.pdptHh, by simp⟩,
      (gone.roles _ _).mpr ⟨h.pdHh, by simp⟩, ?_, ?_⟩
    · rw [gone.mem]
      · exact h.covered
      · intro x role
        rw [h.pdHh] at role
        obtain rfl := Option.some.inj role
        simp
    · rw [gone.heap]
      exact h.heap
  | switched _ => exact ⟨after, h.pdptHh, h.pdHh, h.covered, h.heap⟩
  | @wrote addr b present _ =>
    have filled : g.leaf (.user s.cr3, pagePath addr) ≠ 0#64 := ne_zero_of_bit present
    exact h.scribble (h.vm.leaf_facts filled).2.2.1 (h.apart _ filled) _

theorem effects {events : List VmEvent} (h : System K roots s g)
    (effects : Effects K roots s g events s' g') :
    System K (events.foldl VmEvent.roots roots) s' g' := by
  induction effects with
  | nil => exact h
  | snoc _ effect ih =>
    rw [List.foldl_append]
    exact ih.effect effect

/-- Every root leads to the kernel's PDPT for the higher half. -/
theorem topEntry (h : System K roots s g) {r : Nat} (root : r = K.pml4 ∨ r ∈ roots) :
    s.mem r 511 = tableEntry (frameAddr K.pdptHh) := by
  have kernel : s.mem K.pml4 511 = tableEntry (frameAddr K.pdptHh) := by
    simp [h.kernel.pml4]
  rcases root with rfl | member
  · exact kernel
  · rw [h.upper r member 511 (by decide), kernel]

theorem pdptHh_small (h : System K roots s g) : K.pdptHh < 2 ^ 40 :=
  h.vm.frame_small (h.vm.wf.table_lt h.pdptHh)

end System

/-! ## What every root translates alike -/

/-- The identity window and the addresses of the higher-half alias. -/
def KernelAddress (v : Word) : Prop := v.toNat < 2 ^ 30 ∨ kernelVma ≤ v ∧ v < heapBase

instance : DecidablePred KernelAddress := fun v =>
  inferInstanceAs (Decidable (v.toNat < 2 ^ 30 ∨ kernelVma ≤ v ∧ v < heapBase))

/-- The translation and the flags `vmm_init` sets up for a kernel address. -/
def KernelTables.kernelPhys (K : KernelTables) (v : Word) : Option Word :=
  if v.toNat < 2 ^ 30 then K.windowPhys v
  else some ((aliasHuge &&& 0x000FFFFFFFE00000#64) ||| (v &&& 0x1FFFFF#64))

def KernelTables.kernelFlags (K : KernelTables) (v : Word) : Word :=
  (if v.toNat < 2 ^ 30 then K.windowEntry v else aliasHuge) &&& ~~~vmmPhysMask

theorem alias_indices {v : Word} (low : kernelVma ≤ v) (high : v < heapBase) :
    pml4Idx v = 511 ∧ pdptIdx v = 510 ∧ pdIdx v = 0 := by
  have low : 0xFFFFFFFF80000000 ≤ v.toNat := low
  have high : v.toNat < 0xFFFFFFFF80200000 := high
  refine ⟨Fin.ext ?_, Fin.ext ?_, Fin.ext ?_⟩
  · rw [pml4Idx, idxOf_shift_val]
    change _ = 511
    omega
  · rw [pdptIdx, idxOf_shift_val]
    change _ = 510
    omega
  · rw [pdIdx, idxOf_shift_val]
    change _ = 0
    omega

namespace System

/-- The kernel's PDPT leads to the PD of the alias. -/
theorem aliasLink (h : System K roots s g) :
    s.mem K.pdptHh 510 &&& vmmPresent ≠ 0#64 ∧ s.mem K.pdptHh 510 &&& vmmHuge = 0#64 ∧
      frameOf (s.mem K.pdptHh 510) = K.pdHh := by
  obtain ⟨i, p, t, eq, up, own, filled, target⟩ := h.vm.wf.back h.pdHh (by simp [spaceLayout])
  obtain ⟨rfl, rfl⟩ := List.cons.inj eq
  obtain rfl := h.vm.wf.unique up h.pdptHh
  obtain ⟨present, small⟩ := (h.vm.wf.link h.pdptHh (by simp [spaceLayout]) own filled).1
  exact ⟨present, small, target⟩

theorem kernelAddress_reads (h : System K roots s g) {r : Nat} {v : Word}
    (root : r = K.pml4 ∨ r ∈ roots) (kernel : KernelAddress v) :
    vmmGetPhysical s.mem r v = K.kernelPhys v ∧ vmmGetFlags s.mem r v = K.kernelFlags v := by
  unfold KernelTables.kernelPhys KernelTables.kernelFlags
  by_cases low : v.toNat < 2 ^ 30
  · have inside := inWindow_of_lt low
    have small := h.small (h.shared K.pt0 (by simp))
    rw [if_pos low, if_pos low]
    exact ⟨vmmGetPhysical_window (h.reaches root) h.window small inside,
      vmmGetFlags_window (h.reaches root) h.window small inside⟩
  · obtain ⟨above, below⟩ := kernel.resolve_left low
    obtain ⟨first, second, third⟩ := alias_indices above below
    obtain ⟨present, small, target⟩ := h.aliasLink
    have top := h.topEntry root
    have covered := h.covered
    have here : aliasHuge &&& vmmPresent ≠ 0#64 := by decide
    have huge : aliasHuge &&& vmmHuge ≠ 0#64 := by decide
    rw [if_neg low, if_neg low]
    constructor
    · simp [vmmGetPhysical, first, second, third, top, tableEntry_present,
        tableEntry_frame h.pdptHh_small, present, small, target, covered, here, huge]
    · simp [vmmGetFlags, first, second, third, top, tableEntry_present,
        tableEntry_frame h.pdptHh_small, present, small, target, covered, here, huge]

end System

/-- The invariant without its ghost state, with the loaded root. -/
def Sound (K : KernelTables) (roots : List Nat) (c : Nat) (s : MemState) : Prop :=
  s.cr3 = c ∧ ∃ g, System K roots s g

/-! ## The state after vmm_init -/

/-- The ghost state after `vmm_init`: the kernel's tables of the higher half are in the
forest, and every other frame in use is held outside. -/
def bootGhost (K : KernelTables) (rc : Nat → Nat) : SpaceGhost where
  role := Function.update (Function.update (fun _ => none) K.pdptHh (some (.kernel, [511])))
    K.pdHh (some (.kernel, [510, 511]))
  leaf _ := 0#64
  ext := Function.update (Function.update rc K.pdptHh 0) K.pdHh 0

theorem Booted.vm {kernelEnd : Word} (boot : Booted K kernelEnd s) :
    Vm K.pdptHh s (bootGhost K s.pmm.refcount) := by
  obtain ⟨ltHh, oneHh⟩ := boot.used K.pdptHh (by simp [KernelTables.frames])
  obtain ⟨ltPd, onePd⟩ := boot.used K.pdHh (by simp [KernelTables.frames])
  have ne : K.pdHh ≠ K.pdptHh := by
    have distinct := boot.distinct
    simp only [KernelTables.frames, List.nodup_cons, List.mem_cons, not_or] at distinct
    exact distinct.1.1
  have small : K.pdHh < 2 ^ 40 := lt_of_lt_of_le ltPd (le_trans boot.ok.total_le (by decide))
  -- the forest is built on the memory without the link, then the link is put in
  have nil := Layout.WF.nil (spaceLayout K.pdptHh) s.pmm.totalFrames s.pmm.refcount
    (store s.mem K.pdptHh 510 0#64)
  have base := nil.addBase (o := .kernel) (f := K.pdptHh) rfl (by simp [spaceLayout]) ltHh oneHh oneHh (by
    intro j own
    change store s.mem K.pdptHh 510 0#64 K.pdptHh j = 0#64
    by_cases link : j = 510
    · rw [link, store_same]
    · rw [store_of_ne _ _ (fun both => link both.2), boot.high.pdptHh, if_neg link])
  have linked := base.linkTable (t := K.pdptHh) (f := K.pdHh) (o := .kernel) (p := [511]) (i := 510)
    (w := tableEntry (frameAddr K.pdHh)) (Function.update_self ..) (by simp [spaceLayout])
    (by change 510 ≤ 510; decide) (store_same ..) (by simp [spaceLayout]) ltPd onePd
    ((Function.update_of_ne ne _ _).trans onePd) (by
      intro j own
      have other : j ≠ 0 := fun zero => own ⟨rfl, zero⟩
      change store s.mem K.pdptHh 510 0#64 K.pdHh j = 0#64
      rw [store_frame _ _ _ ne, boot.high.pdHh, if_neg other])
    (linkOk_ne_zero (k := K.pdptHh) ⟨tableEntry_present _, tableEntry_small _⟩)
    ⟨tableEntry_present _, tableEntry_small _⟩ (tableEntry_frame small)
  rw [store_store, store_eq_self (by rw [boot.high.pdptHh, if_pos rfl])] at linked
  exact ⟨boot.ok, linked⟩

theorem Booted.system {kernelEnd : Word} (boot : Booted K kernelEnd s)
    (heap : heapBase ≤ s.kheapNext) : System K [] s (bootGhost K s.pmm.refcount) := by
  have distinct := boot.distinct
  simp only [KernelTables.frames, List.nodup_cons, List.mem_cons, List.not_mem_nil, or_false,
    not_or] at distinct
  obtain ⟨pdHh, pdptHh, -⟩ := distinct
  have own : ∀ {f}, K.Shared f → f ≠ K.pdptHh ∧ f ≠ K.pdHh ∧ f ∈ K.frames := by
    intro f shared
    simp only [KernelTables.Shared, List.mem_cons, List.not_mem_nil, or_false] at shared
    simp only [KernelTables.frames, List.mem_cons, List.not_mem_nil, or_false]
    rcases shared with rfl | rfl | rfl | rfl <;> tauto
  have rolePd : (bootGhost K s.pmm.refcount).role K.pdHh = some (.kernel, [510, 511]) :=
    Function.update_self ..
  have roleHh : (bootGhost K s.pmm.refcount).role K.pdptHh = some (.kernel, [511]) :=
    (Function.update_of_ne (Ne.symm pdHh.1) _ _).trans (Function.update_self ..)
  refine ⟨⟨boot.vm, ?_, List.nodup_nil, ?_, fun f member => member, fun x filled => absurd rfl filled,
    boot.window, boot.root, by simp, by simp, .inl boot.cr3⟩, roleHh, rolePd, ?_, heap⟩
  · intro r
    simp only [List.not_mem_nil, iff_false]
    intro live
    have owner : ∀ {f o p}, (bootGhost K s.pmm.refcount).role f = some (o, p) → o = .kernel := by
      intro f o p role
      simp only [bootGhost, Function.update_apply] at role
      split at role
      · exact (Prod.mk.inj (Option.some.inj role)).1.symm
      · split at role
        · exact (Prod.mk.inj (Option.some.inj role)).1.symm
        · cases role
    have eq := owner live
    cases eq
  · intro f shared
    obtain ⟨notHh, notPd, member⟩ := own shared
    obtain ⟨lt, one⟩ := boot.used f member
    have ext : (bootGhost K s.pmm.refcount).ext f = s.pmm.refcount f :=
      (Function.update_of_ne notPd _ _).trans (Function.update_of_ne notHh _ _)
    exact ⟨lt, by rw [ext, one]; decide⟩
  · rw [boot.high.pdHh, if_pos rfl]
    rfl

/-- The heap of the booted kernel begins above the alias. -/
theorem Booted.heapBase_le {kernelEnd : Word} (boot : Booted K kernelEnd s)
    (image : 0 < kernelEnd.toNat ∧ kernelEnd.toNat ≤ 2 ^ 30) : heapBase ≤ s.kheapNext := by
  have value := alignUp_toNat (kernelVma + kernelEnd) (n := 21) (by decide)
  have sum : (kernelVma + kernelEnd).toNat = 0xFFFFFFFF80000000 + kernelEnd.toNat := by
    rw [BitVec.toNat_add, show kernelVma.toNat = 0xFFFFFFFF80000000 from by decide]
    omega
  have base : heapBase.toNat = 0xFFFFFFFF80200000 := by decide
  have size : BitVec.ofNat 64 (2 ^ 21) = 0x200000#64 := by decide
  rw [size] at value
  rw [boot.heap, BitVec.le_def, base, value, sum]
  omega

/-! ## User pages -/

section Pages

variable {c r : Nat} {v flags : Word}

/-- A filled frame of the pool is mapped at a user address from 2 MiB on; whether that
succeeds or not, the frame is no table. -/
theorem System.mapOrFree_user (h : System K roots s g) {f : Nat} {q : Pmm} (root : r ∈ roots)
    (low : 2 ^ 21 ≤ v.toNat) (below : v < userSpaceTop) (user : flags &&& vmmUser ≠ 0#64)
    (lt : f < s.pmm.totalFrames) (zero : s.pmm.refcount f = 0) (evolves : s.pmm.Evolves q)
    (counts : q.refcount = Function.update s.pmm.refcount f 1) (page : Page) :
    wp (mapOrFree r v (frameAddr f) flags) (fun _ s' => s'.cr3 = s.cr3 ∧
      ∃ g', System K roots s' g' ∧ g'.role f = none ∧ ¬ K.Shared f) Saturated
      { s with pmm := q, mem := Function.update s.mem f page } := by
  have free := h.unreserved zero
  rcases userPage_or_window below with own | inside
  · have held := (h.vm.fresh lt zero evolves counts page).2
    have bit : flags.getLsbD 2 = true := by
      rwa [ne_eq, and_user, Bool.not_eq_false] at user
    refine wp_imp (mapOrFree_spec h.vm lt zero evolves counts page
      (vmmMapPage_spec held ((h.live r).mpr root) own
        (by change f < q.totalFrames; rwa [evolves.total]) (by simp) bit)) ?_
    rintro done s' ⟨g', result, data⟩
    exact ⟨result.cr3, g', h.keep result.toGrow.keep (h.toSpaces.fresh result), data, free⟩
  · refine wp_imp (mapOrFree_huge h.toSpaces root inside (pdIdx_ne_zero low below inside) user lt
      zero evolves counts page) ?_
    rintro done s' ⟨_, effects, cur⟩
    exact ⟨cur, g, h.effects effects, (h.vm.wf.unused lt zero).1, free⟩

theorem mapUserZeroPage_sound (root : r ∈ roots) (low : 2 ^ 21 ≤ v.toNat)
    (below : v < userSpaceTop) (user : flags &&& vmmUser ≠ 0#64) (h : Sound K roots c s) :
    wp (mapUserZeroPage r v flags) (fun _ s' => Sound K roots c s') Saturated s := by
  obtain ⟨rfl, g, sys⟩ := h
  unfold mapUserZeroPage
  rw [wp_bind]
  apply allocFrame_spec sys.vm
  · intro _
    exact ⟨rfl, g, sys⟩
  · intro f q lt zero evolves counts _
    rw [wp_bind, wp_zeroFrame, frameOf_frameAddr (sys.vm.frame_small lt)]
    refine wp_imp (sys.mapOrFree_user root low below user lt zero evolves counts blankPage) ?_
    rintro _ s' ⟨cur, g', after, _⟩
    exact ⟨cur, g', after⟩

theorem unmapUserPage_sound (root : r ∈ roots) (below : v < userSpaceTop)
    (h : Sound K roots c s) :
    wp (unmapUserPage r v) (fun _ s' => Sound K roots c s') Saturated s := by
  obtain ⟨rfl, g, sys⟩ := h
  rcases userPage_or_window below with page | inside
  · refine wp_imp (unmapUserPage_spec sys.vm ((sys.live r).mpr root) page) ?_
    rintro _ s' ⟨g', gone⟩
    exact ⟨gone.cr3, g', sys.keep gone.toKeep (sys.toSpaces.unmapped gone)⟩
  · refine wp_imp (sys.unmapUserPage_window root inside) ?_
    rintro _ s' rfl
    exact ⟨rfl, g, sys⟩

theorem vmmCreateAddressSpace_sound (h : Sound K roots c s) :
    wp vmmCreateAddressSpace (fun result s' => match result with
      | none => Sound K roots c s'
      | some r => Sound K (r :: roots) c s' ∧ r ≠ c) Saturated s := by
  obtain ⟨rfl, g, sys⟩ := h
  refine wp_imp (vmmCreateAddressSpace_spec sys.vm sys.current.1 (fun _ => sys.current.2)) ?_
  rintro (_ | r) s' ⟨g', made⟩
  · exact ⟨made.cr3, g', sys.effect (.quiet made)⟩
  · refine ⟨⟨made.cr3, g', sys.effect (.created made)⟩, ?_⟩
    rintro rfl
    have used := sys.current.1
    rw [made.unused.2] at used
    exact absurd used (by decide)

/-- A space that is not loaded is destroyed. -/
theorem vmmDestroyUserAddressSpace_sound (root : r ∈ roots) (idle : r ≠ c)
    (h : Sound K roots c s) :
    wp (vmmDestroyUserAddressSpace r) (fun _ s' => Sound K (roots.erase r) c s') Saturated s := by
  obtain ⟨rfl, g, sys⟩ := h
  refine wp_imp (vmmDestroyUserAddressSpace_spec sys.vm ((sys.live r).mpr root)) ?_
  rintro _ s' ⟨g', gone⟩
  exact ⟨gone.cr3, g', sys.effect (.destroyed idle gone)⟩

end Pages

/-! ## Forks, faults and writes -/

theorem System.clone (h : System K roots s g) {r : Nat} (root : r ∈ roots) :
    wp (vmmCloneUserAddressSpace r) (fun result s' => ∃ g', match result with
      | none => System K roots s' g'
      | some dst => System K (dst :: roots) s' g') Saturated s := by
  refine wp_imp (vmmCloneUserAddressSpace_spec h.vm ((h.live r).mpr root) h.current.1
    (fun _ => h.current.2)) ?_
  rintro (_ | dst) s' ⟨g', made⟩
  · exact ⟨g', h.effect (.notCloned made)⟩
  · exact ⟨g', h.effect (.cloned root made)⟩

theorem System.fault (h : System K roots s g) (addr err : Word) :
    wp (vmmHandlePageFault addr err) (fun _ s' => ∃ g', System K roots s' g') Saturated s := by
  have spec := exec_fault_spec h.toSpaces addr err
  rw [exec, wp_bind] at spec
  refine wp_imp spec ?_
  rintro _ s' ⟨g', effects⟩
  exact ⟨g', h.effects effects⟩

theorem System.store (h : System K roots s g) {addr : Word} (b : Byte) (root : s.cr3 ∈ roots)
    (below : addr < userSpaceTop) :
    wp (userStore addr b) (fun _ s' => ∃ g', System K roots s' g') Saturated s := by
  have spec := exec_store_spec (b := b) h.toSpaces root below
  rw [exec, wp_bind, wp_get, wp_bind] at spec
  refine wp_imp spec ?_
  rintro (_ | _) s' ⟨g', effects⟩
  · exact ⟨g', h.effects effects⟩
  · exact ⟨g', h.effects effects⟩

theorem System.copyOut (h : System K roots s g) (addr : Word) (bytes : List Byte)
    (root : s.cr3 ∈ roots) :
    wp (copyToUser addr bytes) (fun _ s' => ∃ g', System K roots s' g') Saturated s := by
  refine wp_imp (copyToUser_effects h.toSpaces addr bytes root) ?_
  rintro ⟨_, n⟩ s' ⟨_, g', effects⟩
  have after := h.effects effects
  rw [writeEvents_roots] at after
  exact ⟨g', after⟩

end LithiumKernel.Mm
