import LithiumKernel.Mm.SpaceRun

/-!
# Frame accounting

What the reference counts of kernel/mm/pmm.c mean while address spaces come and go. The
statements read the page tables as they are in memory: `OwnedTable` follows the entries
from a root, and `userLeaves` are the pages at which the walks of kernel/mm/vmm.c find a
user leaf for a frame.
-/
namespace LithiumKernel.Mm

open LithiumKernel.Lib LithiumKernel.Lib.Forest

/-- The tables of an address space by their path: its PML4 and the tables of its lower
half, without those behind the shared `PDPT[0]` of the identity window. -/
inductive OwnedTable (mem : PhysMem) (root : Nat) : List Idx → Nat → Prop where
  | pml4 : OwnedTable mem root [] root
  | next {p t i} : OwnedTable mem root p t → p.length < 3 → ownsSlot (.user root) p i →
      mem t i &&& vmmPresent ≠ 0#64 → OwnedTable mem root (i :: p) (frameOf (mem t i))

/-- The page at `v` of the space `root` is a user page of frame `f`. -/
def MapsFrame (mem : PhysMem) (f root : Nat) (v : Word) : Prop :=
  vmmGetFlags mem root v &&& presentUser = presentUser ∧
    ∃ phys, vmmGetPhysical mem root v = some phys ∧ phys.toNat / pmmFrameSize = f

/-- The user leaf entries of all live spaces that map a frame, by root and page. -/
def userLeaves (mem : PhysMem) (roots : List Nat) (f : Nat) : Set (Nat × Word) :=
  {x | x.1 ∈ roots ∧ x.2 < userSpaceTop ∧ x.2.toNat % 4096 = 0 ∧ MapsFrame mem f x.1 x.2}

noncomputable def leafCount (st : VmState) (f : Nat) : Nat := (userLeaves st.mm.mem st.roots f).ncard

/-! ## The books are kept -/

/-- The system while only address spaces take and give back frames: what is held outside
is what was in use at the start. -/
structure Accounted (K : KernelTables) (start : Pmm) (st : VmState) (g : SpaceGhost) : Prop where
  spaces : Spaces K (fun f => f < start.totalFrames ∧ 0 < start.refcount f) st.roots st.mm g
  ext : g.ext = start.refcount
  users : ¬ (spaceLayout K.pdptHh).Live g .kernel
  evolves : start.Evolves st.mm.pmm

variable {K : KernelTables} {start : Pmm} {st st' : VmState} {g g' : SpaceGhost}

theorem Booted.accounted {kernelEnd : Word} {s : MemState} (boot : Booted K kernelEnd s) :
    Accounted K s.pmm ⟨s, []⟩ ⟨fun _ => none, fun _ => 0#64, s.pmm.refcount⟩ := by
  have notLive : ∀ o, ¬ (spaceLayout K.pdptHh).Live
      ⟨fun _ => none, fun _ => 0#64, s.pmm.refcount⟩ o := by
    intro o live
    cases live
  refine ⟨⟨⟨boot.ok, .nil (spaceLayout K.pdptHh) _ _ _⟩, ?_, List.nodup_nil, fun f here => here, ?_,
    ?_, boot.window, boot.root, ?_, ?_, .inl boot.cr3⟩, rfl, notLive _, .refl boot.ok⟩
  · intro r
    simp [notLive]
  · intro f member
    have used := boot.used f (by
      simp only [List.mem_cons, List.not_mem_nil, or_false, KernelTables.frames] at member ⊢
      tauto)
    exact ⟨used.1, by omega⟩
  · intro x filled
    exact absurd rfl filled
  · simp
  · simp

theorem Effect.ext_eq {s s' : MemState} {roots : List Nat} {ev : Option VmEvent}
    (effect : Effect K roots s g ev s' g') : g'.ext = g.ext := by
  cases effect with
  | quiet q => exact q.ext
  | marked _ => rfl
  | created made => exact made.ext
  | mapped _ empty done =>
    obtain ⟨_, _, _, _, _, ext⟩ := done.effect
    funext f
    rw [ext f, if_neg (by simp [empty]), Nat.add_zero]
  | unmapped gone => exact gone.ext
  | cloned _ made => exact made.ext
  | notCloned failed => exact failed.ext
  | resolved done => exact done.ext
  | destroyed _ gone => exact gone.ext
  | switched _ => rfl
  | wrote _ _ => rfl

theorem Effect.evolves {s s' : MemState} {roots : List Nat} {ev : Option VmEvent} (ok : s.pmm.Ok)
    (effect : Effect K roots s g ev s' g') : s.pmm.Evolves s'.pmm := by
  cases effect with
  | quiet q => exact q.evolves
  | marked _ => exact .refl ok
  | created made => exact made.evolves
  | mapped _ _ done => exact done.evolves
  | unmapped gone => exact gone.evolves
  | cloned _ made => exact made.evolves
  | notCloned failed => exact failed.evolves
  | resolved done => exact done.evolves
  | destroyed _ gone => exact gone.evolves
  | switched _ => exact .refl ok
  | wrote _ _ => exact .refl ok

/-- No effect makes the kernel an owner of the forest. -/
theorem Effect.kernel_live {s s' : MemState} {roots : List Nat} {ev : Option VmEvent}
    (effect : Effect K roots s g ev s' g') (live : (spaceLayout K.pdptHh).Live g' .kernel) :
    (spaceLayout K.pdptHh).Live g .kernel := by
  cases effect with
  | quiet q => exact (q.live _).mp live
  | marked _ => exact live
  | created made => exact ((made.live _).mp live).resolve_right (by simp)
  | mapped _ _ done => exact (done.live _).mp live
  | unmapped gone => exact (gone.live _).mp live
  | cloned _ made => exact ((made.live _).mp live).resolve_right (by simp)
  | notCloned failed => exact (failed.live _).mp live
  | resolved done => exact (done.live _).mp live
  | destroyed _ gone => exact ((gone.roles _ _).mp live).1
  | switched _ => exact live
  | wrote _ _ => exact live

theorem Accounted.effects {roots : List Nat} {s s' : MemState} {events : List VmEvent}
    (h : Accounted K start ⟨s, roots⟩ g) (effects : Effects K roots s g events s' g') :
    Accounted K start ⟨s', events.foldl VmEvent.roots roots⟩ g' := by
  induction effects with
  | nil => exact h
  | snoc _ effect ih =>
    refine ⟨?_, effect.ext_eq.trans ih.ext, fun live => ih.users (effect.kernel_live live),
      ih.evolves.trans (effect.evolves ih.spaces.vm.ok)⟩
    rw [List.foldl_append]
    exact ih.spaces.effect effect

/-- One operation keeps the books. -/
theorem Accounted.step {l : VmOp × List VmEvent} (h : Accounted K start st g)
    (above : MapsFrom (2 ^ 21) l.1) (step : VmStep K st l st') : ∃ g', Accounted K start st' g' := by
  obtain ⟨g', effects⟩ := wp_ok (exec_spec h.spaces step.allowed above) step.ran
  have after := h.effects effects
  rw [← step.roots] at after
  exact ⟨g', after⟩

/-! ## What the books say about memory -/

variable {reserved : Nat → Prop} {roots : List Nat} {s : MemState}

theorem Spaces.mapsFrame_iff (h : Spaces K reserved roots s g) {r f : Nat} {v : Word}
    (root : r ∈ roots) (page : UserPage v) :
    MapsFrame s.mem f r v ↔
      g.leaf (.user r, pagePath v) ≠ 0#64 ∧ frameOf (g.leaf (.user r, pagePath v)) = f := by
  have live := (h.live r).mpr root
  rw [MapsFrame, vmmGetFlags_user h.vm live page, vmmGetPhysical_user h.vm live page,
    and_presentUser, and_not_physMask_low _ (by decide), and_not_physMask_low _ (by decide)]
  constructor
  · rintro ⟨⟨present, _⟩, phys, found, frame⟩
    have filled := ne_zero_of_bit present
    rw [if_neg filled] at found
    obtain rfl := Option.some.inj found
    exact ⟨filled, (phys_frame _ v).symm.trans frame⟩
  · rintro ⟨filled, frame⟩
    refine ⟨leafOk_user_iff.mp (h.vm.leaf_facts filled).1, _, if_neg filled, ?_⟩
    rw [phys_frame, frame]

/-- A page that maps a frame lies outside the window. -/
theorem Spaces.userPage_of_maps (h : Spaces K reserved roots s g) {r f : Nat} {v : Word}
    (root : r ∈ roots) (below : v < userSpaceTop) (maps : MapsFrame s.mem f r v) : UserPage v := by
  rcases userPage_or_window below with page | inside
  · exact page
  · exact absurd maps.1 (h.window_supervisor (.inr root) inside)

/-- A user leaf is the leaf of a page. -/
theorem Spaces.leaf_page (h : Spaces K reserved roots s g) {r : Nat} {q : List Idx}
    (filled : g.leaf (.user r, q) ≠ 0#64) :
    r ∈ roots ∧ ∃ v : Word, v < userSpaceTop ∧ v.toNat % 4096 = 0 ∧ UserPage v ∧ pagePath v = q := by
  obtain ⟨l, m, j, i, rfl, lower, outside⟩ := h.vm.leaf_owned filled
  have value := makeVirt_toNat i j m l
  refine ⟨(h.live r).mp (h.vm.wf.live_of_leaf filled), makeVirt i j m l, ?_, ?_,
    userPage_makeVirt m l lower outside, pagePath_makeVirt i j m l⟩
  · rw [BitVec.lt_def, value, show userSpaceTop.toNat = 2 ^ 47 from by decide]
    omega
  · rw [value]
    omega

theorem Spaces.userPage_of_leaf (h : Spaces K reserved roots s g) {r : Nat} {v : Word}
    (filled : g.leaf (.user r, pagePath v) ≠ 0#64) : UserPage v := by
  obtain ⟨_, w, _, _, page, path⟩ := h.leaf_page filled
  simp only [pagePath, List.cons.injEq, and_true] at path
  rw [UserPage, ← path.2.2.1, ← path.2.2.2]
  exact page

/-- The leaves the walks find are the leaves of the forest. -/
theorem Spaces.userLeaves_image (h : Spaces K reserved roots s g)
    (users : ¬ (spaceLayout K.pdptHh).Live g .kernel) (f : Nat) :
    (spaceLayout K.pdptHh).refSet g.leaf f =
      (fun x : Nat × Word => (Owner.user x.1, pagePath x.2)) '' userLeaves s.mem roots f := by
  ext ⟨o, q⟩
  constructor
  · rintro ⟨filled, frame⟩
    have live := h.vm.wf.live_of_leaf filled
    cases o with
    | kernel => exact absurd live users
    | user r =>
      obtain ⟨root, v, below, aligned, page, rfl⟩ := h.leaf_page filled
      exact ⟨(r, v), ⟨root, below, aligned, (h.mapsFrame_iff root page).mpr ⟨filled, frame⟩⟩, rfl⟩
  · rintro ⟨⟨r, v⟩, ⟨root, below, _, maps⟩, eq⟩
    obtain ⟨rfl, rfl⟩ := Prod.mk.inj eq
    exact (h.mapsFrame_iff root (h.userPage_of_maps root below maps)).mp maps

theorem Accounted.leafCount_eq (h : Accounted K start st g) (f : Nat) :
    leafCount st f = (spaceLayout K.pdptHh).leafRefs g.leaf f := by
  rw [Layout.leafRefs, h.spaces.userLeaves_image h.users, leafCount]
  refine (Set.InjOn.ncard_image ?_).symm
  rintro ⟨r, v⟩ ⟨_, below, aligned, _⟩ ⟨r', v'⟩ ⟨_, below', aligned', _⟩ eq
  obtain ⟨owner, path⟩ := Prod.mk.inj eq
  obtain rfl := Owner.user.inj owner
  simp only [pagePath, List.cons.injEq, and_true] at path
  obtain ⟨pt, pd, pdpt, pml4⟩ := path
  have same : v = v' := calc
    v = makeVirt (pml4Idx v) (pdptIdx v) (pdIdx v) (ptIdx v) :=
      (makeVirt_pagePath below aligned).symm
    _ = makeVirt (pml4Idx v') (pdptIdx v') (pdIdx v') (ptIdx v') := by rw [pt, pd, pdpt, pml4]
    _ = v' := makeVirt_pagePath below' aligned'
  rw [same]

/-- Following the entries from a live root leads to the tables of the forest. -/
theorem Spaces.role_of_owned (h : Spaces K reserved roots s g) {r t : Nat} {p : List Idx}
    (root : r ∈ roots) (owned : OwnedTable s.mem r p t) : g.role t = some (.user r, p) := by
  induction owned with
  | pml4 => exact (h.live r).mpr root
  | next _ short own present ih =>
    have filled : s.mem _ _ ≠ 0#64 := fun zero => present ((h.vm.link_present ih short own).mpr zero)
    exact (h.vm.wf.link ih short own filled).2

theorem Spaces.owned_of_role (h : Spaces K reserved roots s g) {r : Nat} :
    ∀ {p : List Idx} {t : Nat}, g.role t = some (.user r, p) → OwnedTable s.mem r p t := by
  intro p
  induction p with
  | nil =>
    intro t role
    obtain rfl : t = r := h.vm.wf.base_frame role
    exact .pml4
  | cons i p ih =>
    intro t role
    obtain ⟨i', p', t', eq, up, own, filled, target⟩ := h.vm.wf.back role (by simp [spaceLayout])
    obtain ⟨rfl, rfl⟩ := List.cons.inj eq
    have short : p.length < 3 := by
      have depth : (i :: p).length ≤ 3 := h.vm.wf.depth_le role
      rw [List.length_cons] at depth
      omega
    have present : s.mem t' i &&& vmmPresent ≠ 0#64 := fun zero =>
      filled ((h.vm.link_present up short own).mp zero)
    have next := OwnedTable.next (ih up) short own present
    rwa [show frameOf (s.mem t' i) = t from target] at next

/-- A frame some user page maps is counted once for each such page. -/
theorem Accounted.data_count (h : Accounted K start st g) {f : Nat} (mapped : 0 < leafCount st f) :
    st.mm.pmm.refcount f = leafCount st f := by
  rw [h.leafCount_eq] at mapped ⊢
  obtain ⟨x, filled, target⟩ := Set.nonempty_of_ncard_ne_zero (Nat.pos_iff_ne_zero.mp mapped)
  obtain rfl : frameOf (g.leaf x) = f := target
  obtain ⟨_, lt, data, _⟩ := h.spaces.vm.leaf_facts filled
  have count := h.spaces.vm.wf.count _ lt
  have noTable : Layout.tableRef g.role (frameOf (g.leaf x)) = 0 := by
    simp [Layout.tableRef, data]
  have notHeld : g.ext (frameOf (g.leaf x)) = 0 := by
    rw [h.ext]
    by_contra pos
    refine h.spaces.apart x filled ⟨?_, Nat.pos_of_ne_zero pos⟩
    rwa [h.evolves.total] at lt
  rw [noTable, notHeld] at count
  omega

theorem Accounted.rest_count (h : Accounted K start st g) {f : Nat}
    (lt : f < st.mm.pmm.totalFrames) (unmapped : leafCount st f = 0)
    (noTable : ∀ r ∈ st.roots, ∀ p, ¬ OwnedTable st.mm.mem r p f) :
    st.mm.pmm.refcount f = start.refcount f := by
  have count := h.spaces.vm.wf.count f lt
  have free : g.role f = none := by
    cases role : g.role f with
    | none => rfl
    | some x =>
      obtain ⟨o, p⟩ := x
      have live := h.spaces.vm.wf.live_of_role role
      cases o with
      | kernel => exact absurd live h.users
      | user r => exact absurd (h.spaces.owned_of_role role) (noTable r ((h.spaces.live r).mp live) p)
  rw [← h.leafCount_eq, unmapped, h.ext] at count
  simpa [Layout.tableRef, free] using count

theorem Accounted.table_count (h : Accounted K start st g) {r t : Nat} {p : List Idx}
    (root : r ∈ st.roots) (owned : OwnedTable st.mm.mem r p t) :
    st.mm.pmm.refcount t = 1 ∧
      ∀ r' ∈ st.roots, ∀ p', OwnedTable st.mm.mem r' p' t → r' = r ∧ p' = p := by
  have role := h.spaces.role_of_owned root owned
  refine ⟨h.spaces.vm.wf.rc_table role, ?_⟩
  intro r' root' p' owned'
  rw [h.spaces.role_of_owned root' owned'] at role
  obtain ⟨owner, path⟩ := Prod.mk.inj (Option.some.inj role)
  exact ⟨Owner.user.inj owner, path⟩

/-- With no address space left, the pool is as it was. -/
theorem Accounted.all_returned (ok : start.Ok) (h : Accounted K start st g) (none : st.roots = []) :
    (∀ f, f < start.totalFrames → st.mm.pmm.refcount f = start.refcount f) ∧
      st.mm.pmm.freeFrames = start.freeFrames := by
  have counts : ∀ f, f < start.totalFrames → st.mm.pmm.refcount f = start.refcount f := by
    intro f lt
    refine h.rest_count (by rwa [h.evolves.total]) ?_ (by simp [none])
    simp [leafCount, userLeaves, none]
  exact ⟨counts, h.evolves.freeFrames_eq ok counts⟩

/-! ## Runs -/

theorem Booted.run_accounted {kernelEnd : Word} {labels : List (VmOp × List VmEvent)}
    (boot : Booted K kernelEnd s) (run : Run (StepFrom (2 ^ 21) K) ⟨s, []⟩ labels st) :
    ∃ g, Accounted K s.pmm st g := by
  refine run.invariant (fun st => ∃ g, Accounted K s.pmm st g) ⟨_, boot.accounted⟩ ?_
  rintro st l st' ⟨g, h⟩ ⟨above, step⟩
  exact h.step above step

/-- After any run of creations, mappings, unmappings, clones, faults and destructions:
a frame that user pages map is counted once for each of them, a table of an address space
is counted once and hangs in one place, and every other frame has the count it started
with. The next operation meets no failing assertion unless a frame has 65535 references.
With all address spaces gone the pool is back where it started. -/
theorem frame_accounting {kernelEnd : Word} {labels : List (VmOp × List VmEvent)}
    (boot : Booted K kernelEnd s) (run : Run (StepFrom (2 ^ 30) K) ⟨s, []⟩ labels st) :
    (∀ f, 0 < leafCount st f → st.mm.pmm.refcount f = leafCount st f) ∧
    (∀ r ∈ st.roots, ∀ p t, OwnedTable st.mm.mem r p t → st.mm.pmm.refcount t = 1 ∧
      ∀ r' ∈ st.roots, ∀ p', OwnedTable st.mm.mem r' p' t → r' = r ∧ p' = p) ∧
    (∀ f, f < st.mm.pmm.totalFrames → leafCount st f = 0 →
      (∀ r ∈ st.roots, ∀ p, ¬ OwnedTable st.mm.mem r p f) →
      st.mm.pmm.refcount f = s.pmm.refcount f) ∧
    (∀ op e s', Allowed K st op → MapsFrom (2 ^ 30) op → exec op st.mm = .error e s' →
      e = .refSaturated ∧ ∃ f, uint16Max ≤ s'.pmm.refcount f) ∧
    (st.roots = [] →
      (∀ f, f < s.pmm.totalFrames → st.mm.pmm.refcount f = s.pmm.refcount f) ∧
      st.mm.pmm.freeFrames = s.pmm.freeFrames) := by
  obtain ⟨g, h⟩ := boot.run_accounted (run.mono (fun _ _ _ step => StepFrom.mono (by decide) step))
  refine ⟨fun f => h.data_count, fun r root p t owned => h.table_count root owned,
    fun f => h.rest_count, ?_, h.all_returned boot.ok⟩
  intro op e s' allowed above failed
  have saturated : Saturated e s' :=
    wp_error (exec_spec h.spaces allowed (MapsFrom.mono (by decide) above)) failed
  exact saturated

/-- The first address space of the small machine. -/
def smallFirst : MemState :=
  { smallMachine with
    pmm := (smallPool.takeFrame 8).takeFrame 9
    mem := createdMem smallMemory 1 8 9 }

theorem smallMachine_create : vmmCreateAddressSpace smallMachine = .ok (some 8) smallFirst :=
  vmmCreateAddressSpace_run (pmmAllocFrame_run (by decide) (by decide))
    (pmmAllocFrame_run (by decide) (by decide)) (by decide) (by decide) (by decide) (by decide)
    (by decide) (by decide)

theorem smallMachine_step : VmStep smallTables ⟨smallMachine, []⟩ (.create, [.created 8])
    ⟨smallFirst, [8]⟩ := by
  refine ⟨trivial, ?_, rfl⟩
  apply run_of_wp
  rw [exec, wp_bind, wp_run smallMachine_create]
  exact ⟨rfl, rfl⟩

theorem frame_accounting_small :
    Booted smallTables 0x180000#64 smallMachine ∧
    Run (StepFrom (2 ^ 30) smallTables) ⟨smallMachine, []⟩ [(.create, [.created 8])] ⟨smallFirst, [8]⟩ ∧
    ∀ p t, OwnedTable smallFirst.mem 8 p t → smallFirst.pmm.refcount t = 1 := by
  have run : Run (StepFrom (2 ^ 30) smallTables) ⟨smallMachine, []⟩ [(.create, [.created 8])]
      ⟨smallFirst, [8]⟩ := .snoc .nil ⟨trivial, smallMachine_step⟩
  have all := frame_accounting smallMachine_booted run
  exact ⟨smallMachine_booted, run, fun p t owned =>
    (all.2.1 8 (List.mem_singleton_self 8) p t owned).1⟩

end LithiumKernel.Mm
