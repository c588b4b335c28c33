import LithiumKernel.Mm.CowIsolation
import LithiumKernel.Mm.FrameBalance
import LithiumKernel.Mm.System

/-!
# A clone that fails

`vmm_clone_user_address_space` undoes a failed clone through the generic destroy path and
leaves the source with some pages in copy-on-write form. Two views of one run show that this is
harmless. Seen from outside, where only the new space is tracked, every reference taken on the
way is given back. Seen from inside, a page of the source names the frame it named and is
writable or copy-on-write if it was so before.
-/
namespace LithiumKernel.Mm

open LithiumKernel.Lib LithiumKernel.Lib.Forest

/-! ## The clone from outside -/

/-- The clone of `src` on its way, begun in `s₀`: only the new space `dst` is tracked, and of the
source it is known that its inner tables are untouched and its leaves at most shared. -/
structure Cloning (k src dst : Nat) (s₀ : MemState) (g₀ : SpaceGhost) (s : MemState)
    (g : SpaceGhost) : Prop where
  vm : Vm k s g
  live : ∀ o, (spaceLayout k).Live g o ↔ o = .user dst
  ext : g.ext = s₀.pmm.refcount
  evolves : s₀.pmm.Evolves s.pmm
  inner : ∀ {t p}, g₀.role t = some (.user src, p) → p.length < 3 → s.mem t = s₀.mem t
  leaves : ∀ {t p}, g₀.role t = some (.user src, p) → p.length = 3 → ∀ l,
    s.mem t l = s₀.mem t l ∨ s.mem t l = cowEntry (s₀.mem t l)

/-- `m` copies `pages`, none of which the new space has yet, and no others. -/
def CopiesPages (k src dst : Nat) (s₀ : MemState) (g₀ : SpaceGhost) (pages : List Idx → Prop)
    (m : MmM Bool) : Prop :=
  ∀ s g, Cloning k src dst s₀ g₀ s g → (∀ q, pages q → g.leaf (.user dst, q) = 0#64) →
    wp m (fun _ s' => ∃ g', Cloning k src dst s₀ g₀ s' g' ∧
      ∀ q, ¬ pages q → g'.leaf (.user dst, q) = g.leaf (.user dst, q)) Saturated s

section Outside

variable {k src dst : Nat} {s₀ s s' : MemState} {g₀ g g' : SpaceGhost}

theorem CopiesPages.skip {pages : List Idx → Prop} (b : Bool) :
    CopiesPages k src dst s₀ g₀ pages (pure b) :=
  fun _ g cloning _ => ⟨g, cloning, fun _ _ => rfl⟩

/-- A frame in use at the start is no table of the new space. -/
theorem Cloning.data (c : Cloning k src dst s₀ g₀ s g) {f : Nat} (used : 0 < s₀.pmm.refcount f) :
    g.role f = none := by
  apply c.vm.wf.role_none_of_ext
  rwa [c.ext]

theorem cowEntry_idem (e : Word) : cowEntry (cowEntry e) = cowEntry e := by
  have readOnly : cowEntry e &&& vmmWrite = 0#64 := by
    rw [and_write, cowEntry_low e (by decide), if_pos rfl]
  conv_lhs => rw [cowEntry, if_neg (not_not_intro readOnly)]

/-- Of the frames in use at the start, one leaf of the source has been shared. -/
theorem Cloning.shared (h : Vm k s₀ g₀) (c : Cloning k src dst s₀ g₀ s g) {t : Nat} {p : List Idx}
    {l : Idx} (at_t : g₀.role t = some (.user src, p)) (full : p.length = 3) (vm : Vm k s' g')
    (live : ∀ o, (spaceLayout k).Live g' o ↔ (spaceLayout k).Live g o)
    (ext : g'.ext = g.ext) (evolves : s.pmm.Evolves s'.pmm)
    (same : ∀ f, f < s₀.pmm.totalFrames → 0 < s₀.pmm.refcount f →
      s'.mem f = store s.mem t l (cowEntry (s.mem t l)) f) :
    Cloning k src dst s₀ g₀ s' g' := by
  have table : ∀ {t' x}, g₀.role t' = some x →
      s'.mem t' = store s.mem t l (cowEntry (s.mem t l)) t' := by
    intro t' x at_t'
    refine same t' (h.wf.table_lt at_t') ?_
    rw [h.wf.rc_table at_t']
    decide
  refine ⟨vm, fun o => (live o).trans (c.live o), ext.trans c.ext, c.evolves.trans evolves, ?_, ?_⟩
  · intro t' p' at_t' inner
    have other : t' ≠ t := by
      rintro rfl
      rw [at_t] at at_t'
      obtain ⟨_, rfl⟩ := Prod.mk.inj (Option.some.inj at_t')
      omega
    rw [table at_t', store_frame _ _ _ other, c.inner at_t' inner]
  · intro t' p' at_t' full' l'
    rw [table at_t']
    by_cases here : t' = t ∧ l' = l
    · obtain ⟨rfl, rfl⟩ := here
      rw [store_same]
      rcases c.leaves at_t' full' l' with same | cow
      · exact .inr (by rw [same])
      · exact .inr (by rw [cow, cowEntry_idem])
    · rw [store_of_ne _ _ here]
      exact c.leaves at_t' full' l'

theorem clonePte_copies (h : Vm k s₀ g₀) {t : Nat} {i j m : Idx} (l : Idx)
    (at_t : g₀.role t = some (.user src, [m, j, i])) :
    CopiesPages k src dst s₀ g₀ ([l, m, j, i] <:+ ·) (clonePte dst i j m t l) := by
  intro s g c vacant
  obtain ⟨lower, window⟩ := h.table_owned at_t
  have leaf : g₀.leaf (.user src, [l, m, j, i]) = s₀.mem t l := h.wf.leaf_mem at_t rfl trivial
  rw [clonePte, wp_bind, wp_readEntry]
  apply wp_ite
  · intro _
    exact ⟨g, c, fun _ _ => rfl⟩
  intro mapped
  have bits := (and_presentUser _).mp (not_not.mp mapped)
  -- the entry names the frame it named at the start
  have frame : frameOf (s.mem t l) = frameOf (s₀.mem t l) := by
    rcases c.leaves at_t rfl l with same | cow
    · rw [same]
    · rw [cow, cowEntry_frame]
  have filled : g₀.leaf (.user src, [l, m, j, i]) ≠ 0#64 := by
    rw [leaf]
    intro zero
    rcases c.leaves at_t rfl l with same | cow
    · rw [same, zero] at bits
      exact absurd bits.1 (by decide)
    · rw [cow, zero, cowEntry_zero] at bits
      exact absurd bits.1 (by decide)
  obtain ⟨_, lt, _, used⟩ := h.leaf_facts filled
  rw [leaf, ← frame] at lt used
  have ltNow : frameOf (s.mem t l) < s.pmm.totalFrames := by rwa [c.evolves.total]
  have outside := c.data used
  have tableOutside : g.role t = none := c.data (by rw [h.wf.rc_table at_t]; decide)
  dsimp only
  rw [and_physMask, wp_bind]
  apply refFrame_spec c.vm.ok ltNow (c.vm.rc_pos_of_ext ltNow (by rwa [c.ext]))
  intro q evolves counts
  have taken := c.vm.hold outside evolves counts
  rw [wp_bind]
  apply shareLeaf_spec (s := { s with pmm := q }) t l
  have held : Vm k { s with pmm := q, mem := store s.mem t l (cowEntry (s.mem t l)) }
      ⟨g.role, g.leaf, Function.update g.ext (frameOf (s.mem t l))
        (g.ext (frameOf (s.mem t l)) + 1)⟩ := by
    refine ⟨taken.ok, taken.wf.scribble ?_⟩
    intro t' o p i' role _
    have other : t' ≠ t := by
      rintro rfl
      rw [tableOutside] at role
      cases role
    exact congrFun (store_frame _ _ _ other) i'
  have entry : leafEntry (frameAddr (frameOf (s.mem t l))) (cowFlags (s.mem t l)) =
      cowEntry (s.mem t l) := by
    rw [← and_physMask, leafEntry_cow bits.1]
  refine wp_seq (vmmMapPage_spec held ((c.live _).mpr rfl) (userPage_makeVirt m l lower window)
    (f := frameOf (s.mem t l)) (by change _ < q.totalFrames; rwa [evolves.total]) (by simp)
    (cowFlags_user bits.2)) ?_
  rw [entry, pagePath_makeVirt]
  rintro done s₁ ⟨g₁, mappedTo⟩
  have same : ∀ f, f < s₀.pmm.totalFrames → 0 < s₀.pmm.refcount f →
      s₁.mem f = store s.mem t l (cowEntry (s.mem t l)) f := by
    intro f lt used
    refine (mappedTo.data (c.data used) (held.rc_pos_of_ext ?_ ?_)).2.2
    · rw [(c.evolves.trans evolves).total]
      exact lt
    · rw [← c.ext] at used
      change 0 < Function.update g.ext _ _ f
      by_cases here : f = frameOf (s.mem t l)
      · simp [here]
      · rwa [Function.update_of_ne here]
  have others : ∀ q, ¬ [l, m, j, i] <:+ q → (Owner.user dst, q) ≠ (.user dst, [l, m, j, i]) := by
    intro q off eq
    exact off (by rw [(Prod.mk.inj eq).2])
  apply wp_ite
  · rintro rfl
    refine ⟨g₁, c.shared h at_t rfl mappedTo.vm mappedTo.live
      (mappedTo.spent (cowEntry_frame _) (vacant _ (List.suffix_refl _)))
      (evolves.trans mappedTo.evolves) same, ?_⟩
    intro q off
    rw [mappedTo.effect.1, Function.update_of_ne (others q off)]
  · intro failed
    obtain rfl : done = false := by simpa using failed
    obtain ⟨leaf₁, ext₁⟩ := mappedTo.effect
    have heldNow : 0 < g₁.ext (frameOf (s.mem t l)) := by
      rw [ext₁]
      simp
    have lt₁ : frameOf (s.mem t l) < s₁.pmm.totalFrames := by
      rw [mappedTo.evolves.total]
      change _ < q.totalFrames
      rwa [evolves.total]
    rw [wp_bind]
    apply freeFrame_spec mappedTo.vm.ok lt₁ (mappedTo.vm.rc_pos_of_ext lt₁ heldNow)
    intro q' evolves' counts'
    have dropped := mappedTo.vm.dropHeld lt₁ heldNow evolves' counts'
    rw [ext₁] at dropped
    refine ⟨⟨g₁.role, g₁.leaf, g.ext⟩, c.shared h at_t rfl (by simpa using dropped)
      mappedTo.live rfl ((evolves.trans mappedTo.evolves).trans evolves') same, ?_⟩
    intro q _
    exact congrFun leaf₁ _

/-- Two slots of one table have no page in common, so the slots may be copied in turn. -/
theorem copies_slots {p xs : List Idx} {body : Idx → MmM Bool} (nodup : xs.Nodup)
    (slot : ∀ i ∈ xs, CopiesPages k src dst s₀ g₀ ((i :: p) <:+ ·) (body i)) :
    CopiesPages k src dst s₀ g₀ (p <:+ ·) (xs.allM body) := by
  intro s g c vacant
  have below : ∀ {q : List Idx} {i : Idx}, (i :: p) <:+ q → p <:+ q :=
    fun {q i} suffix => (List.suffix_cons i p).trans suffix
  refine wp_imp (wp_allM
    (fun done s' => ∃ g', Cloning k src dst s₀ g₀ s' g' ∧
      ∀ q, (∀ i ∈ done, ¬ (i :: p) <:+ q) → g'.leaf (.user dst, q) = g.leaf (.user dst, q))
    (fun s' => ∃ g', Cloning k src dst s₀ g₀ s' g' ∧
      ∀ q, ¬ p <:+ q → g'.leaf (.user dst, q) = g.leaf (.user dst, q)) xs ?_ ?_) ?_
  · rintro done i rest s₁ split ⟨g₁, c₁, same⟩
    have notDone : i ∉ done := by
      rw [split] at nodup
      intro member
      exact (List.nodup_append.mp nodup).2.2 i member i (by simp) rfl
    refine wp_imp (slot i (by simp [split]) s₁ g₁ c₁ ?_) ?_
    · intro q suffix
      rw [same q, vacant q (below suffix)]
      intro j member suffix'
      rw [slot_unique suffix suffix'] at notDone
      exact notDone member
    · rintro (_ | _) s₂ ⟨g₂, c₂, same'⟩
      · refine ⟨g₂, c₂, fun q off => ?_⟩
        rw [same' q fun suffix => off (below suffix), same q fun _ _ suffix => off (below suffix)]
      · refine ⟨g₂, c₂, fun q off => ?_⟩
        rw [same' q (off i (by simp)), same q fun j member => off j (by simp [member])]
  · exact ⟨g, c, fun _ _ => rfl⟩
  · rintro (_ | _) s₁ ⟨g₁, c₁, same⟩
    · exact ⟨g₁, c₁, same⟩
    · exact ⟨g₁, c₁, fun q off => same q fun _ _ suffix => off (below suffix)⟩

/-- An inner slot of the source has nothing behind it or names a table of the source. -/
theorem Cloning.slot_cases (h : Vm k s₀ g₀) (c : Cloning k src dst s₀ g₀ s g) {t : Nat}
    {p : List Idx} {i : Idx} (at_t : g₀.role t = some (.user src, p)) (inner : p.length < 3)
    (own : ownsSlot (.user src) p i) :
    s.mem t i &&& vmmPresent = 0#64 ∨ s.mem t i &&& vmmPresent ≠ 0#64 ∧
      s.mem t i &&& vmmHuge = 0#64 ∧ g₀.role (frameOf (s.mem t i)) = some (.user src, i :: p) := by
  rw [c.inner at_t inner]
  by_cases vacant : s₀.mem t i = 0#64
  · exact .inl (by rw [vacant]; decide)
  · obtain ⟨link, at_child⟩ := h.wf.link at_t inner own vacant
    exact .inr ⟨link.1, link.2, at_child⟩

theorem cloneEntry_copies (h : Vm k s₀ g₀) {below : Nat → MmM Bool} {t : Nat} {p : List Idx}
    {i : Idx} (at_t : g₀.role t = some (.user src, p)) (inner : p.length < 3)
    (own : ownsSlot (.user src) p i)
    (level : ∀ t', g₀.role t' = some (.user src, i :: p) →
      CopiesPages k src dst s₀ g₀ ((i :: p) <:+ ·) (below t')) :
    CopiesPages k src dst s₀ g₀ ((i :: p) <:+ ·) (cloneEntry below t i) := by
  intro s g c vacant
  rw [cloneEntry, wp_bind, wp_readEntry]
  rcases c.slot_cases h at_t inner own with absent | ⟨present, small, at_child⟩
  · rw [if_pos absent]
    exact CopiesPages.skip true s g c vacant
  · rw [if_neg present, if_neg (not_not_intro small)]
    exact level _ at_child s g c vacant

theorem clonePml4_copies (h : Vm k s₀ g₀) (live : (spaceLayout k).Live g₀ (.user src)) :
    CopiesPages k src dst s₀ g₀ (fun _ => True) (lowerHalf.allM (clonePml4e dst src)) := by
  have pt : ∀ i j m t, g₀.role t = some (.user src, [m, j, i]) →
      CopiesPages k src dst s₀ g₀ ([m, j, i] <:+ ·) (clonePt dst i j m t) := by
    intro i j m t at_t
    exact copies_slots nodup_allSlots fun l _ => clonePte_copies h l at_t
  have pd : ∀ i j t, g₀.role t = some (.user src, [j, i]) →
      CopiesPages k src dst s₀ g₀ ([j, i] <:+ ·) (clonePd dst i j t) := by
    intro i j t at_t
    exact copies_slots nodup_allSlots fun m _ =>
      cloneEntry_copies h at_t (by simp) trivial (pt i j m)
  have pdpt : ∀ i t, g₀.role t = some (.user src, [i]) →
      CopiesPages k src dst s₀ g₀ ([i] <:+ ·) (clonePdpt dst i t) := by
    intro i t at_t
    refine copies_slots nodup_allSlots fun j _ => ?_
    unfold clonePdpte
    split
    · exact .skip true
    · rename_i own
      exact cloneEntry_copies h at_t (by simp) own (pd i j)
  have at_root : g₀.role src = some (.user src, []) := live
  have root : CopiesPages k src dst s₀ g₀ ([] <:+ ·) (lowerHalf.allM (clonePml4e dst src)) := by
    refine copies_slots nodup_lowerHalf fun i member => ?_
    intro s g c vacant
    rw [clonePml4e, wp_bind, wp_readEntry]
    rcases c.slot_cases h at_root (by simp) ((mem_lowerHalf i).mp member) with
      absent | ⟨present, _, at_child⟩
    · rw [if_pos absent]
      exact CopiesPages.skip true s g c vacant
    · rw [if_neg present]
      exact pdpt i _ at_child s g c vacant
  simpa using root

/-- A clone that fails has given back every reference it took. -/
theorem vmmCloneUserAddressSpace_balance (h : Vm k s g)
    (live : (spaceLayout k).Live g (.user src)) (cur : 0 < s.pmm.refcount s.cr3)
    (low : s.mem s.cr3 0 &&& vmmPresent ≠ 0#64 →
      0 < s.pmm.refcount (frameOf (s.mem s.cr3 0))) :
    wp (vmmCloneUserAddressSpace src) (fun result s' => result = none → FramesKept s s')
      Saturated s := by
  unfold vmmCloneUserAddressSpace
  refine wp_seq (vmmCreateAddressSpace_spec (outsideGhost_vm (k := k) h.ok) cur low) ?_
  rintro (_ | dst) s₁ ⟨g₁, made⟩
  · intro _
    exact framesKept_of_quiet h.ok made
  have start : Cloning k src dst s g s₁ g₁ := by
    have same : ∀ {t x}, g.role t = some x → s₁.mem t = s.mem t := by
      intro t x at_t
      refine (made.data rfl ?_).2.2
      rw [h.wf.rc_table at_t]
      decide
    refine ⟨made.vm, fun o => (made.live o).trans ?_, made.ext, made.evolves,
      fun at_t _ => same at_t, fun at_t _ l => .inl (by rw [same at_t])⟩
    exact ⟨fun either => either.resolve_left (outsideGhost_live o), .inr⟩
  refine wp_seq (clonePml4_copies h live s₁ g₁ start fun q _ => by rw [made.leaf]; rfl) ?_
  rintro done s₂ ⟨g₂, c, _⟩
  apply wp_ite
  · intro _ no
    cases no
  · intro _
    refine wp_seq (vmmDestroyUserAddressSpace_spec c.vm ((c.live _).mpr rfl)) ?_
    rintro _ s₃ ⟨g₃, gone⟩ _
    refine framesKept_of_dead h.ok (c.evolves.trans gone.evolves) gone.vm ?_
      (gone.ext.trans c.ext)
    intro o still
    obtain ⟨before, other⟩ := (gone.roles _ _).mp still
    exact other ((c.live o).mp before)

end Outside

/-! ## The source from inside -/

section Inside

variable {k r src : Nat} {s s' : MemState} {g g' : SpaceGhost} {v : Word}

/-- The page of `v` is a user page that is writable or copy-on-write. -/
def OpenForWriting (mem : PhysMem) (root : Nat) (v : Word) : Prop :=
  vmmGetFlags mem root v &&& presentUser = presentUser ∧
    (vmmGetFlags mem root v &&& vmmWrite ≠ 0#64 ∨ vmmGetFlags mem root v &&& vmmCow ≠ 0#64)

/-- Nobody else shares the page of `v`. -/
def SoleUser (s : MemState) (root : Nat) (v : Word) : Prop :=
  ∃ phys, vmmGetPhysical s.mem root v = some phys ∧
    s.pmm.refcount (phys.toNat / pmmFrameSize) = 1

/-- Writable or copy-on-write, by the flags of a leaf. -/
def LeafOpen (e : Word) : Prop := e ≠ 0#64 ∧ (e.getLsbD 1 = true ∨ e.getLsbD 9 = true)

theorem Vm.openForWriting_iff (h : Vm k s g) (live : (spaceLayout k).Live g (.user r))
    (page : UserPage v) :
    OpenForWriting s.mem r v ↔ LeafOpen (g.leaf (.user r, pagePath v)) := by
  rw [OpenForWriting, LeafOpen, vmmGetFlags_user h live page, and_presentUser, ne_eq, and_write,
    ne_eq, and_cow]
  simp only [and_not_physMask_low _ (show 0 < 12 by decide),
    and_not_physMask_low _ (show 1 < 12 by decide), and_not_physMask_low _ (show 2 < 12 by decide),
    and_not_physMask_low _ (show 9 < 12 by decide), Bool.not_eq_false]
  refine and_congr_left fun _ => ⟨fun bits => ne_zero_of_bit bits.1, fun filled => ?_⟩
  exact leafOk_user_iff.mp (h.leaf_facts filled).1

theorem Vm.soleUser_iff (h : Vm k s g) (live : (spaceLayout k).Live g (.user r))
    (page : UserPage v) : SoleUser s r v ↔ g.leaf (.user r, pagePath v) ≠ 0#64 ∧
      s.pmm.refcount (frameOf (g.leaf (.user r, pagePath v))) = 1 := by
  rw [SoleUser, vmmGetPhysical_user h live page]
  by_cases empty : g.leaf (.user r, pagePath v) = 0#64
  · simp [empty]
  · rw [if_neg empty]
    simp only [Option.some.injEq, exists_eq_left', phys_frame, ne_eq, empty, not_false_eq_true,
      true_and]

theorem leafOpen_cow (e : Word) (ok : (spaceLayout k).leafOk (.user r) e ∨ e = 0#64) :
    LeafOpen (cowEntry e) ↔ LeafOpen e := by
  rcases ok with ok | rfl
  · have present := (leafOk_user_iff.mp ok).1
    have present' := (leafOk_user_iff.mp (cowEntry_leafOk r ok)).1
    rw [LeafOpen, LeafOpen, cowEntry_low e (by decide), cowEntry_low e (by decide)]
    simp [ne_zero_of_bit present, ne_zero_of_bit present', or_comm]
  · rw [cowEntry_zero]

/-- Of a page of the source, a failed clone changes neither the frame nor whether a store can
succeed. -/
theorem NotCloned.leaf_same (h : Vm k s g) (failed : NotCloned k src s g s' g') (q : List Idx) :
    (g'.leaf (.user src, q) = 0#64 ↔ g.leaf (.user src, q) = 0#64) ∧
      frameOf (g'.leaf (.user src, q)) = frameOf (g.leaf (.user src, q)) ∧
      (LeafOpen (g'.leaf (.user src, q)) ↔ LeafOpen (g.leaf (.user src, q))) ∧
      leafPage s' (g'.leaf (.user src, q)) = leafPage s (g.leaf (.user src, q)) := by
  have page := failed.toKeep.leafPage_eq h (.user src, q)
  rcases failed.source q with same | cow
  · rw [same]
    exact ⟨Iff.rfl, rfl, Iff.rfl, page⟩
  · have ok : (spaceLayout k).leafOk (.user src) (g.leaf (.user src, q)) ∨
        g.leaf (.user src, q) = 0#64 := by
      by_cases empty : g.leaf (.user src, q) = 0#64
      · exact .inr empty
      · exact .inl (h.leaf_facts empty).1
    rw [cow]
    refine ⟨?_, cowEntry_frame _, leafOpen_cow _ ok, ?_⟩
    · constructor
      · intro zero
        by_contra filled
        have present := (leafOk_user_iff.mp (cowEntry_leafOk src
          (ok.resolve_right filled))).1
        exact ne_zero_of_bit present zero
      · intro zero
        rw [zero, cowEntry_zero]
    · rw [leafPage_cow h, page]

/-- A byte that was stored is read back. -/
theorem Vm.userLoad_written (h : Vm k s g) (live : (spaceLayout k).Live g (.user r))
    (page : UserPage v) (filled : g.leaf (.user r, pagePath v) ≠ 0#64) (b : Byte) :
    userLoad (written s (frameOf (g.leaf (.user r, pagePath v))) v b).mem r v = some b := by
  have after : Vm k (written s (frameOf (g.leaf (.user r, pagePath v))) v b) g :=
    h.blank (h.leaf_facts filled).2.2.1 _
  rw [after.userLoad_leaf live page, leafPage, if_neg filled, Option.map_some, written]
  dsimp only
  rw [Function.update_self, getByte_setByte, if_pos rfl]

/-- A store to a page of the loaded space succeeds only if the page is open for writing. -/
theorem userStore_refused (h : Vm k s g) (live : (spaceLayout k).Live g (.user s.cr3))
    (page : UserPage v) (b : Byte) (closed : ¬ LeafOpen (g.leaf (.user s.cr3, pagePath v))) :
    userStore v b s = .ok false s := by
  obtain ⟨done, s', ran, outcome⟩ := (unraised_userStore v b).returns (userStore_spec h live page)
    (fun e _ stopped fine => fine stopped.1)
  cases done with
  | false =>
    obtain rfl : s' = s := outcome
    exact ran
  | true =>
    obtain ⟨s₁, g₁, ⟨⟨rfl, rfl⟩ | ⟨f, resolved⟩, present, write⟩, _⟩ := outcome
    · exact absurd ⟨ne_zero_of_bit present, .inl write⟩ closed
    · exact absurd ⟨ne_zero_of_bit resolved.cow, .inr resolved.cow⟩ closed

/-- A store to a page that is open for writing succeeds if nobody else uses its frame, and then
without a change to the pool, or if the pool has a frame. -/
theorem userStore_accepts (h : Vm k s g) (live : (spaceLayout k).Live g (.user s.cr3))
    (page : UserPage v) (below : v < userSpaceTop) (b : Byte)
    (open_ : LeafOpen (g.leaf (.user s.cr3, pagePath v)))
    (room : s.pmm.refcount (frameOf (g.leaf (.user s.cr3, pagePath v))) = 1 ∨
      s.pmm.freeFrames ≠ 0) :
    ∃ s', userStore v b s = .ok true s' ∧ userLoad s'.mem s.cr3 v = some b ∧
      (s.pmm.refcount (frameOf (g.leaf (.user s.cr3, pagePath v))) = 1 → s'.pmm = s.pmm) := by
  have room' := room.imp_right (pmmAllocFrame_isSome h.ok)
  obtain ⟨_, s', ran, outcome, rfl, pool⟩ := (unraised_userStore v b).returns
    (wp_and (userStore_spec h live page)
      (userStore_accepted h live page below open_.1 open_.2 room'))
    (fun e _ stopped fine => fine stopped.1)
  refine ⟨s', ran, ?_, pool⟩
  obtain ⟨s₁, g₁, ⟨before, present, _⟩, rfl⟩ := outcome
  have filled := ne_zero_of_bit present
  rcases before with ⟨rfl, rfl⟩ | ⟨f, resolved⟩
  · exact h.userLoad_written live page filled b
  · exact resolved.vm.userLoad_written ((resolved.live _).mpr live) page filled b

end Inside

/-! ## The clone that fails -/

/-- **A failed clone is harmless.** If `vmm_clone_user_address_space` returns `NULL`, every frame
has the references it had and as many frames are free; the source reads the same bytes; and a
store by the source succeeds for exactly the pages that were writable or copy-on-write before:
without a frame from the pool where nobody else shares the page, and otherwise with one. -/
theorem failed_clone_harmless {K : KernelTables} {roots : List Nat} {c src : Nat}
    {s s' : MemState} (h : Sound K roots c s) (root : src ∈ roots)
    (failed : vmmCloneUserAddressSpace src s = .ok none s') :
    FramesKept s s' ∧
    (∀ v, v < userSpaceTop → userLoad s'.mem src v = userLoad s.mem src v) ∧
    ∀ v b, v < userSpaceTop →
      (¬ OpenForWriting s.mem src v →
        userStore v b { s' with cr3 := src } = .ok false { s' with cr3 := src }) ∧
      (OpenForWriting s.mem src v → SoleUser s src v → ∃ s₂,
        userStore v b { s' with cr3 := src } = .ok true s₂ ∧ userLoad s₂.mem src v = some b ∧
          s₂.pmm = s'.pmm) ∧
      (OpenForWriting s.mem src v → s.pmm.freeFrames ≠ 0 → ∃ s₂,
        userStore v b { s' with cr3 := src } = .ok true s₂ ∧ userLoad s₂.mem src v = some b) := by
  obtain ⟨rfl, g, sys⟩ := h
  have live := (sys.live src).mpr root
  have kept : FramesKept s s' := wp_ok (vmmCloneUserAddressSpace_balance sys.vm live
    sys.current.1 (fun _ => sys.current.2)) failed rfl
  obtain ⟨g', notCloned⟩ := wp_ok (vmmCloneUserAddressSpace_spec sys.vm live sys.current.1
    (fun _ => sys.current.2)) failed
  have spaces := sys.toSpaces.notCloned notCloned
  have loaded := spaces.switched (.inr root)
  have live' : (spaceLayout K.pdptHh).Live g' (.user src) := (notCloned.live _).mpr live
  refine ⟨kept, ?_, ?_⟩
  · intro v below
    rw [spaces.userLoad_leaf root below, sys.toSpaces.userLoad_leaf root below,
      (notCloned.leaf_same sys.vm _).2.2.2]
  · intro v b below
    rcases userPage_or_window below with page | inside
    · obtain ⟨_, frame, opens, _⟩ := notCloned.leaf_same sys.vm (pagePath v)
      rw [sys.vm.openForWriting_iff live page, ← opens, sys.vm.soleUser_iff live page, ← frame]
      refine ⟨userStore_refused loaded.vm live' page b, ?_, ?_⟩
      · rintro open_ ⟨filled, one⟩
        have one' : s'.pmm.refcount (frameOf (g'.leaf (.user src, pagePath v))) = 1 := by
          rw [kept.1, one]
          rw [frame]
          exact (sys.vm.leaf_facts filled).2.1
        obtain ⟨s₂, ran, read, pool⟩ :=
          userStore_accepts loaded.vm live' page below b open_ (.inl one')
        exact ⟨s₂, ran, read, pool one'⟩
      · intro open_ left
        obtain ⟨s₂, ran, read, _⟩ := userStore_accepts loaded.vm live' page below b open_
          (.inr (by change s'.pmm.freeFrames ≠ 0; rwa [kept.2]))
        exact ⟨s₂, ran, read⟩
    · have closed : ¬ OpenForWriting s.mem src v := fun open_ =>
        sys.toSpaces.window_supervisor (.inr root) inside open_.1
      refine ⟨fun _ => run_of_wp (loaded.userStore_window inside), fun open_ => absurd open_ closed,
        fun open_ => absurd open_ closed⟩

section SmallMachine

/-- The small machine with 15 frames: a space with one page leaves two, which are not enough for
a clone. -/
def scarceMachine : MemState :=
  { smallMachine with pmm := { smallPool with totalFrames := 15, freeFrames := 7 } }

theorem scarceMachine_booted : Booted smallTables 0x180000#64 scarceMachine where
  ok := ⟨by decide, by decide, by decide⟩
  distinct := by decide
  used := by decide
  window := ⟨fun _ => rfl, fun _ => rfl⟩
  root := ⟨fun _ => rfl, fun _ => rfl⟩
  high := ⟨fun _ => rfl, fun _ => rfl⟩
  cr3 := rfl
  heap := rfl

def scarceFirst : MemState :=
  { scarceMachine with
    pmm := (scarceMachine.pmm.takeFrame 8).takeFrame 9
    mem := createdMem smallMemory 1 8 9 }

theorem scarceMachine_create : vmmCreateAddressSpace scarceMachine = .ok (some 8) scarceFirst :=
  vmmCreateAddressSpace_run (pmmAllocFrame_run (by decide) (by decide))
    (pmmAllocFrame_run (by decide) (by decide)) (by decide) (by decide) (by decide) (by decide)
    (by decide) (by decide)

def scarcePage : MemState :=
  resultState (mapUserZeroPage 8 0x40000000#64 (vmmUser ||| vmmWrite) scarceFirst)

theorem scarcePage_sound : Sound smallTables [8] 1 scarcePage := by
  have boot : Sound smallTables [] 1 scarceMachine :=
    ⟨rfl, _, scarceMachine_booted.system (scarceMachine_booted.heapBase_le (by decide))⟩
  have first := (wp_ok (vmmCreateAddressSpace_sound boot) scarceMachine_create).1
  have mapped : mapUserZeroPage 8 0x40000000#64 (vmmUser ||| vmmWrite) scarceFirst =
      .ok true scarcePage := result_eq (by decide +kernel)
  have spec := mapUserZeroPage_sound (v := 0x40000000#64) (List.mem_singleton_self 8) (by decide)
    (by decide) (show (vmmUser ||| vmmWrite) &&& vmmUser ≠ 0#64 by decide) first
  exact (wp_run mapped _ _).mp spec

/-- The clone after its first call. -/
def cloneInto (dst srcPml4 : Nat) : MmM (Option Nat) := do
  let copied ← lowerHalf.allM (clonePml4e dst srcPml4)
  if copied then pure (some dst)
  else
    vmmDestroyUserAddressSpace dst
    pure none

theorem vmmCloneUserAddressSpace_made {s s₁ : MemState} {src dst : Nat}
    (made : vmmCreateAddressSpace s = .ok (some dst) s₁) :
    vmmCloneUserAddressSpace src s = cloneInto dst src s₁ := by
  unfold vmmCloneUserAddressSpace
  change EStateM.bind _ _ s = _
  unfold EStateM.bind
  rw [made]
  rfl

def scarceSecond : MemState :=
  { scarcePage with
    pmm := (scarcePage.pmm.takeFrame 13).takeFrame 14
    mem := createdMem scarcePage.mem 1 13 14 }

theorem scarcePage_create : vmmCreateAddressSpace scarcePage = .ok (some 13) scarceSecond :=
  vmmCreateAddressSpace_run (pmmAllocFrame_run (by decide +kernel) (by decide +kernel))
    (pmmAllocFrame_run (by decide +kernel) (by decide +kernel)) (by decide) (by decide) (by decide)
    (by decide +kernel) (by decide) (by decide)

/-- A clone that runs out of memory, and a store to the page it had shared. -/
theorem failed_clone_harmless_scarce :
    ∃ s', vmmCloneUserAddressSpace 8 scarcePage = .ok none s' ∧ FramesKept scarcePage s' ∧
      ∃ s₂, userStore 0x40000123#64 0x41#8 { s' with cr3 := 8 } = .ok true s₂ ∧
        userLoad s₂.mem 8 0x40000123#64 = some 0x41#8 ∧ s₂.pmm = s'.pmm := by
  have ran : vmmCloneUserAddressSpace 8 scarcePage =
      .ok none (resultState (cloneInto 13 8 scarceSecond)) :=
    (vmmCloneUserAddressSpace_made scarcePage_create).trans (result_eq (by decide +kernel))
  obtain ⟨kept, _, stores⟩ := failed_clone_harmless scarcePage_sound (List.mem_singleton_self 8) ran
  have open_ : OpenForWriting scarcePage.mem 8 0x40000123#64 := by
    constructor
    · decide +kernel
    · exact .inl (by decide +kernel)
  have sole : SoleUser scarcePage 8 0x40000123#64 := ⟨0xA123#64, by decide +kernel, by decide +kernel⟩
  exact ⟨_, ran, kept, (stores 0x40000123#64 0x41#8 (by decide)).2.1 open_ sole⟩

end SmallMachine

end LithiumKernel.Mm
