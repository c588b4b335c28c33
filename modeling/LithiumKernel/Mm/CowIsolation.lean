import LithiumKernel.Mm.FrameAccounting

/-!
# Copy-on-write isolation

The reference machine gives every address space private pages, and its clone copies them
all. It follows the events of kernel/mm/vmm.c and kernel/syscall/syscall.c and knows no
frames, tables or flags. As long as no mapping touches the identity window, every live
space reads what the reference machine holds for it.

The argument is one invariant: a leaf with `VMM_WRITE` is the only leaf of its frame.
-/
namespace LithiumKernel.Mm

open LithiumKernel.Lib LithiumKernel.Lib.Forest

/-! ## The reference machine -/

/-- Private pages of every address space, by root and path of the page. -/
abbrev RefSpaces := Nat → List Idx → Option Page

namespace RefSpaces

def empty : RefSpaces := fun _ _ => none

def apply (ref : RefSpaces) : VmEvent → RefSpaces
  | .created r => Function.update ref r (fun _ => none)
  | .mapped r v _ => Function.update ref r (Function.update (ref r) (pagePath v) (some blankPage))
  | .unmapped r v => Function.update ref r (Function.update (ref r) (pagePath v) none)
  -- the clone is a copy of every page
  | .cloned src dst => Function.update ref dst (ref src)
  | .destroyed r => Function.update ref r (fun _ => none)
  | .wrote r v b => Function.update ref r (Function.update (ref r) (pagePath v)
      ((ref r (pagePath v)).map (setByte · (v.toNat % 4096) b)))

def load (ref : RefSpaces) (root : Nat) (v : Word) : Option Byte :=
  (ref root (pagePath v)).map (getByte · (v.toNat % 4096))

end RefSpaces

/-! ## The simulation -/

/-- What a leaf shows to its space. -/
def leafPage (s : MemState) (e : Word) : Option Page :=
  if e = 0#64 then none else some (s.mem (frameOf e))

structure Mirrors (roots : List Nat) (s : MemState) (g : SpaceGhost) (ref : RefSpaces) : Prop where
  pages : ∀ r ∈ roots, ∀ q, ref r q = leafPage s (g.leaf (.user r, q))
  sole : ∀ x y, (g.leaf x).getLsbD 1 = true → g.leaf y ≠ 0#64 →
    frameOf (g.leaf y) = frameOf (g.leaf x) → y = x

variable {K : KernelTables} {reserved : Nat → Prop} {roots : List Nat} {k : Nat}
  {s s' : MemState} {g g' : SpaceGhost} {ref : RefSpaces}

/-- Data frames keep their contents, so a leaf that stays shows what it showed. -/
theorem Keep.leafPage_eq (h : Vm k s g) (kept : Keep s g s' g') (x : Owner × List Idx) :
    leafPage s' (g.leaf x) = leafPage s (g.leaf x) := by
  unfold leafPage
  split
  · rfl
  · rename_i filled
    obtain ⟨_, _, data, used⟩ := h.leaf_facts filled
    rw [(kept.data data used).2]

theorem leafPage_cow (h : Vm k s g) (t : MemState) (x : Owner × List Idx) :
    leafPage t (cowEntry (g.leaf x)) = leafPage t (g.leaf x) := by
  unfold leafPage
  by_cases empty : g.leaf x = 0#64
  · simp [empty]
  · have present : (cowEntry (g.leaf x)).getLsbD 0 = true := by
      have set := h.leaf_present empty
      rw [ne_eq, and_present, Bool.not_eq_false] at set
      rw [cowEntry_low _ (by decide)]
      simpa using set
    rw [if_neg (ne_zero_of_bit present), if_neg empty, cowEntry_frame]

/-- A user load reads the page that the leaf shows. -/
theorem Vm.userLoad_leaf (h : Vm k s g) {r : Nat} {v : Word}
    (live : (spaceLayout k).Live g (.user r)) (page : UserPage v) :
    userLoad s.mem r v =
      (leafPage s (g.leaf (.user r, pagePath v))).map (getByte · (v.toNat % 4096)) := by
  rw [userLoad, vmmGetFlags_user h live page, vmmGetPhysical_user h live page, leafPage]
  by_cases empty : g.leaf (.user r, pagePath v) = 0#64
  · simp [empty]
  · have ok := leafOk_user_iff.mp (h.leaf_facts empty).1
    have both : g.leaf (.user r, pagePath v) &&& ~~~vmmPhysMask &&& presentUser = presentUser := by
      rw [and_presentUser, and_not_physMask_low _ (by decide), and_not_physMask_low _ (by decide)]
      exact ok
    rw [if_pos both, if_neg empty, if_neg empty, Option.map_some, Option.map_some, phys_frame,
      phys_offset]

/-- A frame nobody refers to is no leaf's frame. -/
theorem Vm.leaf_ne_unused (h : Vm k s g) {x : Owner × List Idx} {f : Nat}
    (zero : s.pmm.refcount f = 0) (filled : g.leaf x ≠ 0#64) : frameOf (g.leaf x) ≠ f := by
  rintro rfl
  have used := (h.leaf_facts filled).2.2.2
  omega

/-- A frame with one reference has at most one leaf. -/
theorem Vm.leaf_unique (h : Vm k s g) {x y : Owner × List Idx} (filled : g.leaf x ≠ 0#64)
    (filled' : g.leaf y ≠ 0#64) (same : frameOf (g.leaf y) = frameOf (g.leaf x))
    (one : s.pmm.refcount (frameOf (g.leaf x)) = 1) : y = x := by
  have lt := (h.leaf_facts filled).2.1
  have count := h.wf.count _ lt
  have fin : ((spaceLayout k).refSet g.leaf (frameOf (g.leaf x))).Finite :=
    h.wf.finite.subset (fun z hz => hz.1)
  have le : ((spaceLayout k).refSet g.leaf (frameOf (g.leaf x))).ncard ≤ 1 := by
    change (spaceLayout k).leafRefs g.leaf (frameOf (g.leaf x)) ≤ 1
    omega
  exact (Set.ncard_le_one fin).mp le y ⟨filled', same⟩ x ⟨filled, rfl⟩

/-- A leaf is replaced by one of a frame that no other leaf names: the writable leaves of some
places stay the only ones of their frames. -/
theorem writers_update {P : Owner × List Idx → Prop} {x : Owner × List Idx} {w : Word}
    (sole : ∀ y z, P y → (g.leaf y).getLsbD 1 = true → g.leaf z ≠ 0#64 →
      frameOf (g.leaf z) = frameOf (g.leaf y) → z = y)
    (leaf : g'.leaf = Function.update g.leaf x w)
    (alone : w ≠ 0#64 → ∀ y, y ≠ x → g.leaf y ≠ 0#64 → frameOf (g.leaf y) ≠ frameOf w) :
    ∀ y z, P y → (g'.leaf y).getLsbD 1 = true → g'.leaf z ≠ 0#64 →
      frameOf (g'.leaf z) = frameOf (g'.leaf y) → z = y := by
  intro y z here
  rw [leaf]
  by_cases isY : y = x <;> by_cases isZ : z = x
  · intros
    rw [isY, isZ]
  · subst isY
    rw [Function.update_self, Function.update_of_ne isZ]
    intro write filled same
    exact absurd same (alone (ne_zero_of_bit write) z isZ filled)
  · subst isZ
    rw [Function.update_self, Function.update_of_ne isY]
    intro write filled same
    exact absurd same.symm (alone filled y isY (ne_zero_of_bit write))
  · rw [Function.update_of_ne isY, Function.update_of_ne isZ]
    exact sole y z here

theorem Resolved.small (h : Vm k s g) {x : Owner × List Idx} {f : Nat}
    (done : Resolved k x f s g s' g') : f < 2 ^ 40 := by
  rcases done.sole with ⟨rfl, _⟩ | ⟨lt, _, _⟩
  · exact frameOf_lt _
  · exact h.frame_small lt

/-- After a resolved fault every place shows what it showed. -/
theorem Resolved.shows (h : Vm k s g) {x : Owner × List Idx} {f : Nat}
    (done : Resolved k x f s g s' g') (y : Owner × List Idx) :
    leafPage s' (g'.leaf y) = leafPage s (g.leaf y) := by
  rw [done.leaf]
  by_cases here : y = x
  · subst here
    have filled : g.leaf y ≠ 0#64 := ne_zero_of_bit done.cow
    have filled' : frameAddr f ||| writableFlags (g.leaf y) ≠ 0#64 :=
      ne_zero_of_bit (k := 1) (by rw [writable_low _ _ (by decide)]; simp)
    rw [Function.update_self, leafPage, leafPage, if_neg filled, if_neg filled',
      writable_frame (done.small h), done.contents]
  · rw [Function.update_of_ne here, done.toKeep.leafPage_eq h]

/-- The frame of the resolved leaf is no other leaf's frame. -/
theorem Resolved.alone (h : Vm k s g) {x : Owner × List Idx} {f : Nat}
    (done : Resolved k x f s g s' g') {y : Owner × List Idx} (other : y ≠ x)
    (filled : g.leaf y ≠ 0#64) :
    frameOf (g.leaf y) ≠ frameOf (frameAddr f ||| writableFlags (g.leaf x)) := by
  rw [writable_frame (done.small h)]
  rcases done.sole with ⟨rfl, one⟩ | ⟨_, zero, _⟩
  · intro eq
    exact other (h.leaf_unique (ne_zero_of_bit done.cow) filled eq one)
  · exact h.leaf_ne_unused zero filled

/-- A user load reads the page that the leaf shows, at every user address. -/
theorem Spaces.userLoad_leaf (h : Spaces K reserved roots s g) {r : Nat} {v : Word}
    (root : r ∈ roots) (below : v < userSpaceTop) :
    userLoad s.mem r v =
      (leafPage s (g.leaf (.user r, pagePath v))).map (getByte · (v.toNat % 4096)) := by
  rcases userPage_or_window below with page | inside
  · exact h.vm.userLoad_leaf ((h.live r).mpr root) page
  · rw [userLoad, if_neg (h.window_supervisor (.inr root) inside), h.leaf_window inside]
    rfl

namespace Mirrors

/-- A leaf is replaced by one of a frame that no other leaf names. -/
theorem sole_update (h : Mirrors roots s g ref) {x : Owner × List Idx} {w : Word}
    (leaf : g'.leaf = Function.update g.leaf x w)
    (alone : w ≠ 0#64 → ∀ y, y ≠ x → g.leaf y ≠ 0#64 → frameOf (g.leaf y) ≠ frameOf w) :
    ∀ y z, (g'.leaf y).getLsbD 1 = true → g'.leaf z ≠ 0#64 →
      frameOf (g'.leaf z) = frameOf (g'.leaf y) → z = y := fun y z =>
  writers_update (P := fun _ => True) (fun y z _ => h.sole y z) leaf alone y z trivial

theorem keep (h : Mirrors roots s g ref) (vm : Vm k s g) (kept : Keep s g s' g')
    (leaf : g'.leaf = g.leaf) : Mirrors roots s' g' ref := by
  refine ⟨?_, by rw [leaf]; exact h.sole⟩
  intro r root q
  rw [leaf, kept.leafPage_eq vm]
  exact h.pages r root q

/-- A new space starts without pages. -/
theorem created (h : Mirrors roots s g ref) (vm : Vm k s g) {r : Nat}
    (made : Created k r s g s' g') :
    Mirrors (r :: roots) s' g' (ref.apply (.created r)) := by
  have noLeaf := (vm.unused_root made.unused.1 made.unused.2).2
  have kept := h.keep vm made.toGrow.keep made.leaf
  refine ⟨?_, kept.sole⟩
  intro r' root q
  by_cases new : r' = r
  · subst new
    rw [RefSpaces.apply, Function.update_self, made.leaf, noLeaf q]
    rfl
  · rw [RefSpaces.apply, Function.update_of_ne new]
    exact kept.pages r' ((List.mem_cons.mp root).resolve_left new) q

/-- The pages of the reference change at one place, and so do the leaves. -/
theorem pages_update (h : Mirrors roots s g ref) {r : Nat} {q : List Idx} {w : Word}
    {page : Option Page} (leaf : g'.leaf = Function.update g.leaf (.user r, q) w)
    (shows : page = leafPage s' w)
    (others : ∀ r' ∈ roots, ∀ q', (Owner.user r', q') ≠ (.user r, q) →
      leafPage s' (g.leaf (.user r', q')) = leafPage s (g.leaf (.user r', q'))) :
    ∀ r' ∈ roots, ∀ q', Function.update ref r (Function.update (ref r) q page) r' q' =
      leafPage s' (g'.leaf (.user r', q')) := by
  intro r' root q'
  rw [leaf]
  by_cases here : (Owner.user r', q') = (.user r, q)
  · obtain ⟨owner, rfl⟩ := Prod.mk.inj here
    obtain rfl := Owner.user.inj owner
    rw [Function.update_self, Function.update_self, Function.update_self, shows]
  · rw [Function.update_of_ne here, others r' root q' here, ← h.pages r' root q']
    by_cases space : r' = r
    · subst space
      have path : q' ≠ q := fun eq => here (by rw [eq])
      rw [Function.update_self, Function.update_of_ne path]
    · rw [Function.update_of_ne space]

theorem mapped (h : Mirrors roots s g ref) (vm : Vm k s g) {r : Nat} {v flags : Word}
    (done : FreshResult k s g (.user r, pagePath v) flags blankPage true s' g') :
    Mirrors roots s' g' (ref.apply (.mapped r v flags)) := by
  obtain ⟨f, lt, zero, blank, leaf, _⟩ := done.effect
  have small := vm.frame_small lt
  have filled : leafEntry (frameAddr f) flags ≠ 0#64 :=
    ne_zero_of_bit (k := 0) (by rw [leafEntry_low f flags (by decide)]; simp)
  refine ⟨h.pages_update leaf ?_ (fun _ _ _ _ => done.keep.leafPage_eq vm _), h.sole_update leaf ?_⟩
  · rw [leafPage, if_neg filled, leafEntry_frame small, blank]
  · intro _ y _ filledY
    rw [leafEntry_frame small]
    exact vm.leaf_ne_unused zero filledY

theorem unmapped (h : Mirrors roots s g ref) (vm : Vm k s g) {r : Nat} {v : Word}
    (gone : Unmapped k (.user r, pagePath v) s g s' g') :
    Mirrors roots s' g' (ref.apply (.unmapped r v)) :=
  ⟨h.pages_update gone.leaf rfl (fun _ _ _ _ => gone.toKeep.leafPage_eq vm _),
    h.sole_update gone.leaf (fun filled => absurd rfl filled)⟩

/-- Leaves may be handed on as long as the place they come from is not writable any more. -/
theorem sole_shared (h : Mirrors roots s g ref)
    (writable : ∀ y, (g'.leaf y).getLsbD 1 = true → g'.leaf y = g.leaf y)
    (origin : ∀ z, g'.leaf z ≠ 0#64 → ∃ z₀, g.leaf z₀ ≠ 0#64 ∧
      frameOf (g'.leaf z) = frameOf (g.leaf z₀) ∧ (z₀ = z ∨ (g'.leaf z₀).getLsbD 1 = false)) :
    ∀ y z, (g'.leaf y).getLsbD 1 = true → g'.leaf z ≠ 0#64 →
      frameOf (g'.leaf z) = frameOf (g'.leaf y) → z = y := by
  intro y z write filled same
  have unchanged := writable y write
  obtain ⟨z₀, filled₀, frame, place⟩ := origin z filled
  rw [frame, unchanged] at same
  have eq := h.sole y z₀ (by rwa [← unchanged]) filled₀ same
  rcases place with rfl | readOnly
  · exact eq
  · rw [eq, write] at readOnly
    cases readOnly

theorem cowEntry_readOnly (e : Word) : (cowEntry e).getLsbD 1 = false := by
  rw [cowEntry_low e (by decide), if_pos rfl]

theorem cowEntry_filled {e : Word} (filled : cowEntry e ≠ 0#64) : e ≠ 0#64 := by
  rintro rfl
  exact filled cowEntry_zero

theorem cloned (h : Mirrors roots s g ref) (vm : Vm k s g) {src dst : Nat} (root : src ∈ roots)
    (made : Cloned k src dst s g s' g') :
    Mirrors (dst :: roots) s' g' (ref.apply (.cloned src dst)) := by
  have kept := made.toGrow.keep
  have shows : ∀ q, leafPage s' (cowEntry (g.leaf (.user src, q))) = ref src q := by
    intro q
    rw [leafPage_cow vm, kept.leafPage_eq vm, h.pages src root q]
  have cases : ∀ y, g'.leaf y = g.leaf y ∧ y.1 ≠ .user src ∨
      (∃ q, g'.leaf y = cowEntry (g.leaf (.user src, q)) ∧
        (y = (.user src, q) ∨ y = (.user dst, q))) := by
    rintro ⟨o, q⟩
    by_cases isSrc : o = .user src
    · subst isSrc
      exact .inr ⟨q, made.source q, .inl rfl⟩
    · by_cases isDst : o = .user dst
      · subst isDst
        exact .inr ⟨q, made.copy q, .inr rfl⟩
      · exact .inl ⟨made.others isSrc isDst, isSrc⟩
  refine ⟨?_, h.sole_shared ?_ ?_⟩
  · intro r member q
    by_cases isDst : r = dst
    · subst isDst
      rw [RefSpaces.apply, Function.update_self, made.copy, shows]
    · rw [RefSpaces.apply, Function.update_of_ne isDst]
      by_cases isSrc : r = src
      · subst isSrc
        rw [made.source, shows]
      · rw [made.others (fun eq => isSrc (Owner.user.inj eq)) (fun eq => isDst (Owner.user.inj eq)),
          kept.leafPage_eq vm]
        exact h.pages r ((List.mem_cons.mp member).resolve_left isDst) q
  · intro y write
    rcases cases y with ⟨same, _⟩ | ⟨q, cow, _⟩
    · exact same
    · rw [cow, cowEntry_readOnly] at write
      cases write
  · intro z filled
    rcases cases z with ⟨same, _⟩ | ⟨q, cow, _⟩
    · rw [same] at filled ⊢
      exact ⟨z, filled, rfl, .inl rfl⟩
    · rw [cow] at filled ⊢
      refine ⟨(.user src, q), cowEntry_filled filled, cowEntry_frame _, .inr ?_⟩
      rw [made.source, cowEntry_readOnly]

theorem notCloned (h : Mirrors roots s g ref) (vm : Vm k s g) {src : Nat}
    (failed : NotCloned k src s g s' g') : Mirrors roots s' g' ref := by
  have cases : ∀ y, g'.leaf y = g.leaf y ∨ g'.leaf y = cowEntry (g.leaf y) := by
    rintro ⟨o, q⟩
    by_cases isSrc : o = .user src
    · subst isSrc
      exact failed.source q
    · exact .inl (failed.others isSrc)
  refine ⟨?_, h.sole_shared ?_ ?_⟩
  · intro r root q
    rw [h.pages r root q, ← failed.toKeep.leafPage_eq vm]
    rcases cases (.user r, q) with same | cow
    · rw [same]
    · rw [cow, leafPage_cow vm]
  · intro y write
    rcases cases y with same | cow
    · exact same
    · rw [cow, cowEntry_readOnly] at write
      cases write
  · intro z filled
    rcases cases z with same | cow
    · rw [same] at filled ⊢
      exact ⟨z, filled, rfl, .inl rfl⟩
    · rw [cow] at filled ⊢
      exact ⟨z, cowEntry_filled filled, cowEntry_frame _, .inl rfl⟩

/-- A resolved fault moves the page to a frame of its own and shows the same bytes. -/
theorem resolved (h : Mirrors roots s g ref) (vm : Vm k s g) {x : Owner × List Idx} {f : Nat}
    (done : Resolved k x f s g s' g') : Mirrors roots s' g' ref :=
  ⟨fun r root q => (h.pages r root q).trans (done.shows vm _).symm,
    h.sole_update done.leaf (fun _ _ => done.alone vm)⟩

theorem destroyed (h : Mirrors roots s g ref) (vm : Vm k s g) (nodup : roots.Nodup) {r : Nat}
    (gone : Destroyed k r s g s' g') :
    Mirrors (roots.erase r) s' g' (ref.apply (.destroyed r)) := by
  have kept : ∀ x, leafPage s' (g.leaf x) = leafPage s (g.leaf x) := by
    intro x
    unfold leafPage
    split
    · rfl
    · rename_i filled
      rw [gone.mem]
      intro y role
      rw [(vm.leaf_facts filled).2.2.1] at role
      cases role
  have same : ∀ {y}, g'.leaf y ≠ 0#64 → g'.leaf y = g.leaf y := by
    intro y filled
    rw [gone.leaf] at filled ⊢
    split at filled
    · exact absurd rfl filled
    · rename_i other
      rw [if_neg other]
  refine ⟨?_, h.sole_shared (fun y write => same (ne_zero_of_bit write)) ?_⟩
  · intro r' member q
    obtain ⟨ne, root⟩ := nodup.mem_erase_iff.mp member
    have owner : Owner.user r' ≠ .user r := fun eq => ne (Owner.user.inj eq)
    rw [RefSpaces.apply, Function.update_of_ne ne, gone.leaf, if_neg owner, kept]
    exact h.pages r' root q
  · intro z filled
    have unchanged := same filled
    rw [unchanged] at filled ⊢
    exact ⟨z, filled, rfl, .inl rfl⟩

/-- A write goes to a frame that no other leaf shows. -/
theorem wrote (h : Mirrors roots s g ref) {r : Nat} {addr : Word} {b : Byte} (root : r ∈ roots)
    (present : (g.leaf (.user r, pagePath addr)).getLsbD 0 = true)
    (write : (g.leaf (.user r, pagePath addr)).getLsbD 1 = true) :
    Mirrors roots (written s (frameOf (g.leaf (.user r, pagePath addr))) addr b) g
      (ref.apply (.wrote r addr b)) := by
  have filled : g.leaf (.user r, pagePath addr) ≠ 0#64 := ne_zero_of_bit present
  have self : g.leaf = Function.update g.leaf (.user r, pagePath addr)
      (g.leaf (.user r, pagePath addr)) := (Function.update_eq_self _ _).symm
  refine ⟨h.pages_update self ?_ ?_, h.sole⟩
  · rw [h.pages r root, leafPage, leafPage, if_neg filled, if_neg filled, Option.map_some]
    simp only [written, Function.update_self]
  · intro r' _ q' other
    unfold leafPage
    split
    · rfl
    · rename_i filled'
      congr 1
      refine Function.update_of_ne ?_ _ _
      intro same
      exact other (h.sole _ _ write filled' same)

/-- Marking the way into the window touches no page. -/
theorem marked (h : Mirrors roots s g ref) (vm : Vm k s g) {r t : Nat}
    (at_t : g.role t = some (.user r, [0])) :
    Mirrors roots { s with mem := markedMem s.mem r t } g ref := by
  have root : g.role r = some (.user r, []) := vm.wf.live_of_role at_t
  refine ⟨?_, h.sole⟩
  intro r' member q
  rw [h.pages r' member q]
  unfold leafPage
  split
  · rfl
  · rename_i filled
    have data := (vm.leaf_facts filled).2.2.1
    have ne : ∀ {f x}, g.role f = some x → frameOf (g.leaf (.user r', q)) ≠ f := by
      rintro f x role rfl
      rw [data] at role
      cases role
    congr 1
    exact ((store_frame _ _ _ (ne at_t)).trans (store_frame _ _ _ (ne root))).symm

theorem effect {ev : Option VmEvent} (h : Mirrors roots s g ref)
    (spaces : Spaces K reserved roots s g) (effect : Effect K roots s g ev s' g') :
    Mirrors (ev.toList.foldl VmEvent.roots roots) s' g' (ev.toList.foldl RefSpaces.apply ref) := by
  have root : ∀ {q}, g.leaf (.user s.cr3, q) ≠ 0#64 → s.cr3 ∈ roots := fun filled =>
    (spaces.live _).mp (spaces.vm.wf.live_of_leaf filled)
  cases effect with
  | quiet q => exact h.keep spaces.vm q.toGrow.keep q.leaf
  | marked at_t => exact h.marked spaces.vm at_t
  | created made => exact h.created spaces.vm made
  | mapped _ _ done => exact h.mapped spaces.vm done
  | unmapped gone => exact h.unmapped spaces.vm gone
  | cloned member made => exact h.cloned spaces.vm member made
  | notCloned failed => exact h.notCloned spaces.vm failed
  | resolved done => exact h.resolved spaces.vm done
  | destroyed _ gone => exact h.destroyed spaces.vm spaces.nodup gone
  | switched _ => exact ⟨h.pages, h.sole⟩
  | wrote present write => exact h.wrote (root (ne_zero_of_bit present)) present write

theorem effects {events : List VmEvent} (h : Mirrors roots s g ref)
    (spaces : Spaces K reserved roots s g) (effects : Effects K roots s g events s' g') :
    Mirrors (events.foldl VmEvent.roots roots) s' g' (events.foldl RefSpaces.apply ref) := by
  induction effects with
  | nil => exact h
  | snoc before effect ih =>
    rw [List.foldl_append, List.foldl_append]
    exact ih.effect (spaces.effects before) effect

/-- A user load reads what the reference machine holds. -/
theorem load (h : Mirrors roots s g ref) (spaces : Spaces K reserved roots s g) {r : Nat}
    {v : Word} (root : r ∈ roots) (below : v < userSpaceTop) :
    userLoad s.mem r v = ref.load r v := by
  rw [RefSpaces.load, h.pages r root]
  exact spaces.userLoad_leaf root below

end Mirrors

/-! ## Runs -/

/-- In a run that maps no user page below 2 MiB, every live address space reads at every
user address what it would read if all spaces had private pages and every clone had
copied them. -/
theorem cow_isolation {kernelEnd : Word} {labels : List (VmOp × List VmEvent)} {st : VmState}
    (boot : Booted K kernelEnd s) (run : Run (StepFrom (2 ^ 21) K) ⟨s, []⟩ labels st) :
    ∀ r ∈ st.roots, ∀ v, v < userSpaceTop → userLoad st.mm.mem r v =
      ((labels.flatMap (·.2)).foldl RefSpaces.apply RefSpaces.empty).load r v := by
  have mirrored : ∃ g, Accounted K s.pmm st g ∧ Mirrors st.roots st.mm g
      (labels.foldl (fun ref l => l.2.foldl RefSpaces.apply ref) RefSpaces.empty) := by
    refine run.simulates (fun st ref => ∃ g, Accounted K s.pmm st g ∧ Mirrors st.roots st.mm g ref)
      (fun ref l => l.2.foldl RefSpaces.apply ref) ⟨_, boot.accounted, ?_, ?_⟩ ?_
    · simp
    · intro x y write
      simp at write
    · rintro st l st' ref ⟨g, h, mirrors⟩ ⟨above, step⟩
      obtain ⟨g', effects⟩ := wp_ok (exec_spec h.spaces step.allowed above) step.ran
      have after := h.effects effects
      have mirrors' := mirrors.effects h.spaces effects
      rw [← step.roots] at after mirrors'
      exact ⟨g', after, mirrors'⟩
  obtain ⟨g, h, mirrors⟩ := mirrored
  intro r root v below
  rw [List.foldl_flatMap]
  exact mirrors.load h.spaces root below

section SmallMachine

/-- The first space of the small machine maps a page at 1 GiB and writes to it. -/
def pageState : MemState :=
  afterOp (.store 0x40000000#64 0x41#8) (afterOp (.switch 8)
    (afterOp (.map 8 0x40000000#64 (vmmUser ||| vmmWrite)) smallFirst))

def pageRun : List (VmOp × List VmEvent) :=
  [(.create, [.created 8]),
   (.map 8 0x40000000#64 (vmmUser ||| vmmWrite), [.mapped 8 0x40000000#64 (vmmUser ||| vmmWrite)]),
   (.switch 8, []), (.store 0x40000000#64 0x41#8, [.wrote 8 0x40000000#64 0x41#8])]

theorem pageRun_run : Run (StepFrom (2 ^ 21) smallTables) ⟨smallMachine, []⟩ pageRun
    ⟨pageState, [8]⟩ := by
  refine .snoc (.snoc (.snoc (.snoc .nil ⟨trivial, smallMachine_step⟩)
    ⟨Nat.le_of_ble_eq_true rfl, .of_value ?_ ?_⟩) ⟨trivial, .of_value ?_ ?_⟩) ⟨trivial, .of_value ?_ ?_⟩
  all_goals decide +kernel

theorem cow_isolation_page :
    Booted smallTables 0x180000#64 smallMachine ∧
    Run (StepFrom (2 ^ 21) smallTables) ⟨smallMachine, []⟩ pageRun ⟨pageState, [8]⟩ ∧
    userLoad pageState.mem 8 0x40000000#64 = some 0x41#8 := by
  refine ⟨smallMachine_booted, pageRun_run, ?_⟩
  rw [cow_isolation smallMachine_booted pageRun_run 8 (by decide) _ (by decide)]
  decide +kernel

/-- A second space of the small machine. -/
def smallSecond : MemState :=
  { smallFirst with
    pmm := (smallFirst.pmm.takeFrame 10).takeFrame 11
    mem := createdMem smallFirst.mem 1 10 11 }

theorem smallFirst_step : VmStep smallTables ⟨smallFirst, [8]⟩ (.create, [.created 10])
    ⟨smallSecond, [10, 8]⟩ := by
  have made : vmmCreateAddressSpace smallFirst = .ok (some 10) smallSecond :=
    vmmCreateAddressSpace_run (pmmAllocFrame_run (by decide) (by decide))
      (pmmAllocFrame_run (by decide) (by decide)) (by decide) (by decide) (by decide) (by decide)
      (by decide) (by decide)
  refine ⟨trivial, ?_, rfl⟩
  apply run_of_wp
  rw [exec, wp_bind, wp_run made]
  exact ⟨rfl, rfl⟩

/-- The first space maps a page at address 0 and writes to it. -/
def lowPageState : MemState :=
  afterOp (.store 0#64 0x41#8) (afterOp (.switch 8)
    (afterOp (.map 8 0#64 (vmmUser ||| vmmWrite)) smallSecond))

def lowPageRun : List (VmOp × List VmEvent) :=
  [(.create, [.created 8]), (.create, [.created 10]),
   (.map 8 0#64 (vmmUser ||| vmmWrite), [.mapped 8 0#64 (vmmUser ||| vmmWrite)]),
   (.switch 8, []), (.store 0#64 0x41#8, [.wrote 8 0#64 0x41#8])]

/-- A page mapped below 2 MiB lands in the table all spaces share: what space 8 writes to
it, space 10 reads, although it has mapped nothing. -/
theorem cow_isolation_low_page :
    Run (VmStep smallTables) ⟨smallMachine, []⟩ lowPageRun ⟨lowPageState, [10, 8]⟩ ∧
    userLoad lowPageState.mem 10 0#64 = some 0x41#8 ∧
    ((lowPageRun.flatMap (·.2)).foldl RefSpaces.apply RefSpaces.empty).load 10 0#64 = none := by
  refine ⟨.snoc (.snoc (.snoc (.snoc (.snoc .nil smallMachine_step) smallFirst_step)
    (.of_value ?_ ?_)) (.of_value ?_ ?_)) (.of_value ?_ ?_), ?_, ?_⟩
  all_goals decide +kernel

end SmallMachine

end LithiumKernel.Mm
