import LithiumKernel.Mm.KernelMap
import LithiumKernel.Mm.UserMemory

/-!
# All address spaces together

The live address spaces, the kernel's root and the tables of the identity window they
share. `Spaces` is the invariant of kernel/mm/vmm.c over the whole system; every
operation on one address space keeps it. Frames that were in use before the first
address space are `reserved`: somebody outside holds them, and no page maps them.
-/
namespace LithiumKernel.Mm

open LithiumKernel.Lib LithiumKernel.Lib.Forest

/-- An entry that leads to the shared PD of the identity window. -/
def KernelTables.Entrance (K : KernelTables) (e : Word) : Prop :=
  e &&& vmmPresent ≠ 0#64 ∧ e &&& vmmHuge = 0#64 ∧ frameOf e = K.pd0

structure Spaces (K : KernelTables) (reserved : Nat → Prop) (roots : List Nat) (s : MemState)
    (g : SpaceGhost) : Prop where
  vm : Vm K.pdptHh s g
  live : ∀ r, (spaceLayout K.pdptHh).Live g (.user r) ↔ r ∈ roots
  nodup : roots.Nodup
  held : ∀ f, reserved f → f < s.pmm.totalFrames ∧ 0 < g.ext f
  shared : ∀ f ∈ [K.pml4, K.pdptId, K.pd0, K.pt0], reserved f
  apart : ∀ x, g.leaf x ≠ 0#64 → ¬ reserved (frameOf (g.leaf x))
  window : K.Window s.mem
  kernel : K.Root s.mem
  entrance : ∀ r ∈ roots, ∃ t, g.role t = some (.user r, [0]) ∧ K.Entrance (s.mem t 0)
  upper : ∀ r ∈ roots, ∀ i : Idx, 256 ≤ i.val → s.mem r i = s.mem K.pml4 i
  cur : s.cr3 = K.pml4 ∨ s.cr3 ∈ roots

variable {K : KernelTables} {reserved : Nat → Prop} {roots : List Nat} {s s' : MemState}
  {g g' : SpaceGhost}

theorem KernelTables.Entrance.user {e : Word} (entry : K.Entrance e) :
    K.Entrance (e ||| vmmUser) := by
  obtain ⟨present, small, target⟩ := entry
  refine ⟨?_, ?_, ?_⟩
  · rw [ne_eq, and_present] at present ⊢
    rw [BitVec.getLsbD_or]
    simp [present]
  · rw [and_huge] at small ⊢
    rw [BitVec.getLsbD_or, small]
    decide
  · rw [frameOf_or_flags _ (by decide), target]

/-- The memory after `vmm_map_page` has marked the way from the root `r` through its low
PDPT `t` into the window for the user. -/
def markedMem (mem : PhysMem) (r t : Nat) : PhysMem :=
  store (store mem r 0 (mem r 0 ||| vmmUser)) t 0 (mem t 0 ||| vmmUser)

/-- The first slot of a live root names its PDPT for the lowest 512 GiB. -/
theorem Vm.firstLink {k : Nat} (h : Vm k s g) {r t : Nat}
    (at_t : g.role t = some (.user r, [0])) :
    s.mem r 0 &&& vmmPresent ≠ 0#64 ∧ frameOf (s.mem r 0) = t := by
  obtain ⟨i, p, t', eq, up, own, filled, target⟩ := h.wf.back at_t (by simp [spaceLayout])
  obtain ⟨rfl, rfl⟩ := List.cons.inj eq
  have live : g.role r = some (.user r, []) := h.wf.live_of_role at_t
  obtain rfl := h.wf.unique up live
  exact ⟨(h.wf.link live (by simp [spaceLayout]) own filled).1.1, target⟩

namespace Spaces

theorem small (h : Spaces K reserved roots s g) {f : Nat} (kept : reserved f) : f < 2 ^ 40 :=
  h.vm.frame_small (h.held f kept).1

theorem outside (h : Spaces K reserved roots s g) {f : Nat} (kept : reserved f) :
    g.role f = none ∧ 0 < s.pmm.refcount f := by
  obtain ⟨lt, pos⟩ := h.held f kept
  exact ⟨h.vm.wf.role_none_of_ext pos, h.vm.rc_pos_of_ext lt pos⟩

/-- Every root, the kernel's own included, reaches the identity window. -/
theorem reaches (h : Spaces K reserved roots s g) {r : Nat} (root : r = K.pml4 ∨ r ∈ roots) :
    K.Reaches s.mem r := by
  rcases root with rfl | member
  · exact h.kernel.reaches (h.small (h.shared K.pdptId (by simp)))
      (h.small (h.shared K.pd0 (by simp)))
  · obtain ⟨t, at_t, present, small, target⟩ := h.entrance r member
    obtain ⟨top, step⟩ := h.vm.firstLink at_t
    rw [← step] at present small target
    exact ⟨top, present, small, target⟩

/-- What `vmm_create_address_space` needs of the current root. -/
theorem current (h : Spaces K reserved roots s g) :
    0 < s.pmm.refcount s.cr3 ∧ 0 < s.pmm.refcount (frameOf (s.mem s.cr3 0)) := by
  rcases h.cur with kernel | member
  · have id := h.small (h.shared K.pdptId (by simp))
    have step : frameOf (s.mem K.pml4 0) = K.pdptId := by
      rw [h.kernel.pml4, if_pos rfl, tableEntry_frame id]
    rw [kernel, step]
    exact ⟨(h.outside (h.shared K.pml4 (by simp))).2, (h.outside (h.shared K.pdptId (by simp))).2⟩
  · obtain ⟨t, at_t, _⟩ := h.entrance _ member
    have root : g.role s.cr3 = some (.user s.cr3, []) := (h.live _).mpr member
    rw [(h.vm.firstLink at_t).2, h.vm.wf.rc_table at_t, h.vm.wf.rc_table root]
    decide

/-- The kernel half of the current root and its window are those of the kernel. -/
theorem currentHalf (h : Spaces K reserved roots s g) (i : Idx) (high : 256 ≤ i.val) :
    s.mem s.cr3 i = s.mem K.pml4 i := by
  rcases h.cur with kernel | member
  · rw [kernel]
  · exact h.upper _ member i high

/-- The shared tables are read-only as long as reserved frames keep their contents. -/
theorem sharedTables (h : Spaces K reserved roots s g) {mem : PhysMem}
    (same : ∀ {f}, reserved f → mem f = s.mem f) : K.Window mem ∧ K.Root mem := by
  refine ⟨⟨?_, ?_⟩, ⟨?_, ?_⟩⟩
  · rw [same (h.shared K.pd0 (by simp))]
    exact h.window.pd0
  · rw [same (h.shared K.pt0 (by simp))]
    exact h.window.pt0
  · rw [same (h.shared K.pml4 (by simp))]
    exact h.kernel.pml4
  · rw [same (h.shared K.pdptId (by simp))]
    exact h.kernel.pdptId

/-- Operations that keep all tables keep the system. -/
theorem keep (h : Spaces K reserved roots s g) (kept : Keep s g s' g') (vm : Vm K.pdptHh s' g')
    (live : ∀ o, (spaceLayout K.pdptHh).Live g' o ↔ (spaceLayout K.pdptHh).Live g o)
    (ext : ∀ f, reserved f → g.ext f ≤ g'.ext f)
    (apart : ∀ x, g'.leaf x ≠ 0#64 → ¬ reserved (frameOf (g'.leaf x))) :
    Spaces K reserved roots s' g' := by
  have same : ∀ {f}, reserved f → s'.mem f = s.mem f := fun here =>
    (kept.data (h.outside here).1 (h.outside here).2).2
  have pml4 := same (h.shared K.pml4 (by simp))
  obtain ⟨window, kernel⟩ := h.sharedTables same
  refine ⟨vm, fun r => (live _).trans (h.live r), h.nodup, ?_, h.shared, apart, window, kernel,
    ?_, ?_, ?_⟩
  · intro f here
    obtain ⟨lt, pos⟩ := h.held f here
    exact ⟨by rw [kept.evolves.total]; exact lt, lt_of_lt_of_le pos (ext f here)⟩
  · intro r member
    obtain ⟨t, at_t, entry⟩ := h.entrance r member
    refine ⟨t, kept.tables at_t, ?_⟩
    rwa [kept.foreign at_t (fun own => own ⟨rfl, rfl⟩)]
  · intro r member i high
    have root : g.role r = some (.user r, []) := (h.live r).mpr member
    have foreign : ¬ ownsSlot (.user r) [] i := by
      change ¬ i.val < 256
      omega
    rw [kept.foreign root foreign, pml4]
    exact h.upper r member i high
  · rw [kept.cr3]
    exact h.cur

/-- A root that is made joins the live ones. -/
theorem born (h : Spaces K reserved roots s g) {r : Nat} (grown : Grow s g s' g')
    (vm : Vm K.pdptHh s' g')
    (live : ∀ o, (spaceLayout K.pdptHh).Live g' o ↔
      (spaceLayout K.pdptHh).Live g o ∨ o = .user r)
    (unused : r < s.pmm.totalFrames ∧ s.pmm.refcount r = 0) (ext : g'.ext = g.ext)
    (apart : ∀ x, g'.leaf x ≠ 0#64 → ¬ reserved (frameOf (g'.leaf x)))
    (upper : ∀ i : Idx, 256 ≤ i.val → s'.mem r i = s.mem s.cr3 i)
    (copied : s.mem s.cr3 0 &&& vmmPresent ≠ 0#64 →
      ∃ t, g'.role t = some (.user r, [0]) ∧ s'.mem t 0 = s.mem (frameOf (s.mem s.cr3 0)) 0) :
    Spaces K reserved (r :: roots) s' g' := by
  have kept := grown.keep
  have same : ∀ {f}, reserved f → s'.mem f = s.mem f := fun here =>
    (kept.data (h.outside here).1 (h.outside here).2).2
  have pml4 := same (h.shared K.pml4 (by simp))
  have reach := h.reaches h.cur
  obtain ⟨window, kernel⟩ := h.sharedTables same
  refine ⟨vm, ?_, ?_, ?_, h.shared, apart, window, kernel, ?_, ?_, ?_⟩
  · intro r'
    rw [live, h.live, List.mem_cons, Owner.user.injEq]
    exact or_comm
  · refine List.nodup_cons.mpr ⟨?_, h.nodup⟩
    intro member
    exact (h.vm.unused_root unused.1 unused.2).1 ((h.live r).mpr member)
  · intro f here
    rw [kept.evolves.total, ext]
    exact h.held f here
  · intro r' member
    rcases List.mem_cons.mp member with rfl | old
    · obtain ⟨t, at_t, entry⟩ := copied reach.top
      refine ⟨t, at_t, ?_⟩
      rw [entry]
      exact ⟨reach.present, reach.small, reach.target⟩
    · obtain ⟨t, at_t, entry⟩ := h.entrance r' old
      refine ⟨t, kept.tables at_t, ?_⟩
      rwa [kept.foreign at_t (fun own => own ⟨rfl, rfl⟩)]
  · intro r' member i high
    rcases List.mem_cons.mp member with rfl | old
    · rw [upper i high, pml4, h.currentHalf i high]
    · have root : g.role r' = some (.user r', []) := (h.live r').mpr old
      have foreign : ¬ ownsSlot (.user r') [] i := by
        change ¬ i.val < 256
        omega
      rw [kept.foreign root foreign, pml4]
      exact h.upper r' old i high
  · rw [kept.cr3]
    exact h.cur.imp_right (List.mem_cons_of_mem r)

theorem created (h : Spaces K reserved roots s g) {r : Nat}
    (made : Created K.pdptHh r s g s' g') : Spaces K reserved (r :: roots) s' g' :=
  h.born made.toGrow made.vm made.live made.unused made.ext
    (by rw [made.leaf]; exact h.apart) made.upper made.window

theorem cloned (h : Spaces K reserved roots s g) {src dst : Nat}
    (made : Cloned K.pdptHh src dst s g s' g') : Spaces K reserved (dst :: roots) s' g' := by
  refine h.born made.toGrow made.vm made.live made.unused made.ext ?_ made.upper made.window
  have cow : ∀ q, cowEntry (g.leaf (.user src, q)) ≠ 0#64 →
      ¬ reserved (frameOf (cowEntry (g.leaf (.user src, q)))) := by
    intro q filled
    rw [cowEntry_frame]
    refine h.apart _ ?_
    intro empty
    rw [empty, cowEntry_zero] at filled
    exact filled rfl
  rintro ⟨o, q⟩
  by_cases isSrc : o = .user src
  · subst isSrc
    rw [made.source]
    exact cow q
  · by_cases isDst : o = .user dst
    · subst isDst
      rw [made.copy]
      exact cow q
    · rw [made.others isSrc isDst]
      exact h.apart _

theorem notCloned (h : Spaces K reserved roots s g) {src : Nat}
    (failed : NotCloned K.pdptHh src s g s' g') : Spaces K reserved roots s' g' := by
  refine h.keep failed.toKeep failed.vm failed.live (fun f _ => by rw [failed.ext]) ?_
  rintro ⟨o, q⟩ filled
  by_cases isSrc : o = .user src
  · subst isSrc
    rcases failed.source q with same | cow
    · rw [same] at filled ⊢
      exact h.apart _ filled
    · rw [cow] at filled ⊢
      rw [cowEntry_frame]
      refine h.apart _ ?_
      intro empty
      rw [empty, cowEntry_zero] at filled
      exact filled rfl
  · rw [failed.others isSrc] at filled ⊢
    exact h.apart _ filled

/-- A leaf that now names `f`, which nobody held, or the frame it named before. -/
theorem apart_update (h : Spaces K reserved roots s g) {x : Owner × List Idx} {w : Word}
    (leaf : g'.leaf = Function.update g.leaf x w) (new : ¬ reserved (frameOf w)) :
    ∀ y, g'.leaf y ≠ 0#64 → ¬ reserved (frameOf (g'.leaf y)) := by
  intro y
  rw [leaf]
  by_cases here : y = x
  · subst here
    rw [Function.update_self]
    exact fun _ => new
  · rw [Function.update_of_ne here]
    exact h.apart y

theorem unreserved (h : Spaces K reserved roots s g) {f : Nat} (zero : s.pmm.refcount f = 0) :
    ¬ reserved f := by
  intro here
  have used := (h.outside here).2
  omega

theorem resolved (h : Spaces K reserved roots s g) {x : Owner × List Idx} {f : Nat}
    (done : Resolved K.pdptHh x f s g s' g') : Spaces K reserved roots s' g' := by
  have filled : g.leaf x ≠ 0#64 := ne_zero_of_bit done.cow
  refine h.keep done.toKeep done.vm done.live (fun f _ => by rw [done.ext])
    (h.apart_update done.leaf ?_)
  rcases done.sole with ⟨rfl, _⟩ | ⟨lt, zero, _⟩
  · rw [writable_frame (frameOf_lt _)]
    exact h.apart x filled
  · rw [writable_frame (h.vm.frame_small lt)]
    exact h.unreserved zero

theorem fresh (h : Spaces K reserved roots s g) {x : Owner × List Idx} {flags : Word}
    {page : Page} {done : Bool} (result : FreshResult K.pdptHh s g x flags page done s' g') :
    Spaces K reserved roots s' g' := by
  have effect := result.effect
  cases done with
  | false =>
    obtain ⟨leaf, ext⟩ := effect
    exact h.keep result.keep result.vm result.live (fun f _ => by rw [ext])
      (by rw [leaf]; exact h.apart)
  | true =>
    obtain ⟨f, lt, zero, _, leaf, ext⟩ := effect
    refine h.keep result.keep result.vm result.live (fun f' _ => by rw [ext]; omega)
      (h.apart_update leaf ?_)
    rw [leafEntry_frame (h.vm.frame_small lt)]
    exact h.unreserved zero

theorem unmapped (h : Spaces K reserved roots s g) {x : Owner × List Idx}
    (gone : Unmapped K.pdptHh x s g s' g') : Spaces K reserved roots s' g' := by
  refine h.keep gone.toKeep gone.vm gone.live (fun f _ => by rw [gone.ext]) ?_
  intro y
  rw [gone.leaf]
  by_cases here : y = x
  · subst here
    rw [Function.update_self]
    exact fun no => absurd rfl no
  · rw [Function.update_of_ne here]
    exact h.apart y

/-- A space that is not loaded may be destroyed. -/
theorem destroyed (h : Spaces K reserved roots s g) {r : Nat}
    (gone : Destroyed K.pdptHh r s g s' g') (idle : r ≠ s.cr3) :
    Spaces K reserved (roots.erase r) s' g' := by
  have same : ∀ {f}, reserved f → s'.mem f = s.mem f := by
    intro f here
    apply gone.mem
    intro x role
    rw [(h.outside here).1] at role
    cases role
  have pml4 := same (h.shared K.pml4 (by simp))
  obtain ⟨window, kernel⟩ := h.sharedTables same
  have still : ∀ {r'}, r' ∈ roots.erase r → r' ∈ roots ∧ Owner.user r' ≠ .user r := by
    intro r' member
    obtain ⟨ne, old⟩ := h.nodup.mem_erase_iff.mp member
    exact ⟨old, fun eq => ne (Owner.user.inj eq)⟩
  have others : ∀ {r' t p}, r' ∈ roots.erase r → g.role t = some (.user r', p) →
      s'.mem t = s.mem t := by
    intro r' t p member role
    apply gone.mem
    intro x role'
    rw [role] at role'
    obtain rfl := Option.some.inj role'
    exact (still member).2
  refine ⟨gone.vm, ?_, h.nodup.erase r, ?_, h.shared, ?_, window, kernel, ?_, ?_, ?_⟩
  · intro r'
    have iff : (spaceLayout K.pdptHh).Live g' (.user r') ↔
        (spaceLayout K.pdptHh).Live g (.user r') ∧ Owner.user r' ≠ .user r := gone.roles _ _
    rw [iff, h.live, h.nodup.mem_erase_iff, ne_eq, Owner.user.injEq]
    exact and_comm
  · intro f here
    rw [gone.evolves.total, gone.ext]
    exact h.held f here
  · intro x filled
    rw [gone.leaf] at filled ⊢
    split at filled
    · exact absurd rfl filled
    · rename_i other
      rw [if_neg other]
      exact h.apart x filled
  · intro r' member
    obtain ⟨t, at_t, entry⟩ := h.entrance r' (still member).1
    refine ⟨t, (gone.roles _ _).mpr ⟨at_t, (still member).2⟩, ?_⟩
    rwa [others member at_t]
  · intro r' member i high
    have root : g.role r' = some (.user r', []) := (h.live r').mpr (still member).1
    rw [others member root, pml4]
    exact h.upper r' (still member).1 i high
  · rw [gone.cr3]
    rcases h.cur with root | member
    · exact .inl root
    · exact .inr (h.nodup.mem_erase_iff.mpr ⟨Ne.symm idle, member⟩)

/-- The contents of a frame that is neither a table nor reserved are free to change. -/
theorem scribbled (h : Spaces K reserved roots s g) {f : Nat} (data : g.role f = none)
    (free : ¬ reserved f) (page : Page) :
    Spaces K reserved roots { s with mem := Function.update s.mem f page } g := by
  have same : ∀ {t}, (reserved t ∨ ∃ x, g.role t = some x) →
      Function.update s.mem f page t = s.mem t := by
    rintro t (kept | ⟨x, role⟩)
    · refine Function.update_of_ne ?_ _ _
      rintro rfl
      exact free kept
    · refine Function.update_of_ne ?_ _ _
      rintro rfl
      rw [data] at role
      cases role
  obtain ⟨window, kernel⟩ := h.sharedTables (fun kept => same (.inl kept))
  refine ⟨h.vm.blank data page, h.live, h.nodup, h.held, h.shared, h.apart, window, kernel, ?_, ?_,
    h.cur⟩
  · intro r member
    obtain ⟨t, at_t, entry⟩ := h.entrance r member
    refine ⟨t, at_t, ?_⟩
    change K.Entrance (Function.update s.mem f page t 0)
    rwa [same (.inr ⟨_, at_t⟩)]
  · intro r member i high
    have root : g.role r = some (.user r, []) := (h.live r).mpr member
    change Function.update s.mem f page r i = Function.update s.mem f page K.pml4 i
    rw [same (.inr ⟨_, root⟩), same (.inl (h.shared K.pml4 (by simp)))]
    exact h.upper r member i high

/-- `vmm_switch` to the kernel's root or a live one. -/
theorem switched (h : Spaces K reserved roots s g) {r : Nat} (root : r = K.pml4 ∨ r ∈ roots) :
    Spaces K reserved roots { s with cr3 := r } g :=
  ⟨⟨h.vm.ok, h.vm.wf⟩, h.live, h.nodup, h.held, h.shared, h.apart, h.window, h.kernel, h.entrance,
    h.upper, root⟩

/-- The entrance to the window may change its flags. -/
theorem reentered (h : Spaces K reserved roots s g) {r t : Nat} {w : Word}
    (at_t : g.role t = some (.user r, [0])) (entry : K.Entrance w) :
    Spaces K reserved roots { s with mem := store s.mem t 0 w } g := by
  have same : ∀ {f}, reserved f → store s.mem t 0 w f = s.mem f := by
    intro f kept
    refine store_frame _ _ _ ?_
    rintro rfl
    rw [(h.outside kept).1] at at_t
    cases at_t
  have wf : Vm K.pdptHh { s with mem := store s.mem t 0 w } g := by
    refine ⟨h.vm.ok, h.vm.wf.scribble ?_⟩
    intro t' o p i role own
    apply store_of_ne
    rintro ⟨rfl, rfl⟩
    rw [at_t] at role
    obtain ⟨rfl, rfl⟩ := Prod.mk.inj (Option.some.inj role)
    exact own ⟨rfl, rfl⟩
  obtain ⟨window, kernel⟩ := h.sharedTables same
  refine ⟨wf, h.live, h.nodup, h.held, h.shared, h.apart, window, kernel, ?_, ?_, h.cur⟩
  · intro r' member
    obtain ⟨t', at_t', entry'⟩ := h.entrance r' member
    refine ⟨t', at_t', ?_⟩
    change K.Entrance (store s.mem t 0 w t' 0)
    by_cases here : t' = t
    · subst here
      rwa [store_same]
    · rwa [store_frame _ _ _ here]
  · intro r' member i high
    have root : g.role r' = some (.user r', []) := (h.live r').mpr member
    have ne : r' ≠ t := by
      rintro rfl
      rw [at_t] at root
      simp at root
    change store s.mem t 0 w r' i = store s.mem t 0 w K.pml4 i
    rw [store_frame _ _ _ ne, same (h.shared K.pml4 (by simp))]
    exact h.upper r' member i high

theorem marked (h : Spaces K reserved roots s g) {r t : Nat}
    (at_t : g.role t = some (.user r, [0])) :
    Spaces K reserved roots { s with mem := markedMem s.mem r t } g := by
  have root : g.role r = some (.user r, []) := h.vm.wf.live_of_role at_t
  have top := (h.vm.firstLink at_t).1
  have filled : s.mem r 0 ≠ 0#64 := by
    intro zero
    rw [zero] at top
    exact top (by decide)
  have first := markUser_spec h.vm vmmUser root (by simp) (by decide : (0 : Idx).val < 256) filled
  have quiet : Quiet K.pdptHh s g { s with mem := store s.mem r 0 (s.mem r 0 ||| vmmUser) } g := first
  have ne : t ≠ r := by
    rintro rfl
    rw [at_t] at root
    simp at root
  obtain ⟨t', at_t', entry⟩ := h.entrance r ((h.live r).mp root)
  obtain rfl := h.vm.wf.unique at_t' at_t
  exact (h.keep quiet.toGrow.keep quiet.vm quiet.live (fun _ _ => le_refl _) h.apart).reentered
    at_t entry.user

/-! ## Addresses no space owns -/

theorem inWindow_alignDown {v : Word} : InWindow (alignDown v pageSize) ↔ InWindow v := by
  have path := pagePath_alignDown v
  simp only [pagePath, List.cons.injEq, and_true] at path
  rw [InWindow, InWindow, path.2.2.1, path.2.2.2]

/-- No page of the identity window is a user page, in any space. -/
theorem window_supervisor (h : Spaces K reserved roots s g) {r : Nat} {v : Word}
    (root : r = K.pml4 ∨ r ∈ roots) (inside : InWindow v) :
    vmmGetFlags s.mem r v &&& presentUser ≠ presentUser := by
  rw [vmmGetFlags_window (h.reaches root) h.window (h.small (h.shared K.pt0 (by simp))) inside,
    ne_eq, and_presentUser, and_not_physMask_low _ (by decide), and_not_physMask_low _ (by decide),
    K.windowEntry_low v (k := 2) (by decide) (by decide)]
  simp

/-- The kernel's root has no user page. -/
theorem kernelRoot_supervisor (h : Spaces K reserved roots s g) {v : Word}
    (below : v < userSpaceTop) : vmmGetFlags s.mem K.pml4 v &&& presentUser ≠ presentUser := by
  rcases userPage_or_window below with page | inside
  · rw [(kernelRoot_vacant h.kernel (h.small (h.shared K.pdptId (by simp))) page).2.2]
    decide
  · exact h.window_supervisor (.inl rfl) inside

/-- A user address of a space goes where its leaf says, before and after. -/
theorem translation_eq {reserved' : Nat → Prop} {roots' : List Nat}
    (h : Spaces K reserved roots s g) (h' : Spaces K reserved' roots' s' g') {r : Nat} {v : Word}
    (root : r ∈ roots) (root' : r ∈ roots') (below : v < userSpaceTop)
    (leaf : g'.leaf (.user r, pagePath v) = g.leaf (.user r, pagePath v)) :
    translation s'.mem r v = translation s.mem r v := by
  rw [translation, translation]
  rcases userPage_or_window below with page | inside
  · have live := (h.live r).mpr root
    have live' := (h'.live r).mpr root'
    rw [vmmGetPhysical_user h.vm live page, vmmGetPhysical_user h'.vm live' page,
      vmmGetFlags_user h.vm live page, vmmGetFlags_user h'.vm live' page, leaf]
  · have pt0 := h.small (h.shared K.pt0 (by simp))
    have way := h.reaches (.inr root)
    have way' := h'.reaches (.inr root')
    rw [vmmGetPhysical_window way h.window pt0 inside,
      vmmGetPhysical_window way' h'.window pt0 inside,
      vmmGetFlags_window way h.window pt0 inside, vmmGetFlags_window way' h'.window pt0 inside]

/-- Outside the pages of a live space a fault is refused. -/
theorem faultRefused (h : Spaces K reserved roots s g) {halt : Kassert → MemState → Prop}
    {addr err : Word} (off : InWindow addr ∨ s.cr3 = K.pml4 ∨ userSpaceTop ≤ addr) :
    wp (vmmHandlePageFault addr err) (fun done s' => done = false ∧ s' = s) halt s := by
  by_cases high : userSpaceTop ≤ addr
  · unfold vmmHandlePageFault
    rw [if_pos (.inr high)]
    exact ⟨rfl, rfl⟩
  apply vmmHandlePageFault_refused
  intro t i found
  have pt0 := h.small (h.shared K.pt0 (by simp))
  have inside : InWindow (alignDown addr pageSize) := by
    rcases off with window | kernel | top
    · exact inWindow_alignDown.mpr window
    · rcases userPage_or_window (BitVec.not_le.mp high) with page | window
      · rw [kernel, (kernelRoot_vacant h.kernel (h.small (h.shared K.pdptId (by simp)))
          (userPage_alignDown.mpr page)).1] at found
        cases found
      · exact inWindow_alignDown.mpr window
    · exact absurd top high
  rw [vmmGetPte_window (h.reaches h.cur) h.window pt0 inside] at found
  split at found
  · obtain ⟨rfl, rfl⟩ := Prod.mk.inj (Option.some.inj found)
    rw [h.window.pt0, ne_eq, and_presentUserCow]
    split
    · simp
    · rw [identityPage_eq, tableEntry_low _ (by decide), tableEntry_low _ (by decide)]
      simp
  · cases found

/-- Mapping over a 2 MiB page of the window is refused, after the way there has been
marked for the user. -/
theorem vmmMapPage_huge (h : Spaces K reserved roots s g) (halt : Kassert → MemState → Prop)
    (phys : Word) {r : Nat} {v flags : Word} (root : r ∈ roots) (inside : InWindow v) (huge : pdIdx v ≠ 0)
    (user : flags &&& vmmUser ≠ 0#64) :
    ∃ t, g.role t = some (.user r, [0]) ∧
      wp (vmmMapPage r v phys flags) (fun done s' =>
        done = false ∧ s' = { s with mem := markedMem s.mem r t }) halt s := by
  obtain ⟨t, at_t, present, small, target⟩ := h.entrance r root
  obtain ⟨top, step⟩ := h.vm.firstLink at_t
  refine ⟨t, at_t, ?_⟩
  have rootRole : g.role r = some (.user r, []) := (h.live r).mpr root
  have ne : t ≠ r := by
    rintro rfl
    rw [at_t] at rootRole
    simp at rootRole
  have pd : ∀ {f}, (∃ x, g.role f = some x) → K.pd0 ≠ f := by
    rintro f ⟨x, role⟩ rfl
    rw [(h.outside (h.shared K.pd0 (by simp))).1] at role
    cases role
  unfold vmmMapPage mapBelowPdpt ptWalkOrAlloc markUser
  simp only [inside.1, inside.2, wp_bind, wp_readEntry, if_pos top, wp_pure, if_pos user,
    wp_writeEntry, step, store_frame _ _ _ ne, if_pos present, target]
  have entry : markedMem s.mem r t K.pd0 (pdIdx v) = identityHuge (pdIdx v) := by
    rw [markedMem, store_frame _ _ _ (pd ⟨_, at_t⟩), store_frame _ _ _ (pd ⟨_, rootRole⟩),
      h.window.pd0, if_neg huge]
  have kept : store (store s.mem r 0 (s.mem r 0 ||| vmmUser)) t 0 (s.mem t 0 ||| vmmUser) K.pd0
      (pdIdx v) = identityHuge (pdIdx v) := entry
  simp only [kept, ne_eq, identityHuge_huge, not_false_eq_true, if_true, wp_pure, markedMem,
    and_self]

/-- A user store to the identity window is not performed. -/
theorem userStore_window (h : Spaces K reserved roots s g) {halt : Kassert → MemState → Prop}
    {addr : Word} {b : Byte} (inside : InWindow addr) :
    wp (userStore addr b) (fun done s' => done = false ∧ s' = s) halt s := by
  have flags := h.window_supervisor h.cur inside
  have notAll : ¬ vmmGetFlags s.mem s.cr3 addr &&& presentUserWrite = presentUserWrite := by
    rw [and_presentUserWrite]
    rintro ⟨present, user, _⟩
    exact flags ((and_presentUser _).mpr ⟨present, user⟩)
  unfold userStore
  rw [wp_bind]
  unfold storeDirect
  rw [wp_bind, wp_get, if_neg notAll, wp_pure, if_neg (by decide), wp_bind, wp_get]
  refine wp_seq (h.faultRefused (.inl inside)) ?_
  rintro done s' ⟨rfl, rfl⟩
  exact ⟨rfl, rfl⟩

theorem userPageForCopy_window (h : Spaces K reserved roots s g)
    {halt : Kassert → MemState → Prop} {addr : Word} (inside : InWindow addr) :
    wp (userPageForCopy addr) (fun result s' => result = none ∧ s' = s) halt s :=
  userPageForCopy_refused (h.window_supervisor h.cur (inWindow_alignDown.mpr inside))

theorem unmapUserPage_window (h : Spaces K reserved roots s g)
    {halt : Kassert → MemState → Prop} {r : Nat} {v : Word} (root : r ∈ roots)
    (inside : InWindow v) : wp (unmapUserPage r v) (fun _ s' => s' = s) halt s := by
  unfold unmapUserPage
  rw [wp_bind, wp_get, if_pos (h.window_supervisor (.inr root) inside)]
  exact rfl

end Spaces

end LithiumKernel.Mm
