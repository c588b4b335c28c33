import LithiumKernel.Syscall.Growth
import LithiumKernel.Syscall.UserRange

/-!
# What munmap takes away (kernel/syscall/syscall.c)

`sys_munmap_impl` checks the range with `user_range_ok`, byte by byte so to speak, and then
clears whole pages. `Removed` says what the loop has done so far: the entries of the pages
visited are zero, each has cost its frame one reference, and no other word of memory has
changed. The pages of the loop are those that meet the range, and the check has made sure that
all of them are there.
-/
namespace LithiumKernel.Syscall

open LithiumKernel.Lib LithiumKernel.Lib.Forest LithiumKernel.Mm

/-- The page of `v` meets the range. -/
def Meets (start len : Nat) (v : Word) : Prop :=
  start / 4096 ≤ v.toNat / 4096 ∧ v.toNat / 4096 * 4096 < start + len

/-- How many of the pages are mapped to the frame `f`. -/
def pagesOn (mem : PhysMem) (root f : Nat) (pages : List Word) : Nat :=
  pages.countP fun v => (vmmGetPhysical mem root v).map frameOf = some f

/-- Exactly the pages of the range are gone, with one reference each. -/
structure RangeUnmapped (roots : List Nat) (root : Nat) (addr len : Word) (s s' : MemState) :
    Prop where
  gone : ∀ v, v < userSpaceTop → Meets addr.toNat len.toNat v →
    translation s'.mem root v = (none, 0#64)
  others : ∀ r ∈ roots, ∀ v, v < userSpaceTop → ¬ (r = root ∧ Meets addr.toNat len.toNat v) →
    translation s'.mem r v = translation s.mem r v
  counts : ∀ f, s'.pmm.refcount f + pagesOn s.mem root f
    (pageRange addr (addr + alignUp len pageSize)) = s.pmm.refcount f
  survive : ∀ f, f < s'.pmm.totalFrames → 0 < s'.pmm.refcount f → s'.pmm.frameIsFree f = false
  entries : ∀ t i, s'.mem t i ≠ s.mem t i → s'.mem t i = 0#64 ∧
    ∃ v, v < userSpaceTop ∧ Meets addr.toNat len.toNat v ∧ vmmGetPte s.mem root v = some (t, i)

variable {K : KernelTables} {roots : List Nat} {s s' : MemState} {g g' : SpaceGhost} {r : Nat}

/-! ## The loop -/

structure Removed (K : KernelTables) (roots : List Nat) (r : Nat) (s : MemState) (g : SpaceGhost)
    (pages : List Word) (s' : MemState) (g' : SpaceGhost) : Prop where
  system : System K roots s' g'
  role : g'.role = g.role
  cleared : ∀ v ∈ pages, g'.leaf (.user r, pagePath v) = 0#64
  others : ∀ o q, ¬ (o = .user r ∧ q ∈ pages.map pagePath) → g'.leaf (o, q) = g.leaf (o, q)
  counts : ∀ f, s'.pmm.refcount f +
    pages.countP (fun v => frameOf (g.leaf (.user r, pagePath v)) = f) = s.pmm.refcount f
  entries : ∀ t i, s'.mem t i ≠ s.mem t i → s'.mem t i = 0#64 ∧
    ∃ v ∈ pages, g.role t = some (.user r, [pdIdx v, pdptIdx v, pml4Idx v]) ∧ i = ptIdx v

theorem Removed.nil (h : System K roots s g) : Removed K roots r s g [] s g where
  system := h
  role := rfl
  cleared := by simp
  others _ _ _ := rfl
  counts _ := rfl
  entries _ _ changed := absurd rfl changed

theorem Removed.snoc {pages : List Word} {s₁ : MemState} {g₁ : SpaceGhost} {v : Word}
    (before : Removed K roots r s g pages s₁ g₁) (fresh : pagePath v ∉ pages.map pagePath)
    (filled : g.leaf (.user r, pagePath v) ≠ 0#64)
    (gone : Cleared K.pdptHh r v s₁ g₁ s' g') : Removed K roots r s g (pages ++ [v]) s' g' := by
  have same : g₁.leaf (.user r, pagePath v) = g.leaf (.user r, pagePath v) :=
    before.others _ _ fun both => fresh both.2
  have leaf : ∀ x, x ≠ (.user r, pagePath v) → g'.leaf x = g₁.leaf x := by
    intro x ne
    rw [gone.leaf, Function.update_of_ne ne]
  constructor
  case system => exact before.system.keep gone.toKeep (before.system.toSpaces.unmapped gone.toUnmapped)
  case role => exact gone.role.trans before.role
  case cleared =>
    intro w member
    by_cases here : pagePath w = pagePath v
    · rw [gone.leaf, here, Function.update_self]
    · have old : w ∈ pages := by
        refine (List.mem_append.mp member).resolve_right ?_
        intro new
        exact here (by rw [List.mem_singleton.mp new])
      rw [leaf _ (fun eq => here (Prod.mk.inj eq).2)]
      exact before.cleared w old
  case others =>
    intro o q off
    rw [List.map_append, List.mem_append] at off
    rw [leaf, before.others o q (fun both => off ⟨both.1, .inl both.2⟩)]
    rintro eq
    obtain ⟨rfl, rfl⟩ := Prod.mk.inj eq
    exact off ⟨rfl, .inr (by simp)⟩
  case counts =>
    intro f
    have sum := before.counts f
    rw [List.countP_append, List.countP_singleton, gone.counts, same]
    by_cases here : frameOf (g.leaf (.user r, pagePath v)) = f
    · have used := (before.system.vm.leaf_facts (by rwa [same])).2.2.2
      rw [same, here] at used
      rw [here, Function.update_self]
      simp only [decide_true, if_true]
      omega
    · rw [Function.update_of_ne (Ne.symm here)]
      simp only [here, decide_false, Bool.false_eq_true, if_false]
      omega
  case entries =>
    intro t i changed
    obtain ⟨t', at_t, mem⟩ := gone.mem
    rw [before.role] at at_t
    rw [mem] at changed ⊢
    by_cases here : t = t' ∧ i = ptIdx v
    · obtain ⟨rfl, rfl⟩ := here
      exact ⟨store_same .., v, by simp, at_t, rfl⟩
    · rw [store_of_ne _ _ here] at changed ⊢
      obtain ⟨zero, w, member, at_w, index⟩ := before.entries t i changed
      exact ⟨zero, w, List.mem_append_left _ member, at_w, index⟩

theorem unmapPages_removed (h : System K roots s g) (root : r ∈ roots) {pages : List Word}
    {halt : Kassert → MemState → Prop} (user : ∀ v ∈ pages, UserPage v)
    (nodup : (pages.map pagePath).Nodup)
    (filled : ∀ v ∈ pages, g.leaf (.user r, pagePath v) ≠ 0#64) :
    wp (forM pages (unmapUserPage r)) (fun _ s' => ∃ g', Removed K roots r s g pages s' g')
      halt s := by
  refine wp_forM (fun done s₁ => ∃ g₁, Removed K roots r s g done s₁ g₁) pages ?_ ⟨g, .nil h⟩
  rintro done v rest s₁ split ⟨g₁, before⟩
  have member : v ∈ pages := by simp [split]
  have fresh : pagePath v ∉ done.map pagePath := by
    rw [split, List.map_append, List.map_cons] at nodup
    intro again
    exact List.disjoint_of_nodup_append nodup again List.mem_cons_self
  have same : g₁.leaf (.user r, pagePath v) = g.leaf (.user r, pagePath v) :=
    before.others _ _ fun both => fresh both.2
  refine wp_imp (unmapUserPage_cleared before.system.vm ((before.system.live r).mpr root)
    (user v member) (by rw [same]; exact filled v member)) ?_
  rintro _ s₂ ⟨g₂, gone⟩
  exact ⟨g₂, before.snoc fresh (filled v member) gone⟩

/-! ## The call -/

section Call

variable {addr len : Word}

/-- The pages of the loop are those that meet the range. -/
theorem mem_munmapPages (aligned : addr.toNat % 4096 = 0)
    (inside : RangeInside addr.toNat len.toNat) {v : Word} :
    v ∈ pageRange addr (addr + alignUp len pageSize) ↔
      v.toNat % 4096 = 0 ∧ Meets addr.toNat len.toNat v := by
  have top := inside.2
  have size := alignUp_page_toNat len
  have stop : (addr + alignUp len pageSize).toNat = addr.toNat + (alignUp len pageSize).toNat := by
    rw [BitVec.toNat_add]
    omega
  rw [mem_pageRange_iff aligned (by omega), stop, size, Meets]
  omega

theorem nodup_pageRange {first stop : Word} (room : stop.toNat ≤ 2 ^ 63) :
    (pageRange first stop).Nodup := by
  refine List.Nodup.map_on ?_ List.nodup_range
  intro i before j before' same
  have lt := List.mem_range.mp before
  have lt' := List.mem_range.mp before'
  have value := congrArg BitVec.toNat same
  rw [BitVec.toNat_add, BitVec.toNat_add, BitVec.toNat_ofNat, BitVec.toNat_ofNat] at value
  omega

/-- In user space, pages at different addresses have different paths. -/
theorem nodup_paths {pages : List Word} (nodup : pages.Nodup)
    (user : ∀ v ∈ pages, v.toNat % 4096 = 0 ∧ v < userSpaceTop) : (pages.map pagePath).Nodup := by
  refine List.Nodup.map_on ?_ nodup
  intro v here w there same
  obtain ⟨aligned, below⟩ := user v here
  obtain ⟨aligned', below'⟩ := user w there
  apply BitVec.eq_of_toNat_eq
  have page := (pagePath_user below below').mp same
  omega

/-- The effect of the loop, as the page tables show it. -/
theorem Removed.unmapped (h : System K roots s g) (root : r ∈ roots)
    (aligned : addr.toNat % 4096 = 0) (inside : RangeInside addr.toNat len.toNat)
    (user : ∀ v ∈ pageRange addr (addr + alignUp len pageSize), UserPage v)
    (filled : ∀ v ∈ pageRange addr (addr + alignUp len pageSize),
      g.leaf (.user r, pagePath v) ≠ 0#64)
    (removed : Removed K roots r s g (pageRange addr (addr + alignUp len pageSize)) s' g') :
    RangeUnmapped roots r addr len s s' := by
  have top := inside.2
  have pages : ∀ {v : Word}, v ∈ pageRange addr (addr + alignUp len pageSize) ↔
      v.toNat % 4096 = 0 ∧ Meets addr.toNat len.toNat v := mem_munmapPages aligned inside
  have below : ∀ {v : Word}, Meets addr.toNat len.toNat v → v < userSpaceTop := by
    intro v ⟨_, high⟩
    rw [lt_userSpaceTop]
    omega
  -- an address on a page of the range has the leaf of that page
  have start : ∀ {v : Word}, Meets addr.toNat len.toNat v →
      alignDown v pageSize ∈ pageRange addr (addr + alignUp len pageSize) := by
    intro v meets
    have base := alignDown_page_toNat v
    have := meets.1
    have := meets.2
    rw [pages, Meets, base]
    omega
  constructor
  case gone =>
    intro v under meets
    have page := user _ (start meets)
    rw [userPage_alignDown] at page
    have empty := removed.cleared _ (start meets)
    rw [pagePath_alignDown] at empty
    have live := (removed.system.live r).mpr root
    rw [translation, vmmGetPhysical_user removed.system.vm live page,
      vmmGetFlags_user removed.system.vm live page, empty, if_pos rfl, BitVec.zero_and]
  case others =>
    intro r' member v under off
    refine h.toSpaces.translation_eq removed.system.toSpaces member member under ?_
    refine removed.others _ _ ?_
    rintro ⟨owner, path⟩
    obtain ⟨w, visited, same⟩ := List.mem_map.mp path
    obtain ⟨_, meets⟩ := pages.mp visited
    refine off ⟨Owner.user.inj owner, ?_⟩
    have page := (pagePath_user (below meets) under).mp same
    rwa [Meets, ← page]
  case counts =>
    intro f
    rw [← removed.counts f, pagesOn]
    congr 1
    refine List.countP_congr ?_
    intro v member
    rw [vmmGetPhysical_user h.vm ((h.live r).mpr root) (user v member), if_neg (filled v member),
      Option.map_some, phys_frame]
    simp
  case survive =>
    intro f lt pos
    exact Pmm.used_of_refcount removed.system.vm.ok lt pos
  case entries =>
    intro t i changed
    obtain ⟨zero, v, member, at_t, rfl⟩ := removed.entries t i changed
    obtain ⟨_, meets⟩ := pages.mp member
    refine ⟨zero, v, below meets, meets, ?_⟩
    rcases vmmGetPte_user h.vm ((h.live r).mpr root) (user v member) with ⟨_, empty⟩ | found
    · exact absurd empty (filled v member)
    · obtain ⟨t', entry, at_t', _⟩ := found
      rw [entry, h.vm.wf.unique at_t at_t']

end Call

/-- What `munmap` asks of its arguments: whole pages in user space, all of them mapped. -/
def MunmapOk (s : MemState) (root : Nat) (addr len : Word) : Prop :=
  addr ≠ 0#64 ∧ addr.toNat % 4096 = 0 ∧ 0 < len.toNat ∧ addr.toNat + len.toNat ≤ 2 ^ 47 ∧
    RangeMapped s.mem root addr.toNat len.toNat

/-- The test of `sys_munmap_impl`. -/
theorem munmapOk_iff {root : Nat} {addr len : Word} :
    MunmapOk s root addr len ↔ ¬ (len = 0#64 ∨ addr &&& 0xFFF#64 ≠ 0#64) ∧
      userRangeOk s.mem root addr len = true := by
  have zero : ∀ {x : Word}, x.toNat = 0 ↔ x = 0#64 := by
    intro x
    exact ⟨fun value => BitVec.eq_of_toNat_eq value, fun eq => by rw [eq]; rfl⟩
  rw [not_or, not_not, pageAligned_iff, MunmapOk]
  by_cases empty : len = 0#64
  · refine iff_of_false ?_ (fun both => both.1.1 empty)
    intro ⟨_, _, some_, _⟩
    rw [empty] at some_
    exact absurd some_ (by decide)
  · rw [userRangeOk_iff empty, RangeInside, ne_eq, ← zero, ← zero]
    rw [← zero] at empty
    constructor
    · intro ⟨nonzero, aligned, some_, top, mapped⟩
      exact ⟨⟨empty, aligned⟩, ⟨by omega, top⟩, mapped⟩
    · intro ⟨⟨_, aligned⟩, ⟨low, top⟩, mapped⟩
      exact ⟨by omega, aligned, by omega, top, mapped⟩

/-- The check passed: the loop takes away the pages that meet the range. -/
theorem munmap_pages (h : System K roots s g) (root : r ∈ roots) {addr len : Word}
    {halt : Kassert → MemState → Prop} (ok : MunmapOk s r addr len) :
    wp (forM (pageRange addr (addr + alignUp len pageSize)) (unmapUserPage r))
      (fun _ s' => RangeUnmapped roots r addr len s s') halt s := by
  obtain ⟨nonzero, aligned, some_, top, mapped⟩ := ok
  have first : addr.toNat ≠ 0 := fun zero => nonzero (BitVec.eq_of_toNat_eq zero)
  have inside : RangeInside addr.toNat len.toNat := ⟨by omega, top⟩
  have pages : ∀ v ∈ pageRange addr (addr + alignUp len pageSize),
      v.toNat % 4096 = 0 ∧ v < userSpaceTop ∧ UserMapped s.mem r v := by
    intro v member
    obtain ⟨page, low, high⟩ := (mem_munmapPages aligned inside).mp member
    have here := mapped v.toNat (by omega) (by omega)
    rw [BitVec.ofNat_toNat, BitVec.setWidth_eq] at here
    exact ⟨page, lt_userSpaceTop.mpr (by omega), here⟩
  have user : ∀ v ∈ pageRange addr (addr + alignUp len pageSize), UserPage v := by
    intro v member
    obtain ⟨_, below, here⟩ := pages v member
    refine (userPage_or_window below).resolve_right ?_
    intro window
    exact h.toSpaces.window_supervisor (.inr root) window here
  have filled : ∀ v ∈ pageRange addr (addr + alignUp len pageSize),
      g.leaf (.user r, pagePath v) ≠ 0#64 := fun v member =>
    (pages v member).2.2.filled h root (user v member)
  have size := alignUp_page_toNat len
  have nodup := nodup_paths
    (nodup_pageRange (show (addr + alignUp len pageSize).toNat ≤ 2 ^ 63 by
      rw [BitVec.toNat_add]
      omega))
    (fun v member => ⟨(pages v member).1, (pages v member).2.1⟩)
  refine wp_imp (unmapPages_removed h root user nodup filled) ?_
  rintro _ s' ⟨g', removed⟩
  exact removed.unmapped h root aligned inside user filled

/-- **munmap is exact and atomic.** In every sound state with the caller's space loaded, for all
`addr` and `len`, the call returns. It succeeds exactly if the range is aligned, not empty, in
user space and mapped throughout; then the pages that meet it are gone, each with one reference
of its frame, and all else is as it was. Otherwise it returns `-EINVAL` and nothing has changed. -/
theorem munmap_exact {task : UserTask} (sound : Sound K roots task.cr3 s)
    (root : task.cr3 ∈ roots) (addr len : Word) :
    ∃ result s', sysMunmap task addr len s = .ok result s' ∧
      (result = 0 ↔ MunmapOk s task.cr3 addr len) ∧
      (result = 0 → RangeUnmapped roots task.cr3 addr len s s') ∧
      (result ≠ 0 → result = -einval ∧ s' = s) := by
  obtain ⟨loaded, g, sys⟩ := sound
  have refusal : (-einval : Int) ≠ 0 := by decide
  apply exists_run
  unfold sysMunmap
  apply wp_ite
  · intro bad
    refine ⟨iff_of_false refusal ?_, fun no => absurd no refusal, fun _ => ⟨rfl, rfl⟩⟩
    intro ok
    exact (munmapOk_iff.mp ok).1 bad
  intro good
  rw [wp_bind, wp_get, loaded]
  apply wp_ite
  · intro checked
    have ok := munmapOk_iff.mpr ⟨good, checked⟩
    refine wp_seq (munmap_pages sys root ok) ?_
    intro _ s' gone
    exact ⟨iff_of_true rfl ok, fun _ => gone, fun no => absurd rfl no⟩
  · intro unchecked
    refine ⟨iff_of_false refusal ?_, fun no => absurd no refusal, fun _ => ⟨rfl, rfl⟩⟩
    intro ok
    exact unchecked (munmapOk_iff.mp ok).2

/-- One byte of the stack page takes the whole page away, and leaves the program's. -/
theorem munmap_exact_stack :
    ∃ s', sysMunmap smallUser 0x400FF000#64 1#64 smallTask.mm = .ok 0 s' ∧
      translation s'.mem 8 0x400FF800#64 = (none, 0#64) ∧
      translation s'.mem 8 0x40200000#64 = translation smallTask.mm.mem 8 0x40200000#64 := by
  have value : resultValue (sysMunmap smallUser 0x400FF000#64 1#64 smallTask.mm) = some 0 := by
    decide +kernel
  obtain ⟨roots, sound, root, _⟩ := smallUser_sound
  obtain ⟨result, s', ran, _, done, _⟩ := munmap_exact sound root 0x400FF000#64 1#64
  obtain rfl : result = 0 := by
    rw [ran] at value
    exact Option.some.inj value
  have unmapped := done rfl
  refine ⟨s', ran, unmapped.gone _ (by decide) ⟨by decide, by decide⟩,
    unmapped.others _ root _ (by decide) ?_⟩
  intro both
  exact absurd both.2.2 (by decide)

end LithiumKernel.Syscall
