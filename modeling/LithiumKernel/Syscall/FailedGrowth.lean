import LithiumKernel.Syscall.PageLoops

/-!
# Growth that fails (kernel/syscall/syscall.c)

When a page cannot be mapped, `sys_mmap_impl` unmaps the pages before it and `sys_brk_impl`
returns at once. What is left afterwards is decided by the pages that could be mapped: brk leaves
them, and mmap leaves nothing in their place, also where a page was mapped before the call.
-/
namespace LithiumKernel.Syscall

open LithiumKernel.Lib LithiumKernel.Lib.Radix LithiumKernel.Mm

/-- Every user address has the translation it had, and every frame the references it had, except
those that are page tables now. -/
structure Restored (root : Nat) (s s' : MemState) : Prop where
  translations : ∀ w : Word, w < userSpaceTop →
    translation s'.mem root w = translation s.mem root w
  frames : ∀ f, s'.pmm.refcount f = s.pmm.refcount f ∨
    ∃ q, pageTable s.mem root q = none ∧ pageTable s'.mem root q = some f

/-- Nothing is mapped at the address. -/
def Vacant (mem : PhysMem) (root : Nat) (v : Word) : Prop :=
  translation mem root v = (none, 0#64)

variable {s s₀ s' : MemState} {root : Nat} {flags : Word} {placed : List (Word × Nat)}
  {gone : List Word} {new : Finset (List Idx)} {task : UserTask}

theorem vacant_iff (tree : PageTree s root) {v : Word} :
    Vacant s.mem root v ↔ lookup pageFormat s.mem root (pagePath v) = none := by
  rw [Vacant, translation, (tree.reads v).1, (tree.reads v).2]
  cases lookup pageFormat s.mem root (pagePath v) with
  | none => simp
  | some found => simp

/-- A page that is still mapped has taken a frame. -/
theorem Laid.not_restored (h : Laid root flags s₀ s placed gone new) (some_ : placed ≠ []) :
    ¬ Restored root s₀ s := by
  obtain ⟨x, member⟩ := List.exists_mem_of_ne_nil placed some_
  have frame : x.2 ∈ placed.map Prod.snd := List.mem_map_of_mem member
  have held := h.drawn.held x.2 frame
  intro restored
  rcases restored.frames x.2 with same | ⟨q, _, at_q⟩
  · rw [held.once, (h.drawn.fresh x.2 frame).1] at same
    cases same
  · exact held.data q at_q

/-- With every page unmapped again, what is missing is what those pages hid. -/
theorem Laid.restored_iff (tree : PageTree s₀ root) (h : Laid root flags s₀ s [] gone new)
    (user : ∀ v ∈ gone, v < userSpaceTop) :
    Restored root s₀ s ↔ ∀ v ∈ gone, Vacant s₀.mem root v := by
  have now : ∀ v ∈ gone, Vacant s.mem root v := fun v member =>
    (vacant_iff h.drawn.tree).mpr (h.cleared v member)
  constructor
  · intro restored v member
    rw [Vacant, ← restored.translations v (user v member)]
    exact now v member
  · intro before
    refine ⟨fun w _ => ?_, fun f => ?_⟩
    · rw [translation, translation, (tree.reads w).1, (tree.reads w).2, (h.drawn.tree.reads w).1,
        (h.drawn.tree.reads w).2]
      by_cases inside : ∃ v ∈ gone, pagePath w = pagePath v
      · obtain ⟨v, member, path⟩ := inside
        rw [path, h.cleared v member, (vacant_iff tree).mp (before v member)]
      · rw [h.others _ rfl (by simp) fun v member path => inside ⟨v, member, path⟩]
    · rcases h.drawn.rest f List.not_mem_nil with ⟨same, _⟩ | ⟨q, member, at_q⟩
      · exact .inl same
      · exact .inr ⟨q, h.drawn.absent q member, at_q⟩

/-! ## brk -/

/-- The request passes the checks of `sys_brk_impl` and needs pages. -/
def BrkGrows (task : UserTask) (requested : Word) : Prop :=
  requested ≠ 0#64 ∧ ¬ (requested < task.brkBase ∨ task.mmapNext ≤ requested) ∧
    alignUp task.brkCurrent pageSize < alignUp requested pageSize

/-- How a call of `sys_brk_impl` ends: the break is moved, or the request was refused or could
not be met. -/
inductive BrkOutcome (task : UserTask) (requested : Word) (s : MemState) :
    UserTask × Word → MemState → Prop
  | moved {task' : UserTask} {s' : MemState} : BrkOutcome task requested s (task', requested) s'
  | refused (no : ¬ BrkGrows task requested) :
    BrkOutcome task requested s (task, task.brkCurrent) s
  | stuck {s' : MemState} {done rest : List Word} {v : Word} (grows : BrkGrows task requested)
    (split : brkPages task requested = done ++ v :: rest)
    (stuck : Stuck task.cr3 (vmmUser ||| vmmWrite ||| vmmNx) s done v s') :
    BrkOutcome task requested s (task, task.brkCurrent) s'

theorem sysBrk_outcome (tree : PageTree s task.cr3) (ok : s.pmm.Ok)
    (top : task.mmapNext.toNat ≤ 2 ^ 47) (requested : Word) :
    wp (sysBrk task requested) (BrkOutcome task requested s) (fun _ _ => True) s := by
  unfold sysBrk
  apply wp_ite
  · intro query
    exact .refused fun grows => grows.1 query
  intro nonzero
  apply wp_ite
  · intro outside
    exact .refused fun grows => grows.2.1 outside
  intro inside
  have range := inside
  rw [not_or, BitVec.not_lt, BitVec.not_le, BitVec.lt_def] at range
  have newTop := alignUp_page_toNat requested
  dsimp only
  apply wp_ite
  · intro more
    have grows : BrkGrows task requested := ⟨nonzero, inside, more⟩
    refine wp_seq (mapPages_laid (nodup_range_paths (by omega)) tree ok) ?_
    rintro (_ | _) s₁ after
    · obtain ⟨done, v, rest, split, stuck⟩ := after
      exact .stuck grows split stuck
    · exact .moved
  · intro _
    refine wp_seq (wp_true s) ?_
    intro _ s₁ _
    exact .moved

theorem sysBrk_cases (tree : PageTree s task.cr3) (ok : s.pmm.Ok)
    (top : task.mmapNext.toNat ≤ 2 ^ 47) {requested : Word} {result : UserTask × Word}
    (ran : sysBrk task requested s = .ok result s') : BrkOutcome task requested s result s' := by
  have outcome := sysBrk_outcome tree ok top requested
  rwa [wp_run ran] at outcome

theorem pageRange_head {first stop v : Word} {rest : List Word}
    (split : pageRange first stop = v :: rest) : v = first := by
  have head := congrArg List.head? split
  rw [pageRange, List.head?_map, List.head?_range, List.head?_cons] at head
  split at head
  · cases head
  · simpa using head.symm

theorem BrkOutcome.restored_iff (tree : PageTree s task.cr3) {requested ret : Word}
    {task' : UserTask} (h : BrkOutcome task requested s (task', ret) s') (ok : s.pmm.Ok)
    (failed : ret ≠ requested) :
    task' = task ∧ Restored task.cr3 s s' ↔
      (BrkGrows task requested →
        ¬ Affordable s task.cr3 [alignUp task.brkCurrent pageSize]) := by
  cases h with
  | moved => exact absurd rfl failed
  | refused no =>
    refine ⟨fun _ grows => absurd grows no, fun _ => ⟨rfl, ?_⟩⟩
    exact ((Laid.refl tree ok 0#64).restored_iff tree nofun).mpr nofun
  | @stuck _ done rest v grows split stuck =>
    obtain ⟨enough, few, placed, new, rfl, laid⟩ := stuck
    cases placed with
    | nil =>
      obtain rfl := pageRange_head split
      exact ⟨fun _ _ => few, fun _ => ⟨rfl, (laid.restored_iff tree nofun).mpr nofun⟩⟩
    | cons x placed =>
      rw [List.map_cons, List.cons_append] at split
      have first := pageRange_head split
      constructor
      · intro unchanged
        exact absurd unchanged.2 (laid.not_restored (List.cons_ne_nil _ _))
      · intro none_
        rw [List.map_cons, first] at enough
        exact absurd (Affordable.take enough) (none_ grows)

/-! ## mmap -/

/-- The pages mapped before a failure are those for which there were frames enough. -/
theorem affordable_iff {pages done rest : List Word} {v : Word} (split : pages = done ++ v :: rest)
    (enough : Affordable s root done) (few : ¬ Affordable s root (done ++ [v])) {w : Word} :
    w ∈ done ↔ ∃ pre, (pre ++ [w]) <+: pages ∧ Affordable s root (pre ++ [w]) := by
  constructor
  · intro member
    obtain ⟨pre, post, rfl⟩ := List.append_of_mem member
    have all : Affordable s root ((pre ++ [w]) ++ post) := by simpa using enough
    exact ⟨pre, ⟨post ++ v :: rest, by simp [split]⟩, all.take⟩
  · rintro ⟨pre, front, affordable⟩
    have front' : (done ++ [v]) <+: pages := ⟨rest, by simp [split]⟩
    rcases List.prefix_or_prefix_of_prefix front front' with shorter | ⟨more, longer⟩
    · rcases List.prefix_concat_iff.mp shorter with same | within
      · exact absurd (same ▸ affordable) few
      · exact within.subset (by simp)
    · rw [← longer] at affordable
      exact absurd affordable.take few

theorem MmapOutcome.restored_iff (tree : PageTree s task.cr3) (ok : s.pmm.Ok)
    {addr len prot flags : Word} {fd : Int} {task' : UserTask}
    (h : MmapOutcome task addr len prot flags fd s (task', mapFailedRet) s') :
    task' = task ∧ Restored task.cr3 s s' ↔
      (MmapAccepted task addr len flags fd → ∀ pre v, (pre ++ [v]) <+: mmapTried task addr len →
        Affordable s task.cr3 (pre ++ [v]) → Vacant s.mem task.cr3 v) := by
  generalize value : mapFailedRet = ret at h
  cases h with
  | refused no =>
    refine ⟨fun _ grows => absurd grows no, fun _ => ⟨rfl, ?_⟩⟩
    exact ((Laid.refl tree ok 0#64).restored_iff tree nofun).mpr nofun
  | mapped _ _ => exact absurd value (by rw [mapFailedRet]; omega)
  | undone checks undone =>
    obtain ⟨done, v, rest, new, split, enough, few, laid⟩ := undone
    obtain ⟨_, stop, top⟩ := checks.range
    have user : ∀ w ∈ done, w < userSpaceTop := by
      intro w member
      have tried : w ∈ mmapTried task addr len := by simp [split, member]
      have range := mem_pageRange tried (by omega)
      exact lt_userSpaceTop.mpr (by omega)
    rw [laid.restored_iff tree user]
    constructor
    · rintro ⟨_, vacant⟩ _ pre w front affordable
      exact vacant w ((affordable_iff split enough few).mpr ⟨pre, front, affordable⟩)
    · intro vacant
      refine ⟨rfl, fun w member => ?_⟩
      obtain ⟨pre, front, affordable⟩ := (affordable_iff split enough few).mp member
      exact vacant checks pre w front affordable

/-- **What a failed growth leaves behind.** In a task with well-formed page tables, a call of
`sys_brk_impl` that returns the old break instead of the one asked for leaves the task, every user
translation and every data frame as they were exactly if not even the first page could be mapped.
A call of `sys_mmap_impl` without a hint that fails does so exactly if nothing was mapped before
at any page that could be mapped, that is, for which there were frames enough after those in
front of it. -/
theorem failed_growth_restores_iff (tree : PageTree s task.cr3) (ok : s.pmm.Ok)
    (top : task.mmapNext.toNat ≤ 2 ^ 47) :
    (∀ requested task' ret s', sysBrk task requested s = .ok (task', ret) s' → ret ≠ requested →
      (task' = task ∧ Restored task.cr3 s s' ↔
        (BrkGrows task requested →
          ¬ Affordable s task.cr3 [alignUp task.brkCurrent pageSize]))) ∧
    ∀ len prot flags fd task' s',
      sysMmap task 0#64 len prot flags fd s = .ok (task', mapFailedRet) s' →
      (task' = task ∧ Restored task.cr3 s s' ↔
        (MmapAccepted task 0#64 len flags fd → ∀ pre v, (pre ++ [v]) <+: mmapTried task 0#64 len →
          Affordable s task.cr3 (pre ++ [v]) → Vacant s.mem task.cr3 v)) := by
  refine ⟨fun requested task' ret s' ran failed => ?_, fun len prot flags fd task' s' ran => ?_⟩
  · exact (sysBrk_cases tree ok top ran).restored_iff tree ok failed
  · exact (sysMmap_cases tree ok ran).restored_iff tree ok

/-- The pages from 0x50000000 on share an entry of one page directory. -/
theorem smallTask_table : ∀ v ∈ mmapTried smallUser 0#64 0x40000#64,
    [pdIdx v, pdptIdx v, pml4Idx v] = [128, 1, 0] := by
  intro v member
  have range : 0x50000000 ≤ v.toNat ∧ v.toNat < 0x50040000 := mem_pageRange member (by decide)
  simp only [List.cons.injEq, and_true, Fin.ext_iff, pdIdx, pdptIdx, pml4Idx, idxOf_shift_val]
  omega

/-- 64 pages are too many for the small machine, and all that `mmap` mapped is gone again. -/
theorem failed_growth_restores_mmap :
    ∃ task' s', sysMmap smallUser 0#64 0x40000#64 3#64 0x22#64 (-1) smallTask.mm =
        .ok (task', mapFailedRet) s' ∧ task' = smallUser ∧ Restored smallUser.cr3 smallTask.mm s' := by
  have tree := smallUser_tree.1
  have ok := smallUser_tree.2
  have directory : (pageTable smallTask.mm.mem smallUser.cr3 [1, 0]).map
      (fun pd => smallTask.mm.mem pd 128) = some 0#64 := by decide +kernel
  obtain ⟨pd, at_pd, entry⟩ := Option.map_eq_some_iff.mp directory
  have few : smallTask.mm.pmm.freeFrames < (mmapTried smallUser 0#64 0x40000#64).length := by
    decide +kernel
  obtain ⟨⟨task', ret⟩, s', ran⟩ :=
    @sysMmap_runs smallTask.mm 0x22#64 smallUser 0#64 0x40000#64 3#64 (-1) tree ok
  have outcome := sysMmap_cases tree ok ran
  have failed : ret = mapFailedRet := by
    cases outcome with
    | refused _ => rfl
    | undone _ _ => rfl
    | mapped _ progress =>
      have enough := progress.affordable.2
      omega
  subst failed
  have vacant : ∀ v ∈ mmapTried smallUser 0#64 0x40000#64,
      Vacant smallTask.mm.mem smallUser.cr3 v := by
    intro v member
    rw [vacant_iff tree, pagePath, smallTask_table v member]
    exact lookup_vacant at_pd (by rw [entry]; decide) (List.suffix_cons _ _)
  refine ⟨task', s', ran,
    ((failed_growth_restores_iff tree ok (by decide)).2 _ _ _ _ _ _ ran).mpr ?_⟩
  intro _ pre v front _
  exact vacant v (front.subset (by simp))

/-- The first page above the break of the small task can be mapped. -/
theorem smallUser_affordable :
    Affordable smallTask.mm smallUser.cr3 [0x40201000#64] := by
  have tables : (missing smallTask.mm.mem smallUser.cr3 [0x40201000#64]).card ≤ 3 := by
    refine (Finset.card_filter_le ..).trans ((List.toFinset_card_le _).trans ?_)
    exact le_refl 3
  have frames : 4 ≤ smallTask.mm.pmm.freeFrames := by decide +kernel
  have entry : (pageTable smallTask.mm.mem smallUser.cr3 [pdptIdx 0x40201000#64,
      pml4Idx 0x40201000#64]).map (fun pd => smallTask.mm.mem pd (pdIdx 0x40201000#64) &&& vmmHuge) =
        some 0#64 := by decide +kernel
  have clear : ¬ Barred smallTask.mm.mem smallUser.cr3 0x40201000#64 := by
    rintro ⟨pd, at_pd, huge⟩
    rw [at_pd, Option.map_some] at entry
    exact huge (Option.some.inj entry)
  refine ⟨List.forall_mem_singleton.mpr clear, ?_⟩
  rw [List.length_singleton]
  exact (Nat.add_le_add_right tables 1).trans frames

/-- 64 pages are too many for the small machine, and those `brk` mapped stay. -/
theorem failed_growth_stays_brk :
    PageTree smallTask.mm smallUser.cr3 ∧
    ∃ s', sysBrk smallUser 0x40241000#64 smallTask.mm = .ok (smallUser, 0x40201000#64) s' ∧
      ¬ UserMapped smallTask.mm.mem smallUser.cr3 0x40201000#64 ∧
      UserMapped s'.mem smallUser.cr3 0x40201000#64 ∧
      ¬ Restored smallUser.cr3 smallTask.mm s' := by
  have tree := smallUser_tree.1
  have ok := smallUser_tree.2
  have value : resultValue (sysBrk smallUser 0x40241000#64 smallTask.mm) =
      some (smallUser, 0x40201000#64) := by decide +kernel
  have before : ¬ UserMapped smallTask.mm.mem smallUser.cr3 0x40201000#64 := by
    unfold UserMapped
    decide +kernel
  have grows : BrkGrows smallUser 0x40241000#64 := by
    unfold BrkGrows
    decide +kernel
  have top : alignUp smallUser.brkCurrent pageSize = 0x40201000#64 := by decide
  have outcome := sysBrk_cases tree ok (by decide) (result_eq value)
  refine ⟨tree, _, result_eq value, before, ?_⟩
  generalize resultState (sysBrk smallUser 0x40241000#64 smallTask.mm) = s' at outcome
  generalize result : (smallUser, 0x40201000#64) = final at outcome
  cases outcome with
  | moved => cases result
  | refused no => exact absurd grows no
  | stuck _ split stuck =>
    obtain ⟨_, few, placed, new, rfl, laid⟩ := stuck
    cases placed with
    | nil =>
      rw [pageRange_head split, top] at few
      exact absurd smallUser_affordable few
    | cons x placed =>
      have first : x.1 = 0x40201000#64 := (pageRange_head split).trans top
      exact ⟨laid.mapped List.mem_cons_self (first ▸ rfl) (by decide),
        laid.not_restored (List.cons_ne_nil _ _)⟩

end LithiumKernel.Syscall
