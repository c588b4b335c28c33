import LithiumKernel.Mm.PageFrames
import LithiumKernel.Mm.SpaceTree
import LithiumKernel.Syscall.Munmap

/-!
# The page loops of brk and mmap

Both calls map zeroed pages one by one. The state of the loop is the list of the pages mapped so
far with their frames, and of the pages unmapped again on the way back. The pages in front can be
mapped exactly if there are frames enough for them and for the tables they need.
-/
namespace LithiumKernel.Syscall

open LithiumKernel.Lib LithiumKernel.Lib.Radix LithiumKernel.Mm

/-- The state of a loop that maps pages: `placed` are mapped to empty frames, those in `gone`
were unmapped again, and no other page is concerned. -/
structure Laid (root : Nat) (flags : Word) (s s' : MemState) (placed : List (Word × Nat))
    (gone : List Word) (new : Finset (List Idx)) : Prop where
  drawn : Drawn root s s' new (placed.map Prod.snd)
  here : ∀ x ∈ placed, lookup pageFormat s'.mem root (pagePath x.1) =
    some (3, leafEntry (frameAddr x.2) flags)
  cleared : ∀ v ∈ gone, lookup pageFormat s'.mem root (pagePath v) = none
  others : ∀ q : List Idx, q.length = 4 → (∀ x ∈ placed, q ≠ pagePath x.1) →
    (∀ v ∈ gone, q ≠ pagePath v) → lookup pageFormat s'.mem root q = lookup pageFormat s.mem root q

variable {s s₀ s' : MemState} {root : Nat} {flags v : Word} {placed : List (Word × Nat)}
  {gone : List Word} {new : Finset (List Idx)} {halt : Kassert → MemState → Prop}

theorem Laid.refl (tree : PageTree s root) (ok : s.pmm.Ok) (flags : Word) :
    Laid root flags s s [] [] ∅ :=
  ⟨.refl tree ok, nofun, nofun, fun _ _ _ _ => rfl⟩

/-- A step that no lookup notices. -/
theorem Laid.quiet {new' : Finset (List Idx)} (h : Laid root flags s₀ s placed gone new)
    (drawn : Drawn root s₀ s' new' (placed.map Prod.snd)) (quiet : Unnoticed root s s') :
    Laid root flags s₀ s' placed gone new' where
  drawn := drawn
  here x member := (quiet.pages _ rfl).trans (h.here x member)
  cleared v member := (quiet.pages _ rfl).trans (h.cleared v member)
  others q length off off' := (quiet.pages q length).trans (h.others q length off off')

/-- The pages can all be mapped: no 2 MiB page is in the way, and there is a frame for each page
and for each table that is missing. -/
def Affordable (s : MemState) (root : Nat) (pages : List Word) : Prop :=
  (∀ v ∈ pages, ¬ Barred s.mem root v) ∧
    (missing s.mem root pages).card + pages.length ≤ s.pmm.freeFrames

theorem Affordable.take {pages more : List Word} (h : Affordable s root (pages ++ more)) :
    Affordable s root pages := by
  obtain ⟨clear, enough⟩ := h
  refine ⟨fun v member => clear v (List.mem_append_left _ member), ?_⟩
  have fewer := card_missing_le s.mem root pages more
  rw [List.length_append] at enough
  omega

/-- The pages `done` are mapped and nothing else has happened. -/
def Progress (root : Nat) (flags : Word) (s₀ : MemState) (done : List Word) (s : MemState) : Prop :=
  ∃ placed, placed.map Prod.fst = done ∧ (∀ v ∈ done, ¬ Barred s₀.mem root v) ∧
    Laid root flags s₀ s placed [] (missing s₀.mem root done)

/-- The pages `done` are mapped, and the next could not be. -/
def Stuck (root : Nat) (flags : Word) (s₀ : MemState) (done : List Word) (v : Word)
    (s : MemState) : Prop :=
  Affordable s₀ root done ∧ ¬ Affordable s₀ root (done ++ [v]) ∧
    ∃ placed new, placed.map Prod.fst = done ∧ Laid root flags s₀ s placed [] new

theorem Progress.affordable {done : List Word} (h : Progress root flags s₀ done s) :
    Affordable s₀ root done := by
  obtain ⟨placed, rfl, clear, laid⟩ := h
  have count := laid.drawn.left
  rw [List.length_map] at count
  refine ⟨clear, ?_⟩
  rw [List.length_map]
  omega

/-- One turn of the loop. -/
theorem mapUserZeroPage_progress {done : List Word} (h : Progress root flags s₀ done s)
    (off : ∀ w ∈ done, pagePath w ≠ pagePath v) :
    wp (mapUserZeroPage root v flags) (fun mapped s' =>
      if mapped then Progress root flags s₀ (done ++ [v]) s' else Stuck root flags s₀ done v s')
      halt s := by
  have affordable := h.affordable
  obtain ⟨placed, rfl, clear, laid⟩ := h
  have count := laid.drawn.left
  rw [List.length_map] at count
  unfold mapUserZeroPage
  rw [wp_bind, wp_allocFrame]
  rcases pmmAllocFrame_cases s.pmm with ⟨f, run, lt, free⟩ | run
  · rw [run]
    have small : f < 2 ^ 40 := lt_of_lt_of_le lt (laid.drawn.tree.total.trans (by decide))
    dsimp only
    rw [wp_bind, wp_zeroFrame, frameOf_frameAddr small]
    obtain ⟨drawn₁, quiet₁⟩ := laid.drawn.data lt free
    have looked : wp (vmmMapPage root v (frameAddr f) flags) _ halt _ :=
      vmmMapPage_lookup drawn₁.tree v (frameAddr f) flags
    unfold mapOrFree
    refine wp_seq (wp_and (vmmMapPage_drawn v (frameAddr f) flags drawn₁) looked) ?_
    rw [← missing_append]
    rintro (_ | _) s₂ ⟨drawn₂, written⟩
    · -- the table is as it was, and the frame goes back
      have short : ¬ Affordable s₀ root (placed.map Prod.fst ++ [v]) ∧
          ∃ new', Drawn root s₀ s₂ new' (placed.map Prod.snd ++ [f]) := by
        rcases drawn₂ with ⟨barred, drawn⟩ | ⟨empty, new', drawn, fewer⟩
        · exact ⟨fun h => h.1 v (by simp) barred, drawn⟩
        · refine ⟨fun h => ?_, new', drawn⟩
          have left := drawn.left
          have card := Finset.card_lt_card fewer
          have enough := h.2
          simp only [List.length_append, List.length_map, List.length_singleton] at left enough
          omega
      obtain ⟨few, new', drawn⟩ := short
      refine wp_seq (freeFrame_drawn drawn (List.perm_append_singleton f _)) ?_
      rintro _ s₃ ⟨drawn₃, quiet₃⟩
      exact ⟨affordable, few, placed, new', rfl,
        laid.quiet drawn₃ ((quiet₁.trans written).trans quiet₃)⟩
    · obtain ⟨drawn, free_⟩ := drawn₂
      refine ⟨placed ++ [(v, f)], by simp, ?_, ?_⟩
      · intro w member
        rcases List.mem_append.mp member with old | last
        · exact clear w old
        · exact List.mem_singleton.mp last ▸ free_
      · have kept := written.after quiet₁
        refine ⟨by simpa using drawn, ?_, nofun, ?_⟩
        · intro x member
          rcases List.mem_append.mp member with old | last
          · rw [kept.others _ rfl (off x.1 (List.mem_map_of_mem old))]
            exact laid.here x old
          · obtain rfl := List.mem_singleton.mp last
            rw [kept.here, if_pos (leafEntry_present _ flags)]
        · intro q length off' _
          rw [kept.others q length (off' (v, f) (by simp))]
          exact laid.others q length (fun x old => off' x (List.mem_append_left _ old)) nofun
  · rw [run]
    have empty : s.pmm.freeFrames = 0 := by
      by_contra left
      exact pmmAllocFrame_isSome laid.drawn.ok left (by rw [run])
    refine ⟨affordable, fun h => ?_, placed, _, rfl, laid⟩
    have enough := h.2
    have more := card_missing_le s₀.mem root (placed.map Prod.fst) [v]
    simp only [List.length_append, List.length_map, List.length_singleton] at enough
    omega

/-- What the two lookups find in a page that is mapped. -/
theorem Laid.reads (h : Laid root flags s₀ s placed gone new) {x : Word × Nat} (member : x ∈ placed)
    {w : Word} (page : pagePath w = pagePath x.1) :
    vmmGetPhysical s.mem root w =
      some ((leafEntry (frameAddr x.2) flags &&& vmmPhysMask) ||| (w &&& 0xFFF#64)) ∧
    vmmGetFlags s.mem root w = leafEntry (frameAddr x.2) flags &&& ~~~vmmPhysMask := by
  rw [(h.drawn.tree.reads w).1, (h.drawn.tree.reads w).2, page, h.here x member]
  exact ⟨rfl, rfl⟩

theorem Laid.mapped (h : Laid root flags s₀ s placed gone new) {x : Word × Nat} (member : x ∈ placed)
    {w : Word} (page : pagePath w = pagePath x.1) (user : flags &&& vmmUser ≠ 0#64) :
    UserMapped s.mem root w := by
  rw [ne_eq, and_user, Bool.not_eq_false] at user
  rw [UserMapped, (h.reads member page).2, and_presentUser, and_not_physMask_low _ (by decide),
    and_not_physMask_low _ (by decide), leafEntry_low _ _ (by decide),
    leafEntry_low _ _ (by decide), user]
  simp

/-- One turn of the way back. -/
theorem unmapUserPage_laid {f : Nat} (h : Laid root flags s₀ s ((v, f) :: placed) gone new)
    (user : flags &&& vmmUser ≠ 0#64) (off : ∀ x ∈ placed, pagePath x.1 ≠ pagePath v)
    (off' : ∀ w ∈ gone, pagePath w ≠ pagePath v) :
    wp (unmapUserPage root v) (fun _ s' => Laid root flags s₀ s' placed (gone ++ [v]) new)
      halt s := by
  have tree := h.drawn.tree
  have found := h.here (v, f) (by simp)
  have held := h.drawn.held f (by simp)
  have small : f < 2 ^ 40 := lt_of_lt_of_le held.lt (tree.total.trans (by decide))
  have mapped := h.mapped (x := (v, f)) (by simp) rfl user
  rw [UserMapped] at mapped
  have plain : ¬ CoveredByHuge s.mem root v := by
    rw [coveredByHuge_iff, found]
    rintro ⟨e, ⟨⟩⟩
  unfold unmapUserPage
  rw [wp_bind, wp_get, if_neg (not_not_intro mapped), (h.reads (x := (v, f)) (by simp) rfl).1]
  have looked : wp (vmmUnmapPage root v) _ halt s := vmmUnmapPage_lookup tree plain
  refine wp_seq (wp_and (vmmUnmapPage_drawn v h.drawn) looked) ?_
  rintro _ s₁ ⟨drawn₁, written⟩
  dsimp only
  rw [alignDown_phys, leafEntry_frame small]
  refine wp_imp (freeFrame_drawn drawn₁ (List.Perm.refl _)) ?_
  rintro _ s₂ ⟨drawn₂, quiet⟩
  refine ⟨drawn₂, ?_, ?_, ?_⟩
  · intro x member
    rw [quiet.pages _ rfl, written.others _ rfl (off x member)]
    exact h.here x (.tail _ member)
  · intro w member
    rw [quiet.pages _ rfl]
    rcases List.mem_append.mp member with old | last
    · rw [written.others _ rfl (off' w old)]
      exact h.cleared w old
    · rw [List.mem_singleton.mp last, written.here, if_neg (by decide)]
  · intro q length outside outside'
    have here : q ≠ pagePath v := outside' v (by simp)
    rw [quiet.pages q length, written.others q length here]
    refine h.others q length ?_ fun w old => outside' w (List.mem_append_left _ old)
    rintro x (_ | ⟨_, member⟩)
    · exact here
    · exact outside x member

/-- The way back: every page that was mapped is unmapped, and its frame is free again. -/
theorem unmapPages_laid (user : flags &&& vmmUser ≠ 0#64) : ∀ {placed : List (Word × Nat)}
    {gone : List Word} {s : MemState}, Laid root flags s₀ s placed gone new →
    ((gone ++ placed.map Prod.fst).map pagePath).Nodup →
    wp (forM (placed.map Prod.fst) (unmapUserPage root))
      (fun _ s' => Laid root flags s₀ s' [] (gone ++ placed.map Prod.fst) new) halt s
  | [], gone, s, h, _ => by
    rw [List.map_nil, List.append_nil]
    exact h
  | (v, f) :: placed, gone, s, h, nodup => by
    have split : gone ++ ((v, f) :: placed).map Prod.fst = (gone ++ [v]) ++ placed.map Prod.fst := by
      simp
    have order := nodup
    rw [List.map_append, List.map_cons, List.map_cons] at order
    obtain ⟨_, inner, apart⟩ := List.nodup_append.mp order
    have before : ∀ w ∈ gone, pagePath w ≠ pagePath v := fun w member =>
      apart _ (List.mem_map_of_mem member) _ List.mem_cons_self
    have after : ∀ x ∈ placed, pagePath x.1 ≠ pagePath v := by
      intro x member same
      refine (List.nodup_cons.mp inner).1 (List.mem_map.mpr ⟨x.1, ?_, same⟩)
      exact List.mem_map_of_mem member
    rw [split] at nodup ⊢
    rw [List.map_cons]
    refine wp_seq (unmapUserPage_laid h user after before) ?_
    intro _ s₁ next
    exact unmapPages_laid user next nodup

/-- The pages `done` were mapped and are unmapped again, since the next could not be mapped. -/
def TakenBack (root : Nat) (flags : Word) (s₀ : MemState) (pages : List Word) (s : MemState) : Prop :=
  ∃ done v rest new, pages = done ++ v :: rest ∧ Affordable s₀ root done ∧
    ¬ Affordable s₀ root (done ++ [v]) ∧ Laid root flags s₀ s [] done new

theorem paths_apart {done rest : List Word} (nodup : ((done ++ v :: rest).map pagePath).Nodup) :
    ∀ w ∈ done, pagePath w ≠ pagePath v := by
  rw [List.map_append, List.map_cons] at nodup
  intro w member
  exact (List.nodup_append.mp nodup).2.2 _ (List.mem_map_of_mem member) _ List.mem_cons_self

/-- The loop of `sys_mmap_impl`. -/
theorem mmapPages_laid {pages : List Word} (user : flags &&& vmmUser ≠ 0#64)
    (nodup : (pages.map pagePath).Nodup) : ∀ {rest done : List Word} {s : MemState},
    pages = done ++ rest → Progress root flags s₀ done s →
    wp (mmapPages root flags done rest) (fun mapped s' =>
      if mapped then Progress root flags s₀ pages s' else TakenBack root flags s₀ pages s') halt s
  | [], done, s, split, h => by
    rw [List.append_nil] at split
    rw [mmapPages, wp_pure, split]
    exact h
  | v :: rest, done, s, split, h => by
    rw [mmapPages]
    refine wp_seq (mapUserZeroPage_progress h (paths_apart (split ▸ nodup))) ?_
    rintro (_ | _) s₁ after
    · obtain ⟨enough, few, placed, new, rfl, laid⟩ := after
      have order : (([] ++ placed.map Prod.fst).map pagePath).Nodup := by
        rw [split, List.map_append] at nodup
        exact nodup.of_append_left
      refine wp_seq (unmapPages_laid user laid order) ?_
      intro _ s₂ back
      exact ⟨_, v, rest, new, split, enough, few, back⟩
    · exact mmapPages_laid user nodup (by simp [split]) after

/-- The loop of `sys_brk_impl`. -/
theorem mapPages_laid {pages : List Word} (nodup : (pages.map pagePath).Nodup)
    (tree : PageTree s root) (ok : s.pmm.Ok) :
    wp (pages.allM fun page => mapUserZeroPage root page flags) (fun mapped s' =>
      if mapped then Progress root flags s pages s'
      else ∃ done v rest, pages = done ++ v :: rest ∧ Stuck root flags s done v s') halt s := by
  refine wp_allM (Progress root flags s) _ pages ?_ ⟨[], rfl, nofun, .refl tree ok flags⟩
  intro done v rest s₁ split h
  refine wp_imp (mapUserZeroPage_progress h (paths_apart (split ▸ nodup))) ?_
  rintro (_ | _) s₂ after
  · exact ⟨done, v, rest, split, after⟩
  · exact after

/-! ## mmap -/

def mmapBase (task : UserTask) (addr : Word) : Word :=
  if addr ≠ 0#64 then alignDown addr pageSize else task.mmapNext

/-- The checks of `sys_mmap_impl` pass. -/
def MmapAccepted (task : UserTask) (addr len flags : Word) (fd : Int) : Prop :=
  len ≠ 0#64 ∧ ¬ (flags &&& mapAnonymous = 0#64 ∨ flags &&& mapPrivate = 0#64 ∨ fd ≠ -1) ∧
    ¬ (mmapBase task addr = 0#64 ∨ userSpaceTop ≤ mmapBase task addr ∨
      userSpaceTop - mmapBase task addr < alignUp len pageSize)

/-- The pages that a call of `sys_mmap_impl` tries to map. -/
def mmapTried (task : UserTask) (addr len : Word) : List Word :=
  pageRange (mmapBase task addr) (mmapBase task addr + alignUp len pageSize)

variable {task : UserTask} {addr len prot : Word} {fd : Int}

theorem MmapAccepted.range (h : MmapAccepted task addr len flags fd) :
    (mmapBase task addr).toNat < 2 ^ 47 ∧
    (mmapBase task addr + alignUp len pageSize).toNat =
      (mmapBase task addr).toNat + (alignUp len pageSize).toNat ∧
    (mmapBase task addr).toNat + (alignUp len pageSize).toNat ≤ 2 ^ 47 := by
  obtain ⟨_, _, inside⟩ := h
  simp only [not_or, BitVec.not_lt, BitVec.not_le] at inside
  obtain ⟨_, below, room⟩ := inside
  rw [lt_userSpaceTop] at below
  rw [BitVec.le_def, BitVec.toNat_sub, userSpaceTop_toNat] at room
  refine ⟨below, ?_, by omega⟩
  rw [BitVec.toNat_add]
  omega

/-- Pages of one range have different paths. -/
theorem nodup_range_paths {first stop : Word} (top : stop.toNat ≤ 2 ^ 47) :
    ((pageRange first stop).map pagePath).Nodup := by
  have apart : ((pageRange first stop).map fun v => v.toNat / 4096).Nodup := by
    rw [pageRange, List.map_map]
    refine List.Nodup.map_on ?_ List.nodup_range
    intro i before j before' same
    have lt := List.mem_range.mp before
    have lt' := List.mem_range.mp before'
    simp only [Function.comp_apply, BitVec.toNat_add, BitVec.toNat_ofNat] at same
    omega
  refine List.Nodup.map_on ?_ (nodup_pageRange (by omega))
  intro v here w there same
  have below := lt_userSpaceTop.mpr (lt_of_lt_of_le (mem_pageRange here (by omega)).2 top)
  have below' := lt_userSpaceTop.mpr (lt_of_lt_of_le (mem_pageRange there (by omega)).2 top)
  exact List.inj_on_of_nodup_map apart here there ((pagePath_user below below').mp same)

/-- A call of `sys_mmap_impl` is refused, or maps all its pages, or takes back those it mapped. -/
inductive MmapOutcome (task : UserTask) (addr len prot flags : Word) (fd : Int) (s : MemState) :
    UserTask × Int → MemState → Prop
  | refused (checks : ¬ MmapAccepted task addr len flags fd) :
    MmapOutcome task addr len prot flags fd s (task, mapFailedRet) s
  | mapped {task' : UserTask} {s' : MemState} (checks : MmapAccepted task addr len flags fd)
    (progress : Progress task.cr3 (mmapFlags prot) s (mmapTried task addr len) s') :
    MmapOutcome task addr len prot flags fd s (task', (mmapBase task addr).toNat) s'
  | undone {s' : MemState} (checks : MmapAccepted task addr len flags fd)
    (undone : TakenBack task.cr3 (mmapFlags prot) s (mmapTried task addr len) s') :
    MmapOutcome task addr len prot flags fd s (task, mapFailedRet) s'

theorem sysMmap_outcome (tree : PageTree s task.cr3) (ok : s.pmm.Ok) :
    wp (sysMmap task addr len prot flags fd) (MmapOutcome task addr len prot flags fd s) halt s := by
  unfold sysMmap
  apply wp_ite
  · intro empty
    exact .refused fun h => h.1 empty
  intro nonempty
  apply wp_ite
  · intro kind
    exact .refused fun h => h.2.1 kind
  intro kind
  change wp (if mmapBase task addr = 0#64 ∨ _ ∨ _ then _ else _) _ _ _
  apply wp_ite
  · intro outside
    exact .refused fun h => h.2.2 outside
  intro inside
  have checks : MmapAccepted task addr len flags fd := ⟨nonempty, kind, inside⟩
  obtain ⟨_, stop, top⟩ := checks.range
  refine wp_seq (mmapPages_laid (mmapFlags_user prot) (nodup_range_paths (stop ▸ top)) rfl
    ⟨[], rfl, nofun, .refl tree ok _⟩) ?_
  rintro (_ | _) s₁ after
  · exact .undone checks after
  · rw [if_pos rfl]
    apply wp_ite
    · intro _
      exact .mapped checks after
    · intro _
      exact .mapped checks after

theorem sysMmap_runs (tree : PageTree s task.cr3) (ok : s.pmm.Ok) :
    ∃ result s', sysMmap task addr len prot flags fd s = .ok result s' := by
  obtain ⟨result, s', ran, _⟩ := exists_run (sysMmap_outcome tree ok)
  exact ⟨result, s', ran⟩

theorem sysMmap_cases (tree : PageTree s task.cr3) (ok : s.pmm.Ok) {result : UserTask × Int}
    (ran : sysMmap task addr len prot flags fd s = .ok result s') :
    MmapOutcome task addr len prot flags fd s result s' := by
  have outcome : wp (sysMmap task addr len prot flags fd) _ (fun _ _ => False) s :=
    sysMmap_outcome tree ok
  rwa [wp_run ran] at outcome

/-- What `mmap` promises of the pages it returns. -/
structure MmapPost (mem : PhysMem) (root : Nat) (len prot : Word) (base : Int) : Prop where
  aligned : base % 4096 = 0
  inside : 0 ≤ base ∧ base + len.toNat ≤ 2 ^ 47
  zeroed : ∀ w : Word, base ≤ w.toNat → w.toNat < base + len.toNat →
    UserMapped mem root w ∧ userLoad mem root w = some 0#8 ∧
    (vmmGetFlags mem root w &&& vmmWrite ≠ 0#64 ↔ prot &&& protWrite ≠ 0#64) ∧
    (vmmGetFlags mem root w &&& vmmNx ≠ 0#64 ↔ prot &&& protExec = 0#64)

theorem mmapFlags_bits (prot : Word) :
    ((mmapFlags prot &&& ~~~vmmPhysMask ||| vmmPresent) &&& vmmWrite ≠ 0#64 ↔
      prot &&& protWrite ≠ 0#64) ∧
    ((mmapFlags prot &&& ~~~vmmPhysMask ||| vmmPresent) &&& vmmNx ≠ 0#64 ↔
      prot &&& protExec = 0#64) := by
  unfold mmapFlags
  split <;> split <;> simp_all <;> decide

/-- A page that was laid reads as zeros. -/
theorem Laid.load (h : Laid root flags s₀ s placed gone new) {x : Word × Nat}
    (member : x ∈ placed) {w : Word} (page : pagePath w = pagePath x.1)
    (user : flags &&& vmmUser ≠ 0#64) : userLoad s.mem root w = some 0#8 := by
  have frame : x.2 ∈ placed.map Prod.snd := List.mem_map_of_mem member
  have held := h.drawn.held x.2 frame
  have small : x.2 < 2 ^ 40 := lt_of_lt_of_le held.lt (h.drawn.tree.total.trans (by decide))
  have mapped := h.mapped member page user
  rw [UserMapped] at mapped
  rw [userLoad, if_pos mapped, (h.reads member page).1, Option.map_some, Mm.phys_frame,
    leafEntry_frame small, h.drawn.zero x.2 frame, getByte_blank]

theorem Progress.post (checks : MmapAccepted task addr len flags fd)
    (aligned : (mmapBase task addr).toNat % 4096 = 0) (short : len.toNat ≤ 2 ^ 64 - 4096)
    (h : Progress task.cr3 (mmapFlags prot) s (mmapTried task addr len) s') :
    MmapPost s'.mem task.cr3 len prot (mmapBase task addr).toNat := by
  obtain ⟨below, stop, top⟩ := checks.range
  obtain ⟨placed, pages, _, laid⟩ := h
  have size := alignUp_page_toNat len
  refine ⟨by omega, by omega, ?_⟩
  intro w low high
  have member : alignDown w pageSize ∈ mmapTried task addr len := by
    have down := alignDown_page_toNat w
    rw [mmapTried, mem_pageRange_iff aligned (by omega), stop]
    omega
  rw [← pages] at member
  obtain ⟨x, placed_, page⟩ := List.mem_map.mp member
  have path : pagePath w = pagePath x.1 := by rw [page, pagePath_alignDown]
  have user := mmapFlags_user prot
  obtain ⟨write, exec⟩ := mmapFlags_bits prot
  rw [(laid.reads placed_ path).2, leafEntry_flags]
  exact ⟨laid.mapped placed_ path user, laid.load placed_ path user, write, exec⟩

/-- **`mmap` maps what it returns, unless the length wraps.** In a task with well-formed page
tables and a page-aligned `mmap_next`, whenever `sys_mmap_impl` returns a base, that base is page
aligned, the range lies in user space, and every byte of it is on a user page, reads zero and has
the protection asked for, exactly if the length is at most 2^64 - 4096. A greater length is
rounded up to 0: the call then returns its base with nothing mapped. -/
theorem mmap_returns_mapped_range_iff (tree : PageTree s task.cr3) (ok : s.pmm.Ok)
    (aligned : task.mmapNext.toNat % 4096 = 0) {base : Int} {task' : UserTask}
    (ran : sysMmap task addr len prot flags fd s = .ok (task', base) s')
    (returned : base ≠ mapFailedRet) :
    MmapPost s'.mem task.cr3 len prot base ↔ len.toNat ≤ 2 ^ 64 - 4096 := by
  have start : (mmapBase task addr).toNat % 4096 = 0 := by
    rw [mmapBase]
    split
    · have down := alignDown_page_toNat addr
      omega
    · exact aligned
  constructor
  · intro post
    have inside := post.inside
    omega
  · intro short
    cases sysMmap_cases tree ok ran with
    | refused _ => exact absurd rfl returned
    | undone _ _ => exact absurd rfl returned
    | mapped checks progress => exact progress.post checks start short

theorem smallTask_unused : smallTables.Unused smallTask.mm.mem := by
  unfold KernelTables.Unused
  decide +kernel

theorem smallUser_tree : PageTree smallTask.mm smallUser.cr3 ∧ smallTask.mm.pmm.Ok := by
  obtain ⟨roots, ⟨_, g, system⟩, root, _⟩ := smallUser_sound
  exact ⟨system.pageTree root smallTask_unused, system.vm.ok⟩

/-- Two pages, readable and writable. -/
theorem mmap_returns_mapped_range_small :
    ∃ task' s', sysMmap smallUser 0#64 0x1001#64 3#64 0x22#64 (-1) smallTask.mm =
        .ok (task', 0x50000000) s' ∧ MmapPost s'.mem smallUser.cr3 0x1001#64 3#64 0x50000000 := by
  have value : (resultValue (sysMmap smallUser 0#64 0x1001#64 3#64 0x22#64 (-1)
      smallTask.mm)).map Prod.snd = some 0x50000000 := by decide +kernel
  obtain ⟨⟨task', _⟩, found, rfl⟩ := Option.map_eq_some_iff.mp value
  have ran := result_eq found
  refine ⟨task', _, ran, ?_⟩
  exact (mmap_returns_mapped_range_iff smallUser_tree.1 smallUser_tree.2 (by decide) ran
    (by decide)).mpr (by decide)

/-- The greatest length is rounded up to 0: the base is returned with nothing mapped there. -/
theorem mmap_greatest_length_small :
    PageTree smallTask.mm smallUser.cr3 ∧
    ∃ task' s', sysMmap smallUser 0#64 0xFFFFFFFFFFFFFFFF#64 3#64 0x22#64 (-1) smallTask.mm =
        .ok (task', 0x50000000) s' ∧ ¬ UserMapped s'.mem smallUser.cr3 0x50000000#64 ∧
      ¬ MmapPost s'.mem smallUser.cr3 0xFFFFFFFFFFFFFFFF#64 3#64 0x50000000 := by
  have value : (resultValue (sysMmap smallUser 0#64 0xFFFFFFFFFFFFFFFF#64 3#64 0x22#64 (-1)
      smallTask.mm)).map Prod.snd = some 0x50000000 := by decide +kernel
  obtain ⟨⟨task', _⟩, found, rfl⟩ := Option.map_eq_some_iff.mp value
  refine ⟨smallUser_tree.1, task', _, result_eq found, ?_, ?_⟩
  · unfold UserMapped
    decide +kernel
  · intro post
    have inside := post.inside.2
    exact absurd inside (by decide)

end LithiumKernel.Syscall
