import LithiumKernel.Mm.FrameAccounting
import LithiumKernel.Syscall.KernelWindow

/-!
# Growth of the user memory

`sys_brk_impl` and `sys_mmap_impl` without a hint choose the pages they map from two limits of
the task and do not look at the page table, and `vmm_map_page` replaces a leaf without a word.
So a call that succeeds leaves the pages of the task alone exactly if none of the pages it
maps was there: `Added` says what the mapping loop has done to the leaves of the space, and
`Added.keeps_iff` reads both directions off it.
-/
namespace LithiumKernel.Syscall

open LithiumKernel.Lib LithiumKernel.Mm LithiumKernel.Proc

/-- The page of `v` has its frame, its flags and its contents. -/
structure PageKept (s s' : MemState) (root : Nat) (v : Word) : Prop where
  frame : vmmGetPhysical s'.mem root v = vmmGetPhysical s.mem root v
  flags : vmmGetFlags s'.mem root v = vmmGetFlags s.mem root v
  contents : ∀ phys, vmmGetPhysical s.mem root v = some phys →
    s'.mem (frameOf phys) = s.mem (frameOf phys)

/-- Every user page that was mapped is kept, so whatever is new is where nothing was. -/
def KeepsPages (s s' : MemState) (root : Nat) : Prop :=
  ∀ v, v < userSpaceTop → UserMapped s.mem root v → PageKept s s' root v

/-- None of the pages is present. -/
def Unused (mem : PhysMem) (root : Nat) (pages : List Word) : Prop :=
  ∀ page ∈ pages, vmmGetFlags mem root page &&& vmmPresent = 0#64

/-- The pages `brk` maps when it grows to `requested`. -/
def brkPages (task : UserTask) (requested : Word) : List Word :=
  pageRange (alignUp task.brkCurrent pageSize) (alignUp requested pageSize)

/-- The pages `mmap` of `len` bytes maps when it may choose. -/
def mmapRange (task : UserTask) (len : Word) : List Word :=
  pageRange task.mmapNext (task.mmapNext + alignUp len pageSize)

variable {K : KernelTables} {roots : List Nat} {s s' : MemState} {g g' : SpaceGhost} {r : Nat}

/-! ## The mapping loop -/

/-- Pages have been mapped in the space `r`: their leaves name frames that were free, all
other leaves are as they were. -/
structure Added (K : KernelTables) (roots : List Nat) (r : Nat) (s : MemState) (g : SpaceGhost)
    (pages : List Word) (s' : MemState) (g' : SpaceGhost) : Prop where
  system : System K roots s' g'
  grow : Grow s g s' g'
  user : ∀ v ∈ pages, UserPage v
  others : ∀ q, q ∉ pages.map pagePath → g'.leaf (.user r, q) = g.leaf (.user r, q)
  fresh : ∀ v ∈ pages, g'.leaf (.user r, pagePath v) ≠ 0#64 ∧
    s.pmm.refcount (frameOf (g'.leaf (.user r, pagePath v))) = 0

theorem Added.nil (h : System K roots s g) : Added K roots r s g [] s g where
  system := h
  grow := .refl h.vm.ok rfl
  user := by simp
  others _ _ := rfl
  fresh := by simp

/-- What is free later was free before. -/
theorem Grow.free_before {k : Nat} (grow : Grow s g s' g') (vm : Vm k s' g') {f : Nat}
    (zero : s'.pmm.refcount f = 0) : s.pmm.refcount f = 0 := by
  by_contra used
  cases role : g.role f with
  | none =>
    have more := (grow.data role (Nat.pos_of_ne_zero used)).2.1
    omega
  | some x =>
    have one := vm.wf.rc_table (grow.tables role)
    omega

theorem Added.snoc {pages : List Word} {s₁ : MemState} {g₁ : SpaceGhost} {v flags : Word}
    (before : Added K roots r s g pages s₁ g₁) (page : UserPage v)
    (result : FreshResult K.pdptHh s₁ g₁ (.user r, pagePath v) flags blankPage true s' g') :
    Added K roots r s g (pages ++ [v]) s' g' := by
  obtain ⟨f, lt, zero, _, leaf, _⟩ := result.effect
  have here : g'.leaf (.user r, pagePath v) = leafEntry (frameAddr f) flags := by
    rw [leaf, Function.update_self]
  have elsewhere : ∀ {q}, q ≠ pagePath v → g'.leaf (.user r, q) = g₁.leaf (.user r, q) := by
    intro q ne
    rw [leaf, Function.update_of_ne]
    exact fun same => ne (Prod.mk.inj same).2
  refine ⟨before.system.keep result.toGrow.keep (before.system.toSpaces.fresh result),
    before.grow.trans result.toGrow, ?_, ?_, ?_⟩
  · intro w member
    rcases List.mem_append.mp member with old | new
    · exact before.user w old
    · rwa [List.mem_singleton.mp new]
  · intro q off
    rw [List.map_append, List.mem_append, not_or] at off
    rw [elsewhere (fun same => off.2 (by simp [same])), before.others q off.1]
  · intro w member
    by_cases again : pagePath w = pagePath v
    · rw [again, here, leafEntry_frame (before.system.vm.frame_small lt)]
      refine ⟨ne_zero_of_bit (k := 0) ?_, Grow.free_before before.grow before.system.vm zero⟩
      rw [leafEntry_low f flags (by decide)]
      simp
    · rw [elsewhere again]
      refine before.fresh w ((List.mem_append.mp member).resolve_right ?_)
      intro new
      exact again (by rw [List.mem_singleton.mp new])

/-- A page of the user's half is mapped: in the window that fails. -/
theorem Added.page {pages : List Word} {s₁ : MemState} {g₁ : SpaceGhost} {v flags : Word}
    (before : Added K roots r s g pages s₁ g₁) (root : r ∈ roots) (low : 2 ^ 21 ≤ v.toNat)
    (below : v < userSpaceTop) (user : flags &&& vmmUser ≠ 0#64) :
    wp (mapUserZeroPage r v flags) (fun done s' =>
      if done then ∃ g', Added K roots r s g (pages ++ [v]) s' g' else True) Saturated s₁ := by
  have sys := before.system
  rcases userPage_or_window below with page | inside
  · have bit : flags.getLsbD 2 = true := by
      rwa [ne_eq, and_user, Bool.not_eq_false] at user
    refine wp_imp (mapUserZeroPage_spec sys.vm ((sys.live r).mpr root) page bit) ?_
    rintro (_ | _) s₂ ⟨g₂, result⟩
    · exact trivial
    · exact ⟨g₂, before.snoc page result⟩
  · refine wp_imp (mapUserZeroPage_huge sys.toSpaces root inside (pdIdx_ne_zero low below inside)
      user) ?_
    rintro _ s₂ ⟨rfl, _⟩
    exact trivial

theorem mapPages_added (h : System K roots s g) (root : r ∈ roots) {pages : List Word}
    {flags : Word} (range : ∀ v ∈ pages, 2 ^ 21 ≤ v.toNat ∧ v < userSpaceTop)
    (user : flags &&& vmmUser ≠ 0#64) :
    wp (pages.allM fun page => mapUserZeroPage r page flags) (fun done s' =>
      if done then ∃ g', Added K roots r s g pages s' g' else True) Saturated s := by
  refine wp_allM (fun done s₁ => ∃ g₁, Added K roots r s g done s₁ g₁) (fun _ => True) pages ?_
    ⟨g, .nil h⟩
  rintro done v rest s₁ split ⟨g₁, before⟩
  obtain ⟨low, below⟩ := range v (by simp [split])
  exact before.page root low below user

/-! ## What the loop keeps -/

section Kept

variable {pages : List Word}

theorem UserMapped.filled (h : System K roots s g) (root : r ∈ roots) {v : Word} (page : UserPage v)
    (mapped : UserMapped s.mem r v) : g.leaf (.user r, pagePath v) ≠ 0#64 := by
  intro empty
  rw [UserMapped, vmmGetFlags_user h.vm ((h.live r).mpr root) page, empty] at mapped
  exact absurd mapped (by decide)

/-- Whatever is present in the user's part of a space is a user page. -/
theorem userMapped_of_present (h : System K roots s g) (root : r ∈ roots) {v : Word}
    (page : UserPage v) (present : vmmGetFlags s.mem r v &&& vmmPresent ≠ 0#64) :
    UserMapped s.mem r v := by
  have flags := vmmGetFlags_user h.vm ((h.live r).mpr root) page
  have filled : g.leaf (.user r, pagePath v) ≠ 0#64 := by
    intro empty
    rw [flags, empty] at present
    exact present (by decide)
  rw [UserMapped, flags, and_presentUser, and_not_physMask_low _ (by decide),
    and_not_physMask_low _ (by decide)]
  exact leafOk_user_iff.mp (h.vm.leaf_facts filled).1

theorem phys_frame (e v : Word) : frameOf ((e &&& vmmPhysMask) ||| (v &&& 0xFFF#64)) = frameOf e := by
  have outside : v &&& 0xFFF#64 &&& vmmPhysMask = 0#64 := by
    rw [BitVec.and_assoc, show 0xFFF#64 &&& vmmPhysMask = 0#64 from by decide, BitVec.and_zero]
  rw [frameOf_or_flags _ outside, frameOf, frameOf, BitVec.and_assoc, BitVec.and_self]

theorem Added.kept (added : Added K roots r s g pages s' g') (h : System K roots s g)
    (root : r ∈ roots) {v : Word} (page : UserPage v) (mapped : UserMapped s.mem r v)
    (off : pagePath v ∉ pages.map pagePath) : PageKept s s' r v := by
  have same := added.others _ off
  have filled := mapped.filled h root page
  have live := (h.live r).mpr root
  have live' := (added.system.live r).mpr root
  refine ⟨?_, ?_, ?_⟩
  · rw [vmmGetPhysical_user h.vm live page, vmmGetPhysical_user added.system.vm live' page, same]
  · rw [vmmGetFlags_user h.vm live page, vmmGetFlags_user added.system.vm live' page, same]
  · intro phys there
    rw [vmmGetPhysical_user h.vm live page, if_neg filled] at there
    obtain rfl := Option.some.inj there
    rw [phys_frame]
    obtain ⟨_, _, data, used⟩ := h.vm.leaf_facts filled
    exact (added.grow.data data used).2.2

/-- A page that was mapped over has lost its frame. -/
theorem Added.lost (added : Added K roots r s g pages s' g') (h : System K roots s g)
    (root : r ∈ roots) {v : Word} (member : v ∈ pages) (mapped : UserMapped s.mem r v) :
    ¬ PageKept s s' r v := by
  have page := added.user v member
  have filled := mapped.filled h root page
  obtain ⟨filled', free⟩ := added.fresh v member
  intro kept
  have same := kept.frame
  rw [vmmGetPhysical_user h.vm ((h.live r).mpr root) page, if_neg filled,
    vmmGetPhysical_user added.system.vm ((added.system.live r).mpr root) page, if_neg filled'] at same
  have frame := congrArg frameOf (Option.some.inj same)
  rw [phys_frame, phys_frame] at frame
  have used := (h.vm.leaf_facts filled).2.2.2
  rw [frame] at free
  omega

theorem Added.keeps_iff (added : Added K roots r s g pages s' g') (h : System K roots s g)
    (root : r ∈ roots) (below : ∀ v ∈ pages, v < userSpaceTop) :
    KeepsPages s s' r ↔ Unused s.mem r pages := by
  constructor
  · intro keeps v member
    by_contra present
    have mapped := userMapped_of_present h root (added.user v member) present
    exact added.lost h root member mapped (keeps v (below v member) mapped)
  · intro unused v under mapped
    rcases userPage_or_window under with page | inside
    · refine added.kept h root page mapped ?_
      intro member
      obtain ⟨w, here, path⟩ := List.mem_map.mp member
      have empty := h.toSpaces.leaf_absent root (added.user w here) (unused w here)
      rw [path] at empty
      exact mapped.filled h root page empty
    · exact absurd mapped (h.toSpaces.window_supervisor (.inr root) inside)

end Kept

/-! ## Calls that succeed -/

section Calls

variable {task task' : UserTask}

/-- The loop of `mmap` that does not have to undo anything is the loop of `brk`. -/
theorem mmapPages_true {flags : Word} {rest : List Word} : ∀ {done : List Word} {s : MemState},
    mmapPages r flags done rest s = .ok true s' →
    (rest.allM fun page => mapUserZeroPage r page flags) s = .ok true s' := by
  induction rest with
  | nil => exact fun ran => ran
  | cons page rest ih =>
    intro done s ran
    rw [mmapPages] at ran
    rw [List.allM_cons]
    change EStateM.bind _ _ s = _ at ran
    change EStateM.bind _ _ s = _
    unfold EStateM.bind at ran ⊢
    cases first : mapUserZeroPage r page flags s with
    | error e s₁ =>
      rw [first] at ran
      cases ran
    | ok mapped s₁ =>
      rw [first] at ran
      cases mapped with
      | true => exact ih ran
      | false =>
        change EStateM.bind _ _ s₁ = _ at ran
        unfold EStateM.bind at ran
        split at ran
        · cases ran
        · cases ran

/-- A growth that `brk` grants has mapped its pages, which lie between the limits. -/
theorem sysBrk_grown {requested value : Word}
    (grows : alignUp task.brkCurrent pageSize < alignUp requested pageSize)
    (ran : sysBrk task requested s = .ok (task', value) s') (granted : value = requested) :
    ((brkPages task requested).allM fun page =>
      mapUserZeroPage task.cr3 page (vmmUser ||| vmmWrite ||| vmmNx)) s = .ok true s' ∧
    task.brkBase.toNat ≤ requested.toNat ∧ requested.toNat < task.mmapNext.toNat := by
  have moved : task.brkCurrent ≠ requested := by
    intro same
    rw [same] at grows
    exact absurd grows (BitVec.lt_irrefl _)
  unfold sysBrk at ran
  subst granted
  split at ran
  · cases ran
    exact absurd rfl moved
  split at ran
  · cases ran
    exact absurd rfl moved
  rename_i inside
  rw [not_or, BitVec.not_lt, BitVec.not_le, BitVec.le_def, BitVec.lt_def] at inside
  refine ⟨?_, inside⟩
  dsimp only at ran
  rw [if_pos grows] at ran
  change EStateM.bind _ _ s = _ at ran
  unfold EStateM.bind at ran
  split at ran
  · rename_i mapped s₁ loop
    cases mapped with
    | true =>
      cases ran
      exact loop
    | false =>
      cases ran
      exact absurd rfl moved
  · cases ran

/-- A mapping that `mmap` makes where it likes begins at `mmap_next`. -/
theorem sysMmap_placed {len prot flags : Word} {fd value : Int}
    (ran : sysMmap task 0#64 len prot flags fd s = .ok (task', value) s') (placed : 0 ≤ value) :
    ((mmapRange task len).allM fun page => mapUserZeroPage task.cr3 page (mmapFlags prot)) s =
      .ok true s' ∧
    (task.mmapNext + alignUp len pageSize).toNat ≤ 2 ^ 47 := by
  have refused : ¬ 0 ≤ mapFailedRet := by decide
  unfold sysMmap at ran
  split at ran
  · cases ran
    exact absurd placed refused
  split at ran
  · cases ran
    exact absurd placed refused
  have chosen : (if (0#64 : Word) ≠ 0#64 then alignDown 0#64 pageSize else task.mmapNext) =
      task.mmapNext := if_neg (by decide)
  dsimp only at ran
  rw [chosen] at ran
  split at ran
  · cases ran
    exact absurd placed refused
  rename_i inside
  simp only [not_or, BitVec.not_lt, BitVec.not_le] at inside
  obtain ⟨_, below, room⟩ := inside
  rw [lt_userSpaceTop] at below
  rw [BitVec.le_def, BitVec.toNat_sub, userSpaceTop_toNat] at room
  refine ⟨?_, by rw [BitVec.toNat_add]; omega⟩
  change EStateM.bind _ _ s = _ at ran
  unfold EStateM.bind at ran
  split at ran
  · rename_i mapped s₁ loop
    cases mapped with
    | true =>
      cases ran
      exact mmapPages_true loop
    | false =>
      cases ran
      exact absurd placed refused
  · cases ran

theorem brkPages_range (ok : task.Ok) {requested : Word}
    (inside : task.brkBase.toNat ≤ requested.toNat ∧ requested.toNat < task.mmapNext.toNat) :
    ∀ v ∈ brkPages task requested, 2 ^ 21 ≤ v.toNat ∧ v < userSpaceTop := by
  intro v member
  have brkLow := ok.brkLow
  have brkMove := ok.brkMove
  have brkTop := ok.brkTop
  have mmapTop := ok.mmapTop
  have oldTop := alignUp_page_toNat task.brkCurrent
  have newTop := alignUp_page_toNat requested
  have range := mem_pageRange member (by omega)
  exact ⟨by omega, lt_userSpaceTop.mpr (by omega)⟩

theorem mmapRange_range (ok : task.Ok) {len : Word}
    (room : (task.mmapNext + alignUp len pageSize).toNat ≤ 2 ^ 47) :
    ∀ v ∈ mmapRange task len, 2 ^ 21 ≤ v.toNat ∧ v < userSpaceTop := by
  intro v member
  have low := ok.mmapLow
  have range := mem_pageRange member (by omega)
  exact ⟨by omega, lt_userSpaceTop.mpr (by omega)⟩

theorem pages_keep_iff (h : System K roots s g) (root : r ∈ roots) {pages : List Word}
    {flags : Word} (range : ∀ v ∈ pages, 2 ^ 21 ≤ v.toNat ∧ v < userSpaceTop)
    (user : flags &&& vmmUser ≠ 0#64)
    (loop : (pages.allM fun page => mapUserZeroPage r page flags) s = .ok true s') :
    KeepsPages s s' r ↔ Unused s.mem r pages := by
  have added := wp_ok (mapPages_added h root range user) loop
  rw [if_pos rfl] at added
  obtain ⟨g', added⟩ := added
  exact added.keeps_iff h root fun v member => (range v member).2

end Calls

/-- In every state the system calls reach while they map nothing in the first 2 MiB, for every
task: a `brk` that grows the heap and an `mmap` that chooses its address keep all pages of the
task exactly if none of the pages they map was present. -/
theorem growth_keeps_pages {kernelEnd : Word} {ops : List SysOp} {st : SysState}
    (boot : Booted K kernelEnd s) (image : 0 < kernelEnd.toNat ∧ kernelEnd.toNat ≤ 2 ^ 30)
    (run : Run (ClearStep K) ⟨s, []⟩ ops st) {task : UserTask} (member : task ∈ st.tasks) :
    (∀ requested task' s', alignUp task.brkCurrent pageSize < alignUp requested pageSize →
      sysBrk task requested st.mm = .ok (task', requested) s' →
      (KeepsPages st.mm s' task.cr3 ↔ Unused st.mm.mem task.cr3 (brkPages task requested))) ∧
    (∀ len prot flags fd task' base s',
      sysMmap task 0#64 len prot flags fd st.mm = .ok (task', base) s' → 0 ≤ base →
      (KeepsPages st.mm s' task.cr3 ↔ Unused st.mm.mem task.cr3 (mmapRange task len))) := by
  obtain ⟨roots, ⟨_, g, sys⟩, same, ok⟩ := Booted.ready boot image run
  have root : task.cr3 ∈ roots := (same _).mpr (List.mem_map_of_mem member)
  have good := ok task member
  constructor
  · intro requested task' s' grows ran
    obtain ⟨loop, inside⟩ := sysBrk_grown grows ran rfl
    exact pages_keep_iff sys root (brkPages_range good inside) (by decide) loop
  · intro len prot flags fd task' base s' ran placed
    obtain ⟨loop, room⟩ := sysMmap_placed ran placed
    exact pages_keep_iff sys root (mmapRange_range good room) (mmapFlags_user prot) loop

/-! ## A heap that reaches the stack -/

section SmallMachine

/-- The task of the small machine. -/
def smallUser : UserTask := ⟨8, 0x40201000#64, 0x40201000#64, 0x50000000#64⟩

theorem smallUser_sound : ∃ roots, Sound smallTables roots smallUser.cr3 smallTask.mm ∧
    smallUser.cr3 ∈ roots ∧ smallUser.Ok := by
  have member : smallUser ∈ smallTask.tasks := by decide +kernel
  have loaded : smallTask.mm.cr3 = smallUser.cr3 := by decide +kernel
  obtain ⟨roots, sound, same, ok⟩ := Booted.ready smallMachine_booted (by decide) smallTask_run
  rw [loaded] at sound
  exact ⟨roots, sound, (same _).mpr (List.mem_map_of_mem member), ok smallUser member⟩

/-- The first page from `mmap` is at 0x50000000, and nothing was there. -/
theorem growth_keeps_pages_mmap :
    smallUser ∈ smallTask.tasks ∧
    ∃ task' s', sysMmap smallUser 0#64 0x1000#64 3#64 0x22#64 (-1) smallTask.mm =
        .ok (task', 0x50000000) s' ∧ KeepsPages smallTask.mm s' 8 := by
  have member : smallUser ∈ smallTask.tasks := by decide +kernel
  have value : (resultValue (sysMmap smallUser 0#64 0x1000#64 3#64 0x22#64 (-1) smallTask.mm)).map
      Prod.snd = some 0x50000000 := by decide +kernel
  obtain ⟨⟨task', base⟩, found, rfl⟩ := Option.map_eq_some_iff.mp value
  obtain ⟨s', ran⟩ : ∃ s', sysMmap smallUser 0#64 0x1000#64 3#64 0x22#64 (-1) smallTask.mm =
      .ok (task', 0x50000000) s' := ⟨_, result_eq found⟩
  have unused : Unused smallTask.mm.mem 8 (mmapRange smallUser 0x1000#64) := by
    have range : mmapRange smallUser 0x1000#64 = [0x50000000#64] := by decide
    rw [range, Unused, List.forall_mem_singleton]
    decide +kernel
  have all := growth_keeps_pages smallMachine_booted (by decide) smallTask_run member
  exact ⟨member, task', s', ran, (all.2 _ _ _ _ _ _ _ ran (by decide)).mpr unused⟩

/-- The same program with its page at 0x400FD000, two pages below that of the stack. -/
def stackProgram : List Byte :=
  smallProgram.take 80 ++ littleEndian 8 0x400FD000 ++ smallProgram.drop 88

/-- What `load_user_image` does with the address space it has made. -/
def loadImage (pml4 : Nat) (file : List Byte) : MmM (Option UserImage) := do
  match ← elfLoadUserImage pml4 file with
  | none =>
    vmmDestroyUserAddressSpace pml4
    pure none
  | some (_, brkBase) =>
    match ← mapStackPage pml4 with
    | none =>
      vmmDestroyUserAddressSpace pml4
      pure none
    | some stackPhys => pure (some ⟨pml4, stackPhys, brkBase⟩)

theorem loadUserImage_made {file : List Byte} {s₁ : MemState} (nonempty : file.length ≠ 0)
    (made : vmmCreateAddressSpace s = .ok (some r) s₁) :
    loadUserImage file s = loadImage r file s₁ := by
  unfold loadUserImage
  rw [if_neg nonempty]
  change EStateM.bind _ _ s = _
  unfold EStateM.bind
  rw [made]
  rfl

/-- The task runs the program, started by `spawn`. -/
def stackUser : UserTask := ⟨8, 0x400FE000#64, 0x400FE000#64, 0x50000000#64⟩

def stackSpawned : MemState := resultState (loadImage 8 stackProgram smallFirst)

def stackLoaded : MemState := { stackSpawned with cr3 := 8 }

/-- The address space `execve` makes for the program. -/
def stackRemade : MemState :=
  { stackLoaded with
    pmm := (stackLoaded.pmm.takeFrame 14).takeFrame 15
    mem := createdMem stackLoaded.mem 8 14 15 }

theorem stackLoaded_create : vmmCreateAddressSpace stackLoaded = .ok (some 14) stackRemade :=
  vmmCreateAddressSpace_run (pmmAllocFrame_run (by decide +kernel) (by decide +kernel))
    (pmmAllocFrame_run (by decide +kernel) (by decide +kernel)) (by decide) (by decide) (by decide)
    (by decide +kernel) (by decide +kernel) (by decide +kernel)

/-- The rest of `execve`, and then a `brk` up to the top of the stack: the page below it was
mapped, and has another frame. -/
def stackProbe : MmM (Option Bool) := do
  match ← loadImage 14 stackProgram with
  | none => pure none
  | some image =>
    writeBytes image.stackPhys []
    vmmSwitch image.cr3
    vmmDestroyUserAddressSpace stackUser.cr3
    let before ← get
    let result ← sysBrk image.task 0x40100000#64
    let after ← get
    pure (some (image.task.cr3 = before.cr3 ∧ result.2 = 0x40100000#64 ∧
      vmmGetFlags before.mem image.task.cr3 0x400FF000#64 &&& presentUser = presentUser ∧
      vmmGetPhysical after.mem image.task.cr3 0x400FF000#64 ≠
        vmmGetPhysical before.mem image.task.cr3 0x400FF000#64))

theorem stackProgram_length : stackProgram.length ≠ 0 := by decide +kernel

theorem stackSpawned_step : SysStep smallTables ⟨smallMachine, []⟩ (.spawn stackProgram)
    ⟨stackSpawned, [stackUser]⟩ := by
  have value : (resultValue (loadImage 8 stackProgram smallFirst)).map (Option.map UserImage.task) =
      some (some stackUser) := by decide +kernel
  obtain ⟨image, found, same⟩ := Option.map_eq_some_iff.mp value
  obtain ⟨image, rfl, task⟩ := Option.map_eq_some_iff.mp same
  have loaded : loadUserImage stackProgram smallMachine = .ok (some image) stackSpawned :=
    (loadUserImage_made stackProgram_length smallMachine_create).trans (result_eq found)
  refine ⟨trivial, run_of_wp ?_⟩
  rw [sysExec, createUserElf, wp_bind, wp_bind, wp_run loaded]
  dsimp only [wp_pure]
  rw [task]
  exact ⟨rfl, rfl⟩

/-- A heap that grows to the top of the stack takes the place of the stack page. -/
theorem growth_keeps_pages_stack :
    Booted smallTables 0x180000#64 smallMachine ∧
    (∀ ph ∈ phdrs stackProgram, ph.pType = ptLoad → 2 ^ 30 ≤ ph.pVaddr.toNat) ∧
    ∃ st task task' s', Run (ClearStep smallTables) ⟨smallMachine, []⟩
        [.spawn stackProgram, .switch 8, .execve stackProgram [] 0x40100000#64] st ∧
      task ∈ st.tasks ∧ task.cr3 = st.mm.cr3 ∧
      sysBrk task 0x40100000#64 st.mm = .ok (task', 0x40100000#64) s' ∧
      UserMapped st.mm.mem task.cr3 0x400FF000#64 ∧ ¬ KeepsPages st.mm s' task.cr3 := by
  have high : SegmentsHigh stackProgram := by decide +kernel
  have spawned : ClearStep smallTables ⟨smallMachine, []⟩ (.spawn stackProgram)
      ⟨stackSpawned, [stackUser]⟩ := ⟨high, stackSpawned_step⟩
  have switched : ClearStep smallTables ⟨stackSpawned, [stackUser]⟩ (.switch 8)
      ⟨stackLoaded, [stackUser]⟩ := ⟨trivial, .inr (List.mem_singleton_self 8), rfl⟩
  -- one evaluation of the rest of the run, taken apart call by call
  have probe : resultValue (stackProbe stackRemade) = some (some true) := by decide +kernel
  obtain ⟨found, s₁, loaded, probe⟩ := resultValue_bind probe
  cases found with
  | none => cases probe
  | some image =>
    obtain ⟨_, s₂, wrote, probe⟩ := resultValue_bind probe
    obtain ⟨_, s₃, moved, probe⟩ := resultValue_bind probe
    obtain ⟨_, s₄, gone, probe⟩ := resultValue_bind probe
    obtain ⟨_, _, got, probe⟩ := resultValue_bind probe
    cases got
    obtain ⟨⟨task', top⟩, s₅, ran, probe⟩ := resultValue_bind probe
    obtain ⟨_, _, got, probe⟩ := resultValue_bind probe
    cases got
    have facts := of_decide_eq_true (Option.some.inj (Option.some.inj probe))
    obtain ⟨cr3, rfl, mapped, lost⟩ := facts
    have execved : ClearStep smallTables ⟨stackLoaded, [stackUser]⟩
        (.execve stackProgram [] 0x40100000#64) ⟨s₄, [image.task]⟩ := by
      refine ⟨high, trivial, run_of_wp ?_⟩
      have loaded' : loadUserImage stackProgram stackLoaded = .ok (some image) s₁ :=
        (loadUserImage_made stackProgram_length stackLoaded_create).trans loaded
      have here : [stackUser].find? (fun task => task.cr3 = stackLoaded.cr3) = some stackUser := rfl
      have fits : ¬ (4096 < ([] : List Byte).length ∨
          0x40100000#64 < userStackTop - pageSize ∨ userStackTop < 0x40100000#64) := by decide
      rw [sysExec, onCurrent, wp_bind, wp_get]
      dsimp only
      rw [here]
      dsimp only
      rw [wp_bind, wp_bind, replaceUserElf, wp_bind, wp_run loaded']
      dsimp only
      rw [if_neg fits, wp_bind, wp_run wrote, wp_bind, wp_run moved, wp_bind, wp_run gone]
      exact ⟨rfl, rfl⟩
    exact ⟨smallMachine_booted, by decide +kernel, _, image.task, task', s₅,
      ((Run.nil.snoc spawned).snoc switched).snoc execved, List.mem_singleton_self _, cr3, ran,
      mapped, fun keeps => lost (keeps 0x400FF000#64 (by decide) mapped).frame⟩

end SmallMachine

end LithiumKernel.Syscall
