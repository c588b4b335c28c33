import LithiumKernel.Mm.System

/-!
# Memory system calls (kernel/syscall/syscall.c)

`sys_brk_impl`, `sys_mmap_impl` and `sys_munmap_impl`. They work on the calling task, of
which they use the page-table root and the three limits of its user memory; only user
tasks make system calls, so `user_mode` is not a field. The loops over pages run over the
list of addresses they visit. `offset` of mmap is unused in the source.
-/
namespace LithiumKernel.Syscall

open LithiumKernel.Lib LithiumKernel.Mm

/-- The fields of `task_t` that describe user memory. -/
structure UserTask where
  cr3 : Nat
  brkBase : Word
  brkCurrent : Word
  mmapNext : Word
  deriving DecidableEq

def protWrite : Word := 0x2#64
def protExec : Word := 0x4#64
def mapPrivate : Word := 0x02#64
def mapAnonymous : Word := 0x20#64
def mapFailedRet : Int := -12
def einval : Int := 22
def userMmapBase : Word := 0x50000000#64

/-- The pages of `for (page = first; page < stop; page += PAGE_SIZE)`. -/
def pageRange (first stop : Word) : List Word :=
  (List.range ((stop.toNat - first.toNat + 4095) / 4096)).map fun i =>
    first + BitVec.ofNat 64 (i * 4096)

theorem mem_pageRange {first stop v : Word} (member : v ∈ pageRange first stop)
    (room : stop.toNat ≤ 2 ^ 63) : first.toNat ≤ v.toNat ∧ v.toNat < stop.toNat := by
  obtain ⟨i, inside, rfl⟩ := List.mem_map.mp member
  have lt := List.mem_range.mp inside
  have value : (first + BitVec.ofNat 64 (i * 4096)).toNat = first.toNat + i * 4096 := by
    rw [BitVec.toNat_add, BitVec.toNat_ofNat]
    omega
  rw [value]
  omega

theorem mem_pageRange_iff {first stop v : Word} (aligned : first.toNat % 4096 = 0)
    (room : stop.toNat ≤ 2 ^ 63) :
    v ∈ pageRange first stop ↔
      v.toNat % 4096 = 0 ∧ first.toNat ≤ v.toNat ∧ v.toNat < stop.toNat := by
  have value : ∀ i, i < (stop.toNat - first.toNat + 4095) / 4096 →
      (first + BitVec.ofNat 64 (i * 4096)).toNat = first.toNat + i * 4096 := by
    intro i lt
    rw [BitVec.toNat_add, BitVec.toNat_ofNat]
    omega
  constructor
  · intro member
    have range := mem_pageRange member room
    obtain ⟨i, inside, rfl⟩ := List.mem_map.mp member
    have at_ := value i (List.mem_range.mp inside)
    refine ⟨?_, range⟩
    rw [at_]
    omega
  · rintro ⟨page, low, high⟩
    have inside : (v.toNat - first.toNat) / 4096 < (stop.toNat - first.toNat + 4095) / 4096 := by
      omega
    refine List.mem_map.mpr ⟨(v.toNat - first.toNat) / 4096, List.mem_range.mpr inside, ?_⟩
    apply BitVec.eq_of_toNat_eq
    rw [value _ inside]
    omega

/-- A page the user can reach. -/
def UserMapped (mem : PhysMem) (root : Nat) (v : Word) : Prop :=
  vmmGetFlags mem root v &&& presentUser = presentUser

def userRangeOk (mem : PhysMem) (pml4 : Nat) (start len : Word) : Bool :=
  if len = 0#64 then true
  else if start = 0#64 ∨ userSpaceTop ≤ start then false
  else if userSpaceTop - start < len then false
  else (pageRange (alignDown start pageSize) (start + len)).all fun page =>
    vmmGetFlags mem pml4 page &&& presentUser = presentUser

def sysBrk (task : UserTask) (requested : Word) : MmM (UserTask × Word) :=
  if requested = 0#64 then pure (task, task.brkCurrent)
  else if requested < task.brkBase ∨ task.mmapNext ≤ requested then pure (task, task.brkCurrent)
  else
    let oldTop := alignUp task.brkCurrent pageSize
    let newTop := alignUp requested pageSize
    if oldTop < newTop then do
      let mapped ← (pageRange oldTop newTop).allM fun page =>
        mapUserZeroPage task.cr3 page (vmmUser ||| vmmWrite ||| vmmNx)
      -- pages mapped before a failure stay, the break does not move
      if mapped then pure ({ task with brkCurrent := requested }, requested)
      else pure (task, task.brkCurrent)
    else do
      forM (pageRange newTop oldTop) (unmapUserPage task.cr3)
      pure ({ task with brkCurrent := requested }, requested)

/-- The mapping loop of `sys_mmap_impl`; `done` are the pages to undo on failure. -/
def mmapPages (pml4 : Nat) (flags : Word) : List Word → List Word → MmM Bool
  | _, [] => pure true
  | done, page :: rest => do
    if ← mapUserZeroPage pml4 page flags then mmapPages pml4 flags (done ++ [page]) rest
    else
      forM done (unmapUserPage pml4)
      pure false

def mmapFlags (prot : Word) : Word :=
  vmmUser ||| (if prot &&& protWrite ≠ 0#64 then vmmWrite else 0#64) |||
    (if prot &&& protExec = 0#64 then vmmNx else 0#64)

def sysMmap (task : UserTask) (addr len prot flags : Word) (fd : Int) : MmM (UserTask × Int) :=
  if len = 0#64 then pure (task, mapFailedRet)
  else if flags &&& mapAnonymous = 0#64 ∨ flags &&& mapPrivate = 0#64 ∨ fd ≠ -1 then
    pure (task, mapFailedRet)
  else
    let size := alignUp len pageSize
    let base := if addr ≠ 0#64 then alignDown addr pageSize else task.mmapNext
    if base = 0#64 ∨ userSpaceTop ≤ base ∨ userSpaceTop - base < size then
      pure (task, mapFailedRet)
    else do
      if ← mmapPages task.cr3 (mmapFlags prot) [] (pageRange base (base + size)) then
        if addr = 0#64 then
          pure ({ task with mmapNext := alignUp (base + size) pageSize }, base.toNat)
        else pure (task, base.toNat)
      else pure (task, mapFailedRet)

def sysMunmap (task : UserTask) (addr len : Word) : MmM Int := do
  if len = 0#64 ∨ addr &&& 0xFFF#64 ≠ 0#64 then pure (-einval)
  else
    let s ← get
    if userRangeOk s.mem s.cr3 addr len then
      forM (pageRange addr (addr + alignUp len pageSize)) (unmapUserPage task.cr3)
      pure 0
    else pure (-einval)

/-! ## The calls keep the memory sound -/

theorem userSpaceTop_toNat : userSpaceTop.toNat = 2 ^ 47 := by decide

theorem lt_userSpaceTop {v : Word} : v < userSpaceTop ↔ v.toNat < 2 ^ 47 := by
  rw [BitVec.lt_def, userSpaceTop_toNat]

/-- The limits of a task's user memory stay inside the user half and above the first
2 MiB. -/
structure UserTask.Ok (task : UserTask) : Prop where
  brkLow : 2 ^ 21 ≤ task.brkBase.toNat
  brkMove : task.brkBase.toNat ≤ task.brkCurrent.toNat
  brkTop : task.brkCurrent.toNat ≤ 2 ^ 47
  mmapLow : 2 ^ 21 ≤ task.mmapNext.toNat
  mmapTop : task.mmapNext.toNat ≤ 2 ^ 47

variable {K : KernelTables} {roots : List Nat} {c : Nat} {s : MemState} {task : UserTask}

/-- What a call leaves: sound memory and the same task with good limits. -/
def Returned (K : KernelTables) (roots : List Nat) (c : Nat) (task task' : UserTask)
    (s' : MemState) : Prop :=
  Sound K roots c s' ∧ task'.Ok ∧ task'.cr3 = task.cr3

theorem unmapPages_sound {first stop : Word} (root : task.cr3 ∈ roots)
    (top : stop.toNat ≤ 2 ^ 47) (h : Sound K roots c s) :
    wp (forM (pageRange first stop) (unmapUserPage task.cr3)) (fun _ s' => Sound K roots c s')
      Saturated s := by
  refine wp_forM_inv (Sound K roots c) ?_ h
  intro v member s₁ now
  have range := mem_pageRange member (by omega)
  exact unmapUserPage_sound root (lt_userSpaceTop.mpr (by omega)) now

theorem sysBrk_sound (requested : Word) (ok : task.Ok) (root : task.cr3 ∈ roots)
    (h : Sound K roots c s) :
    wp (sysBrk task requested) (fun result s' => Returned K roots c task result.1 s')
      Saturated s := by
  have brkLow := ok.brkLow
  have brkMove := ok.brkMove
  have brkTop := ok.brkTop
  have mmapTop := ok.mmapTop
  unfold sysBrk
  apply wp_ite
  · intro _
    exact ⟨h, ok, rfl⟩
  intro _
  apply wp_ite
  · intro _
    exact ⟨h, ok, rfl⟩
  intro inside
  rw [not_or, BitVec.not_lt, BitVec.not_le, BitVec.le_def, BitVec.lt_def] at inside
  have moved : ({ task with brkCurrent := requested } : UserTask).Ok :=
    ⟨brkLow, inside.1, by dsimp only; omega, ok.mmapLow, ok.mmapTop⟩
  have oldTop := alignUp_page_toNat task.brkCurrent
  have newTop := alignUp_page_toNat requested
  apply wp_ite
  · intro _
    refine wp_seq (wp_allM_inv (Sound K roots c) ?_ h) ?_
    · intro v member s₁ now
      have range := mem_pageRange member (by omega)
      exact mapUserZeroPage_sound root (by omega) (lt_userSpaceTop.mpr (by omega)) (by decide) now
    · rintro (_ | _) s₁ now
      · exact ⟨now, ok, rfl⟩
      · exact ⟨now, moved, rfl⟩
  · intro _
    refine wp_seq (unmapPages_sound root (by omega) h) ?_
    intro _ s₁ now
    exact ⟨now, moved, rfl⟩

/-- The loop of `sys_mmap_impl`, and its way back after a failure. -/
theorem mmapPages_sound {flags : Word} (root : task.cr3 ∈ roots) (user : flags &&& vmmUser ≠ 0#64)
    {rest : List Word} : ∀ {done : List Word} {s : MemState},
    (∀ v ∈ done ++ rest, 2 ^ 21 ≤ v.toNat ∧ v < userSpaceTop) → Sound K roots c s →
    wp (mmapPages task.cr3 flags done rest) (fun _ s' => Sound K roots c s') Saturated s := by
  induction rest with
  | nil =>
    intro done s _ h
    exact h
  | cons page rest ih =>
    intro done s good h
    obtain ⟨low, below⟩ := good page (by simp)
    rw [mmapPages]
    refine wp_seq (mapUserZeroPage_sound root low below user h) ?_
    rintro (_ | _) s₁ now
    · refine wp_seq (wp_forM_inv (Sound K roots c) ?_ now) (fun _ _ after => after)
      intro v member s₂ now₂
      exact unmapUserPage_sound root (good v (List.mem_append_left _ member)).2 now₂
    · exact ih (by simpa using good) now

theorem mmapFlags_user (prot : Word) : mmapFlags prot &&& vmmUser ≠ 0#64 := by
  unfold mmapFlags
  split <;> split <;> decide

/-- A page that a hint of `mmap` may ask for: page 0 is refused by the call itself, and
the rest of the first 2 MiB belongs to the kernel. -/
def HintOk (addr : Word) : Prop := addr.toNat < 4096 ∨ 2 ^ 21 ≤ addr.toNat

theorem sysMmap_sound {addr : Word} (len prot flags : Word) (fd : Int) (hint : HintOk addr)
    (ok : task.Ok) (root : task.cr3 ∈ roots) (h : Sound K roots c s) :
    wp (sysMmap task addr len prot flags fd)
      (fun result s' => Returned K roots c task result.1 s') Saturated s := by
  unfold sysMmap
  apply wp_ite
  · intro _
    exact ⟨h, ok, rfl⟩
  intro _
  apply wp_ite
  · intro _
    exact ⟨h, ok, rfl⟩
  intro _
  generalize chosen : (if addr ≠ 0#64 then alignDown addr pageSize else task.mmapNext) = base
  apply wp_ite
  · intro _
    exact ⟨h, ok, rfl⟩
  intro inside
  simp only [not_or, BitVec.not_lt, BitVec.not_le] at inside
  obtain ⟨notZero, below, room⟩ := inside
  rw [lt_userSpaceTop] at below
  have low : 2 ^ 21 ≤ base.toNat := by
    split at chosen
    · have value := alignDown_page_toNat addr
      rw [chosen] at value
      have nonzero : base.toNat ≠ 0 := fun zero => notZero (BitVec.eq_of_toNat_eq zero)
      rcases hint with first | high <;> omega
    · rw [← chosen]
      exact ok.mmapLow
  rw [BitVec.le_def, BitVec.toNat_sub, userSpaceTop_toNat] at room
  have stop : (base + alignUp len pageSize).toNat = base.toNat + (alignUp len pageSize).toNat := by
    rw [BitVec.toNat_add]
    omega
  refine wp_seq (mmapPages_sound root (mmapFlags_user prot) ?_ h) ?_
  · intro v member
    have range := mem_pageRange member (by omega)
    exact ⟨by omega, lt_userSpaceTop.mpr (by omega)⟩
  · rintro (_ | _) s₁ now
    · exact ⟨now, ok, rfl⟩
    · rw [if_pos rfl]
      apply wp_ite
      · intro _
        have next := alignUp_page_toNat (base + alignUp len pageSize)
        exact ⟨now, ⟨ok.brkLow, ok.brkMove, ok.brkTop, by dsimp only; omega, by dsimp only; omega⟩,
          rfl⟩
      · intro _
        exact ⟨now, ok, rfl⟩

theorem userRangeOk_inside {mem : PhysMem} {pml4 : Nat} {start len : Word}
    (nonempty : len ≠ 0#64) (ok : userRangeOk mem pml4 start len = true) :
    start.toNat + len.toNat ≤ 2 ^ 47 := by
  unfold userRangeOk at ok
  rw [if_neg nonempty] at ok
  split at ok
  · cases ok
  · split at ok
    · cases ok
    · rename_i range room
      rw [not_or, BitVec.not_le, lt_userSpaceTop] at range
      rw [BitVec.not_lt, BitVec.le_def, BitVec.toNat_sub, userSpaceTop_toNat] at room
      omega

/-- The check of the low bits. -/
theorem pageAligned_iff {v : Word} : v &&& 0xFFF#64 = 0#64 ↔ v.toNat % 4096 = 0 := by
  constructor
  · intro zero
    have value := congrArg BitVec.toNat zero
    rw [BitVec.toNat_and] at value
    change v.toNat &&& (2 ^ 12 - 1) = 0 at value
    rwa [Nat.and_two_pow_sub_one_eq_mod] at value
  · exact and_page_mask

theorem sysMunmap_sound (addr len : Word) (root : task.cr3 ∈ roots) (h : Sound K roots c s) :
    wp (sysMunmap task addr len) (fun _ s' => Sound K roots c s') Saturated s := by
  unfold sysMunmap
  apply wp_ite
  · intro _
    exact h
  intro inside
  rw [not_or, not_not, pageAligned_iff] at inside
  have aligned := inside.2
  rw [wp_bind, wp_get]
  apply wp_ite
  · intro ok
    have room := userRangeOk_inside inside.1 ok
    have size := alignUp_page_toNat len
    have stop : (addr + alignUp len pageSize).toNat ≤ 2 ^ 47 := by
      rw [BitVec.toNat_add]
      omega
    exact wp_seq (unmapPages_sound root stop h) (fun _ _ after => after)
  · intro _
    exact h

end LithiumKernel.Syscall
