import LithiumKernel.Fs.Sizes
import LithiumKernel.Syscall.UserCopies

/-!
# Reads and writes of files (kernel/syscall/syscall.c)

`sys_read_impl` and `sys_write_impl` move data through a buffer of 128 bytes on the kernel stack,
between the page-wise copies of user memory and the functions of the file. What the allocator
answers is an argument of a write; its work in the kernel half shows in no user page. A read of
the closed descriptor 0 goes to the keyboard and a write to the closed descriptors 1 and 2 to the
console, neither touches a file.
-/
namespace LithiumKernel.Syscall

open LithiumKernel.Lib LithiumKernel.Lib.ByteMem LithiumKernel.Lib.Forest LithiumKernel.Mm

/-- The file system with the calling task, and the memory. -/
structure IoState where
  fs : Fs.Calling Fs.TmpfsData
  mm : MemState

inductive IoHalt where
  | vfs (halt : Fs.VfsHalt)
  | mm (halt : Kassert)

abbrev IoM := EStateM IoHalt IoState

def onFs {α : Type} (m : Fs.CallM Fs.TmpfsData α) : IoM α := fun st =>
  match m st.fs with
  | .ok a fs => .ok a { st with fs := fs }
  | .error e fs => .error (.vfs e) { st with fs := fs }

def onMm {α : Type} (m : MmM α) : IoM α := fun st =>
  match m st.mm with
  | .ok a mm => .ok a { st with mm := mm }
  | .error e mm => .error (.mm e) { st with mm := mm }

/-- The loop of `sys_write_impl`; the allocations are those of the turn that has written `done`
bytes. -/
def sysWriteLoop (ops : Fs.FileOps Fs.TmpfsData) (alloc : Nat → Fs.Alloc) (fd : Int) (buf : Word)
    (count : Nat) : Nat → Nat → IoM Int
  | 0, done => pure done
  | fuel + 1, done =>
    if count ≤ done then pure done
    else do
      let n := min Fs.chunkSize (count - done)
      let st ← get
      match copyFromUser st.mm.mem st.mm.cr3 (buf + BitVec.ofNat 64 done) n with
      | none => pure (-Fs.efault)
      | some chunk =>
        if (fd = 1 ∨ fd = 2) ∧ ¬ (st.fs.self.files fd.toNat).valid then
          sysWriteLoop ops alloc fd buf count fuel (done + n)
        else
          match ← onFs (Fs.vfsWriteIn ops (alloc done) fd chunk) with
          | none => pure (-Fs.ebadf)
          | some written =>
            if written = 0 then pure done
            else sysWriteLoop ops alloc fd buf count fuel (done + written)

def sysWriteImpl (ops : Fs.FileOps Fs.TmpfsData) (alloc : Nat → Fs.Alloc) (fd : Int) (buf : Word)
    (count : Nat) : IoM Int :=
  sysWriteLoop ops alloc fd buf count count 0

/-- The loop of `sys_read_impl`. Every turn but the last delivers a byte, so `count` is fuel
enough. -/
def sysReadLoop (ops : Fs.FileOps Fs.TmpfsData) (fd : Int) (buf : Word) (count : Nat) :
    Nat → Nat → IoM Int
  | 0, done => pure done
  | fuel + 1, done =>
    if count ≤ done then pure done
    else do
      let n := min Fs.chunkSize (count - done)
      match ← onFs (Fs.vfsReadIn ops fd n) with
      | none => pure (-Fs.ebadf)
      | some chunk =>
        if chunk = [] then pure done
        else
          let copied ← onMm (copyToUser (buf + BitVec.ofNat 64 done) chunk)
          if copied.1 then
            if chunk.length < n then pure (done + chunk.length)
            else sysReadLoop ops fd buf count fuel (done + chunk.length)
          else pure (-Fs.efault)

/-- `none` is a read of the keyboard. -/
def sysReadImpl (ops : Fs.FileOps Fs.TmpfsData) (fd : Int) (buf : Word) (count : Nat) :
    IoM (Option Int) := do
  if fd = 0 ∧ ¬ ((← get).fs.self.files 0).valid then pure none
  else
    let r ← sysReadLoop ops fd buf count count 0
    pure (some r)

/-! ## Runs of the parts -/

variable {α : Type} {st : IoState}

theorem onFs_ok {m : Fs.CallM Fs.TmpfsData α} {a : α} {fs : Fs.Calling Fs.TmpfsData}
    (ran : m st.fs = .ok a fs) : onFs m st = .ok a { st with fs := fs } := by
  rw [onFs, ran]

theorem onFs_error {m : Fs.CallM Fs.TmpfsData α} {e : Fs.VfsHalt} {fs : Fs.Calling Fs.TmpfsData}
    (ran : m st.fs = .error e fs) : onFs m st = .error (.vfs e) { st with fs := fs } := by
  rw [onFs, ran]

theorem onMm_ok {m : MmM α} {a : α} {mm : MemState} (ran : m st.mm = .ok a mm) :
    onMm m st = .ok a { st with mm := mm } := by
  rw [onMm, ran]

/-! ## A destination, chunk by chunk -/

/-- The range can be written by `copy_to_user`. -/
def Accessible (s : MemState) (user : Word) (len : Nat) : Prop :=
  RangeInside user.toNat len ∧ Opens s.mem s.cr3 s.pmm.refcount s.pmm.freeFrames
    (pageRange (alignDown user pageSize) (user + BitVec.ofNat 64 len))

theorem Opens.left {mem : PhysMem} {root : Nat} {rc : Nat → Nat} {free : Nat}
    {xs ys : List Word} (all : Opens mem root rc free (xs ++ ys)) : Opens mem root rc free xs := by
  induction xs generalizing rc free with
  | nil => trivial
  | cons v xs ih =>
    obtain ⟨f, maps, ways⟩ := all
    refine ⟨f, maps, ?_⟩
    rcases ways with ⟨write, rest⟩ | ⟨readOnly, cow, ways⟩
    · exact .inl ⟨write, ih rest⟩
    · rcases ways with ⟨one, rest⟩ | ⟨shared, left, rest⟩
      · exact .inr ⟨readOnly, cow, .inl ⟨one, ih rest⟩⟩
      · exact .inr ⟨readOnly, cow, .inr ⟨shared, left, ih rest⟩⟩

/-- Pages are the same up to any address of the last one. -/
theorem pageRange_stop {first stop stop' : Word} (aligned : first.toNat % 4096 = 0)
    (same : (stop.toNat + 4095) / 4096 = (stop'.toNat + 4095) / 4096) :
    pageRange first stop = pageRange first stop' := by
  rw [pageRange, pageRange, show (stop.toNat - first.toNat + 4095) / 4096 =
    (stop'.toNat - first.toNat + 4095) / 4096 by omega]

theorem pageRange_append {first mid stop : Word} (aligned : first.toNat % 4096 = 0)
    (aligned' : mid.toNat % 4096 = 0) (low : first.toNat ≤ mid.toNat)
    (high : mid.toNat ≤ stop.toNat) :
    pageRange first stop = pageRange first mid ++ pageRange mid stop := by
  have count : (stop.toNat - first.toNat + 4095) / 4096 =
      (mid.toNat - first.toNat + 4095) / 4096 + (stop.toNat - mid.toNat + 4095) / 4096 := by omega
  have base : (mid.toNat - first.toNat + 4095) / 4096 * 4096 = mid.toNat - first.toNat := by omega
  rw [pageRange, pageRange, pageRange, count, List.range_add, List.map_append, List.map_map]
  refine congrArg _ (List.map_congr_left fun i member => ?_)
  have lt := List.mem_range.mp member
  apply BitVec.eq_of_toNat_eq
  simp only [Function.comp_apply, BitVec.toNat_add, BitVec.toNat_ofNat]
  omega

/-- The pages of a range are those of its first `m` bytes and those that begin behind them. -/
theorem pageRange_split {user : Word} {len m : Nat} (inside : user.toNat + len ≤ 2 ^ 47)
    (le : m ≤ len) :
    pageRange (alignDown user pageSize) (user + BitVec.ofNat 64 len) =
      pageRange (alignDown user pageSize) (user + BitVec.ofNat 64 m) ++
        pageRange (alignUp (user + BitVec.ofNat 64 m) pageSize) (user + BitVec.ofNat 64 len) := by
  have value : ∀ i, i ≤ len → (user + BitVec.ofNat 64 i).toNat = user.toNat + i := by
    intro i le
    rw [BitVec.toNat_add, BitVec.toNat_ofNat]
    omega
  have base := alignDown_page_toNat user
  have up : ∀ i, i ≤ len → (alignUp (user + BitVec.ofNat 64 i) pageSize).toNat =
      (user.toNat + i + 4095) / 4096 * 4096 := by
    intro i le
    rw [alignUp_page_toNat, value i le]
    omega
  have whole := value len (le_refl _)
  have part := value m le
  have upWhole := up len (le_refl _)
  have upPart := up m le
  have same : ∀ first : Word, first.toNat % 4096 = 0 →
      pageRange first (user + BitVec.ofNat 64 len) =
        pageRange first (alignUp (user + BitVec.ofNat 64 len) pageSize) :=
    fun _ aligned => pageRange_stop aligned (by omega)
  have first : pageRange (alignDown user pageSize) (user + BitVec.ofNat 64 m) =
      pageRange (alignDown user pageSize) (alignUp (user + BitVec.ofNat 64 m) pageSize) :=
    pageRange_stop (by omega) (by omega)
  rw [same _ (by omega), same _ (by omega), first]
  exact pageRange_append (by omega) (by omega) (by omega) (by omega)

theorem Accessible.chunk {s : MemState} {user : Word} {len m : Nat} (all : Accessible s user len)
    (le : m ≤ len) : Accessible s user m := by
  obtain ⟨⟨low, high⟩, opens⟩ := all
  rw [pageRange_split high le] at opens
  exact ⟨⟨low, by omega⟩, opens.left⟩

variable {K : KernelTables} {reserved : Nat → Prop} {roots : List Nat} {s s' : MemState}
  {g g' : SpaceGhost}

/-- A page that is writable already costs nothing. -/
theorem opens_writable (h : Spaces K reserved roots s g) {r : Nat} {v : Word} (root : r ∈ roots)
    (write : (g.leaf (.user r, pagePath v)).getLsbD 1 = true) {rc : Nat → Nat} {free : Nat}
    {rest : List Word} : Opens s.mem r rc free (v :: rest) ↔ Opens s.mem r rc free rest := by
  have filled : g.leaf (.user r, pagePath v) ≠ 0#64 := ne_zero_of_bit write
  rw [opens_cons h root (h.userPage_of_leaf filled) rfl]
  simp only [filled, write, ne_eq, not_false_eq_true, true_and, false_and, or_false,
    Bool.true_eq_false]

/-- After the first bytes have gone over, what is behind them is accessible if the whole was. -/
theorem CopiedOut.accessible {user : Word} {src : List Byte} {n : Nat} {len : Nat}
    (copied : CopiedOut K reserved roots user src 0 s g (true, n) s' g')
    (root : s.cr3 ∈ roots) (more : 0 < src.length) (inside : RangeInside user.toNat src.length)
    (lt : src.length < len) :
    Accessible s user len ↔
      Accessible s' (user + BitVec.ofNat 64 src.length) (len - src.length) := by
  have top := inside.2
  have value : (user + BitVec.ofNat 64 src.length).toNat = user.toNat + src.length := by
    rw [BitVec.toNat_add, BitVec.toNat_ofNat]
    omega
  have range : RangeInside user.toNat len ↔
      RangeInside (user + BitVec.ofNat 64 src.length).toNat (len - src.length) := by
    rw [RangeInside, RangeInside, value]
    have low := inside.1
    omega
  rw [Accessible, Accessible, ← range]
  refine and_congr_right fun within => ?_
  have high := within.2
  have stop : user + BitVec.ofNat 64 src.length + BitVec.ofNat 64 (len - src.length) =
      user + BitVec.ofNat 64 len := by
    rw [BitVec.add_assoc, ← BitVec.ofNat_add, Nat.add_sub_cancel' (le_of_lt lt)]
  have pages : copyPages user src.length 0 =
      pageRange (alignDown user pageSize) (user + BitVec.ofNat 64 src.length) := by
    rw [copyPages, if_pos more, BitVec.add_zero]
  have down := alignDown_page_toNat user
  have up : (alignUp (user + BitVec.ofNat 64 src.length) pageSize).toNat =
      (user.toNat + src.length + 4095) / 4096 * 4096 := by
    rw [alignUp_page_toNat, value]
    omega
  have whole : (user + BitVec.ofNat 64 len).toNat = user.toNat + len := by
    rw [BitVec.toNat_add, BitVec.toNat_ofNat]
    omega
  have apart : ∀ w ∈ pageRange (alignUp (user + BitVec.ofNat 64 src.length) pageSize)
      (user + BitVec.ofNat 64 len), w < userSpaceTop ∧
      ∀ v ∈ copyPages user src.length 0, pagePath w ≠ pagePath v := by
    intro w member
    rw [mem_pageRange_iff (by omega) (by omega), up, whole] at member
    have below : w < userSpaceTop := lt_userSpaceTop.mpr (by omega)
    refine ⟨below, fun v there path => ?_⟩
    have range' := mem_copyPages top there
    have number := (pagePath_user below (lt_userSpaceTop.mpr (by omega))).mp path
    omega
  rw [pageRange_split high (le_of_lt lt), ← pages, copied.later rfl _ apart, stop, copied.cr3]
  by_cases aligned : (user.toNat + src.length) % 4096 = 0
  · have same : alignDown (user + BitVec.ofNat 64 src.length) pageSize =
        alignUp (user + BitVec.ofNat 64 src.length) pageSize := by
      apply BitVec.eq_of_toNat_eq
      rw [alignDown_page_toNat, up, value]
      omega
    rw [same]
  · -- the page the chunk ends in is writable now
    have base : (alignDown (user + BitVec.ofNat 64 src.length) pageSize).toNat =
        (user.toNat + src.length) / 4096 * 4096 := by
      rw [alignDown_page_toNat, value]
    have next : alignDown (user + BitVec.ofNat 64 src.length) pageSize + pageSize =
        alignUp (user + BitVec.ofNat 64 src.length) pageSize := by
      apply BitVec.eq_of_toNat_eq
      rw [BitVec.toNat_add, base, up]
      change (_ + 4096) % 2 ^ 64 = _
      omega
    have last : alignDown (user + BitVec.ofNat 64 src.length) pageSize ∈
        copyPages user src.length 0 := by
      rw [pages, mem_pageRange_iff (by omega) (by omega), base, value]
      omega
    have first : pageRange (alignDown (user + BitVec.ofNat 64 src.length) pageSize)
        (user + BitVec.ofNat 64 len) = _ := pageRange_cons (by omega) (by omega)
    rw [first, next, opens_writable copied.spaces root (copied.ready rfl _ last)]

/-- One call of `copy_to_user`. -/
theorem copyToUser_chunk (h : Spaces K reserved roots s g) (alone : WritersAlone g) (user : Word)
    {src : List Byte} (more : 0 < src.length) :
    ∃ result s', copyToUser user src s = .ok result s' ∧
      if result.1 then Accessible s user src.length ∧
        ∃ g', CopiedOut K reserved roots user src 0 s g result s' g'
      else ¬ Accessible s user src.length := by
  refine exists_run ?_
  unfold copyToUser
  rw [if_neg (Nat.ne_of_gt more)]
  apply wp_ite
  · intro outside
    change ¬ Accessible s user src.length
    rintro ⟨⟨low, high⟩, _⟩
    rw [userSpaceTop_toNat] at outside
    rcases outside with rfl | past | long
    · exact absurd low (by decide)
    · rw [BitVec.le_def, userSpaceTop_toNat] at past
      omega
    · omega
  · intro inside
    rw [not_or, not_or, BitVec.not_le, lt_userSpaceTop, userSpaceTop_toNat] at inside
    have start : user.toNat ≠ 0 := fun zero => inside.1 (BitVec.eq_of_toNat_eq zero)
    have range : RangeInside user.toNat src.length := ⟨by omega, by omega⟩
    have pages : copyPages user src.length 0 =
        pageRange (alignDown user pageSize) (user + BitVec.ofNat 64 src.length) := by
      rw [copyPages, if_pos more, BitVec.add_zero]
    refine wp_imp (copyToUserLoop_inside h alone more range) ?_
    rintro ⟨_ | _, n⟩ s' ⟨g', copied⟩
    · have accepted := copied.accepted
      rw [pages] at accepted
      exact fun all => Bool.false_ne_true (accepted.mpr all.2)
    · have accepted := copied.accepted
      rw [pages] at accepted
      exact ⟨⟨range, accepted.mp rfl⟩, g', copied⟩

/-- A copy that succeeds is one to a user space. -/
theorem Accessible.root (h : Spaces K reserved roots s g) {user : Word} {len : Nat}
    (all : Accessible s user len) (more : 0 < len) : s.cr3 ∈ roots := by
  obtain ⟨⟨_, high⟩, opens⟩ := all
  refine h.cur.resolve_left fun kernel => ?_
  have low := alignDown_page_toNat user
  have stop : (user + BitVec.ofNat 64 len).toNat = user.toNat + len := by
    rw [BitVec.toNat_add, BitVec.toNat_ofNat]
    omega
  rw [pageRange_cons (by omega) (by omega)] at opens
  obtain ⟨f, maps, _⟩ := opens
  rw [kernel] at maps
  exact h.kernelRoot_supervisor (lt_userSpaceTop.mpr (by omega)) maps.1

/-! ## Reads -/

/-- The space that is loaded sees the bytes at the address, and nothing else has changed for it
or for another space. -/
def Delivered (roots : List Nat) (s : MemState) (user : Word) (n : Nat) (byte : Nat → Byte)
    (s' : MemState) : Prop :=
  s'.cr3 = s.cr3 ∧ ∀ r ∈ roots, ∀ v, v < userSpaceTop → userLoad s'.mem r v =
    if r = s.cr3 ∧ user.toNat ≤ v.toNat ∧ v.toNat < user.toNat + n
    then some (byte (v.toNat - user.toNat)) else userLoad s.mem r v

theorem Delivered.nothing (user : Word) (byte : Nat → Byte) : Delivered roots s user 0 byte s := by
  refine ⟨rfl, fun r _ v _ => ?_⟩
  rw [if_neg (by omega)]

theorem Delivered.append {s₁ : MemState} {user : Word} {m n : Nat} {byte : Nat → Byte}
    (first : Delivered roots s user m byte s₁) (inside : user.toNat + m < 2 ^ 64)
    (next : Delivered roots s₁ (user + BitVec.ofNat 64 m) n (fun i => byte (m + i)) s') :
    Delivered roots s user (m + n) byte s' := by
  have value : (user + BitVec.ofNat 64 m).toNat = user.toNat + m := by
    rw [BitVec.toNat_add, BitVec.toNat_ofNat]
    omega
  refine ⟨next.1.trans first.1, fun r root v below => ?_⟩
  rw [next.2 r root v below, first.2 r root v below, value, first.1]
  by_cases own : r = s.cr3
  · subst own
    by_cases behind : user.toNat + m ≤ v.toNat ∧ v.toNat < user.toNat + m + n
    · rw [if_pos ⟨rfl, behind⟩, if_pos ⟨rfl, by omega⟩]
      dsimp only
      rw [show m + (v.toNat - (user.toNat + m)) = v.toNat - user.toNat by omega]
    · rw [if_neg fun all => behind all.2]
      by_cases here : user.toNat ≤ v.toNat ∧ v.toNat < user.toNat + m
      · rw [if_pos ⟨rfl, here⟩, if_pos ⟨rfl, by omega⟩]
      · rw [if_neg fun all => here all.2, if_neg fun all => by omega]
  · simp only [own, false_and, if_false]

theorem CopiedOut.delivered {user : Word} {m n : Nat} {byte : Nat → Byte}
    (copied : CopiedOut K reserved roots user ((List.range m).map byte) 0 s g (true, n) s' g') :
    Delivered roots s user m byte s' := by
  have all : n = m := by
    have whole := copied.whole rfl
    rwa [List.length_map, List.length_range] at whole
  subst all
  refine ⟨copied.cr3, fun r root v below => ?_⟩
  rw [copied.loads r root v below, Nat.add_zero]
  by_cases inside : r = s.cr3 ∧ user.toNat ≤ v.toNat ∧ v.toNat < user.toNat + n
  · have lt : v.toNat - user.toNat < n := by omega
    rw [if_pos inside, if_pos inside, List.getD_eq_getElem?_getD, List.getElem?_map,
      List.getElem?_range lt]
    rfl
  · rw [if_neg inside, if_neg inside]

/-- How a read of `n` bytes of the file ends: they go over if there is room for them, and
otherwise the call fails after it has moved the offset. -/
inductive ReadEnds (roots : List Nat) (fd : Int) (f : Fs.File) (user : Word) (done n : Nat)
    (st : IoState) : Int → IoState → Prop where
  | whole {st' : IoState} : n = 0 ∨ Accessible st.mm user n → st'.fs = st.fs.moved fd f n →
      Delivered roots st.mm user n (fun i => (st.fs.vfs.file f.vnode).byte (f.offset + i)) st'.mm →
      ReadEnds roots fd f user done n st (done + n : Nat) st'
  | fault {st' : IoState} {m : Nat} : ¬ (n = 0 ∨ Accessible st.mm user n) → 0 < m →
      f.offset + m < 2 ^ 64 → st'.fs = st.fs.moved fd f m →
      ReadEnds roots fd f user done n st (-Fs.efault) st'

theorem ReadEnds.nothing {fd : Int} {f : Fs.File} {user : Word} {done n : Nat} (zero : n = 0)
    {fs : Fs.Calling Fs.TmpfsData} (same : fs = st.fs.moved fd f 0) :
    ReadEnds roots fd f user done n st done { st with fs := fs } := by
  subst zero
  exact .whole (.inl rfl) same (.nothing _ _)

/-- A chunk has gone over and the read goes on behind it. -/
theorem ReadEnds.step {fd : Int} {f : Fs.File} {user : Word} {done m n : Nat} {r : Int}
    {st st' : IoState} {g' : SpaceGhost} (le : m ≤ n) (more : 0 < m)
    (h : Spaces K reserved roots st.mm g) (here : Accessible st.mm user m)
    (copied : CopiedOut K reserved roots user ((List.range m).map fun i =>
      (st.fs.vfs.file f.vnode).byte (f.offset + i)) 0 st.mm g (true, m) s' g')
    (rest : ReadEnds roots fd { f with offset := f.offset + m } (user + BitVec.ofNat 64 m) (done + m)
      (n - m) { st with fs := st.fs.moved fd f m, mm := s' } r st') :
    ReadEnds roots fd f user done n st r st' := by
  have length : ((List.range m).map fun i =>
      (st.fs.vfs.file f.vnode).byte (f.offset + i)).length = m := by
    rw [List.length_map, List.length_range]
  have inside := here.1.2
  have iff_ : (n = 0 ∨ Accessible st.mm user n) ↔
      (n - m = 0 ∨ Accessible s' (user + BitVec.ofNat 64 m) (n - m)) := by
    rcases Nat.eq_or_lt_of_le le with rfl | lt
    · exact iff_of_true (.inr here) (.inl (Nat.sub_self _))
    · have behind : Accessible st.mm user n ↔ _ := copied.accessible (here.root h more)
        (by rw [length]; exact more) (by rw [length]; exact here.1) (by rw [length]; exact lt)
      rw [length] at behind
      rw [behind, or_iff_right (by omega), or_iff_right (by omega)]
  cases rest with
  | whole all fs delivered =>
    dsimp only at fs delivered
    rw [Fs.Calling.moved_moved, Nat.add_sub_cancel' le] at fs
    have both := copied.delivered.append (by omega) (n := n - m) (by
      simpa only [Nat.add_assoc, Fs.Calling.moved_vfs] using delivered)
    rw [Nat.add_sub_cancel' le] at both
    rw [show done + m + (n - m) = done + n by omega]
    exact .whole (iff_.mpr all) fs both
  | fault none_ positive small fs =>
    dsimp only at fs small
    rw [Fs.Calling.moved_moved] at fs
    exact .fault (fun all => none_ (iff_.mp all)) (by omega) (by omega) fs

theorem sysReadLoop_ends {halt : IoHalt → IoState → Prop} {fd : Int} {buf : Word} {count : Nat} :
    ∀ (fuel done : Nat) {st : IoState} {g : SpaceGhost} {f : Fs.File} {n : Nat},
    Fs.OnTmpfs st.fs fd f → (st.fs.vfs.file f.vnode).Ok → f.offset < 2 ^ 64 →
    Spaces K reserved roots st.mm g → WritersAlone g → count ≤ done + fuel →
    n = min (count - done) ((st.fs.vfs.file f.vnode).length - f.offset) →
    wp (sysReadLoop Fs.tmpfsFileOps64 fd buf count fuel done)
      (ReadEnds roots fd f (buf + BitVec.ofNat 64 done) done n st) halt st := by
  intro fuel
  induction fuel with
  | zero =>
    intro done st g f n on _ _ _ _ enough size
    exact .nothing (by omega) on.moved_zero.symm
  | succ fuel ih =>
    intro done st g f n on ok small h alone enough size
    rw [sysReadLoop]
    apply wp_ite
    · intro last
      exact .nothing (by omega) on.moved_zero.symm
    intro notLast
    generalize room : min Fs.chunkSize (count - done) = k
    have positive : 0 < k := by
      rw [← room, Fs.chunkSize]
      omega
    have read : onFs (Fs.vfsReadIn Fs.tmpfsFileOps64 fd k) st = _ :=
      onFs_ok (Fs.vfsReadIn_tmpfs on (Fs.tmpfsRead64_bytes ok small k))
    generalize amount : min k ((st.fs.vfs.file f.vnode).length - f.offset) = m at read
    have length : ((List.range m).map fun i =>
        (st.fs.vfs.file f.vnode).byte (f.offset + i)).length = m := by
      rw [List.length_map, List.length_range]
    rw [wp_bind, wp_run read]
    dsimp only
    rw [length]
    apply wp_ite
    · intro empty
      rw [empty] at length
      obtain rfl : m = 0 := length.symm
      exact .nothing (by omega) rfl
    intro some_
    have more : 0 < m := by
      rw [← length]
      exact List.length_pos_iff.mpr some_
    obtain ⟨result, s', ran, outcome⟩ := copyToUser_chunk h alone (buf + BitVec.ofNat 64 done)
      (by rw [length]; exact more)
    have copy : onMm (copyToUser (buf + BitVec.ofNat 64 done) _)
        { st with fs := st.fs.moved fd f m } = _ := onMm_ok ran
    have inside := ok.inside
    have block := ok.block
    have small' : f.offset + m < 2 ^ 64 := by omega
    rw [wp_bind, wp_run copy]
    obtain ⟨_ | _, went⟩ := result
    · rw [if_neg Bool.false_ne_true] at outcome ⊢
      rw [length] at outcome
      refine .fault ?_ more small' rfl
      rintro (none_ | all)
      · omega
      · exact outcome (all.chunk (by omega))
    · rw [if_pos rfl] at outcome ⊢
      obtain ⟨here, g', copied⟩ := outcome
      have all := copied.whole rfl
      dsimp only at all
      rw [length] at all here
      rw [all] at copied
      apply wp_ite
      · intro short
        refine ReadEnds.step (by omega) more h here copied ?_
        exact .nothing (by omega) (on.moved m).moved_zero.symm
      · intro full
        have left : n - m = min (count - (done + m))
            ((st.fs.vfs.file f.vnode).length - (f.offset + m)) := by omega
        have next := @ih (done + m) ⟨st.fs.moved fd f m, s'⟩ g' { f with offset := f.offset + m }
          (n - m) (on.moved m) ok small' copied.spaces copied.writers (by omega) left
        refine wp_imp next ?_
        intro r st' rest
        rw [BitVec.ofNat_add, ← BitVec.add_assoc] at rest
        exact ReadEnds.step (by omega) more h here copied rest

/-! ## Writes -/

/-- The number of bytes of the buffer up to the end of chunk `j`. -/
def chunkStop (count j : Nat) : Nat := min (Fs.chunkSize * (j + 1)) count

/-- The bytes of chunk `j` can be read. -/
def ChunkReadable (s : MemState) (buf : Word) (count j : Nat) : Prop :=
  RangeInside (buf + BitVec.ofNat 64 (Fs.chunkSize * j)).toNat
      (chunkStop count j - Fs.chunkSize * j) ∧
    RangeMapped s.mem s.cr3 (buf + BitVec.ofNat 64 (Fs.chunkSize * j)).toNat
      (chunkStop count j - Fs.chunkSize * j)

/-- The capacity of the file before chunk `j` of a write at `off`, `none` if the file itself or a
block for it has been refused. -/
def capAt (alloc : Nat → Fs.Alloc) (d : Fs.TmpfsData) (off count : Nat) : Nat → Option Nat
  | 0 => if Fs.HasFile (alloc 0) d then some d.cap else none
  | j + 1 => (capAt alloc d off count j).bind fun c =>
    Fs.capAfter (alloc (Fs.chunkSize * j)) c (Fs.sizeT (off + chunkStop count j))

section Chunks

variable (s : MemState) (alloc : Nat → Fs.Alloc) (d : Fs.TmpfsData) (off : Nat) (buf : Word)
  (count j : Nat)

/-- Chunk `j` can be read, and there is a block for it. -/
def ChunkFits : Prop :=
  ChunkReadable s buf count j ∧
    ∃ c, capAt alloc d off count (j + 1) = some c ∧ off + chunkStop count j ≤ c

/-- All chunks from `j` on fit. -/
def AllFit : Prop := ∀ i, j ≤ i → Fs.chunkSize * i < count → ChunkFits s alloc d off buf count i

/-- Chunk `j` is turned down before it touches the file. -/
def ChunkRefused : Prop :=
  ¬ ChunkReadable s buf count j ∨ capAt alloc d off count (j + 1) = none

end Chunks

/-- The bytes have gone to the file. -/
def Wrote (fd : Int) (f : Fs.File) (bytes : List Byte) (st st' : IoState) : Prop :=
  st'.mm = st.mm ∧ (bytes = [] ∧ st'.fs = st.fs ∨ bytes ≠ [] ∧
    ∃ d, Fs.Stored (st.fs.vfs.file f.vnode) f.offset bytes d ∧
      st'.fs = (st.fs.withFile f.vnode d).moved fd f bytes.length)

/-- How a write ends from chunk `j` on: all bytes have gone to the file, or the call fails. It then
has left the file alone only if chunk `j` was the one that was turned down. -/
inductive WriteEnds (alloc : Nat → Fs.Alloc) (d : Fs.TmpfsData) (off : Nat) (fd : Int) (f : Fs.File)
    (buf : Word) (count j : Nat) (st : IoState) : Int → IoState → Prop where
  | whole {st' : IoState} {bytes : List Byte} : AllFit st.mm alloc d off buf count j →
      bytes.length = count - Fs.chunkSize * j →
      Bytes (userBytes st.mm.mem st.mm.cr3) (buf + BitVec.ofNat 64 (Fs.chunkSize * j)).toNat bytes →
      Wrote fd f bytes st st' → WriteEnds alloc d off fd f buf count j st count st'
  | refused {r : Int} {st' : IoState} {e : Fs.TmpfsData} : r < 0 → Fs.chunkSize * j < count →
      ChunkRefused st.mm alloc d off buf count j → (st.fs.vfs.file f.vnode).Same e →
      st'.fs = (st.fs.withFile f.vnode e).moved fd f 0 →
      WriteEnds alloc d off fd f buf count j st r st'
  | part {r : Int} {st' : IoState} {e : Fs.TmpfsData} {m : Nat} : r < 0 →
      ¬ AllFit st.mm alloc d off buf count j → ¬ ChunkRefused st.mm alloc d off buf count j → 0 < m →
      f.offset + m < 2 ^ 64 → st'.fs = (st.fs.withFile f.vnode e).moved fd f m →
      WriteEnds alloc d off fd f buf count j st r st'

section WriteLoop

variable {alloc : Nat → Fs.Alloc} {d : Fs.TmpfsData} {off : Nat} {fd : Int} {f : Fs.File}
  {buf : Word} {count j : Nat}

theorem allFit_iff (more : Fs.chunkSize * j < count) :
    AllFit s alloc d off buf count j ↔
      ChunkFits s alloc d off buf count j ∧ AllFit s alloc d off buf count (j + 1) := by
  constructor
  · intro all
    exact ⟨all j (le_refl _) more, fun i le => all i (by omega)⟩
  · rintro ⟨here, rest⟩ i le lt
    rcases Nat.eq_or_lt_of_le le with rfl | later
    · exact here
    · exact rest i later lt

theorem ChunkFits.not_refused (fits : ChunkFits s alloc d off buf count j) :
    ¬ ChunkRefused s alloc d off buf count j := by
  obtain ⟨readable, c, granted, _⟩ := fits
  rintro (unreadable | none_)
  · exact unreadable readable
  · rw [none_] at granted
    cases granted

/-- The chunk `j` has been written and the loop goes on. -/
theorem WriteEnds.step {chunk : List Byte} {e : Fs.TmpfsData} {r : Int} {st' : IoState}
    (fits : ChunkFits st.mm alloc d off buf count j) (more : Fs.chunkSize * j < count)
    (length : chunk.length = chunkStop count j - Fs.chunkSize * j)
    (bytes : Bytes (userBytes st.mm.mem st.mm.cr3)
      (buf + BitVec.ofNat 64 (Fs.chunkSize * j)).toNat chunk)
    (stored : Fs.Stored (st.fs.vfs.file f.vnode) f.offset chunk e)
    (rest : WriteEnds alloc d off fd { f with offset := f.offset + chunk.length } buf count (j + 1)
      { st with fs := (st.fs.withFile f.vnode e).moved fd f chunk.length } r st') :
    WriteEnds alloc d off fd f buf count j st r st' := by
  have positive : 0 < chunk.length := by
    rw [length, chunkStop, Fs.chunkSize]
    rw [Fs.chunkSize] at more
    omega
  have filled : chunk ≠ [] := List.length_pos_iff.mp positive
  have small : f.offset + chunk.length < 2 ^ 64 := by
    have inside := stored.ok.inside
    have block := stored.ok.block
    rw [stored.length] at inside
    omega
  cases rest with
  | @whole _ tail all len behind wrote =>
    have address : tail ≠ [] → (buf + BitVec.ofNat 64 (Fs.chunkSize * (j + 1))).toNat =
        (buf + BitVec.ofNat 64 (Fs.chunkSize * j)).toNat + chunk.length := by
      intro some_
      have long := List.length_pos_iff.mpr some_
      have high := fits.1.1.2
      rw [length, Nat.mul_succ, BitVec.ofNat_add, ← BitVec.add_assoc, BitVec.toNat_add]
      rw [chunkStop, Fs.chunkSize] at high ⊢
      rw [Fs.chunkSize] at len more
      rw [BitVec.toNat_ofNat]
      omega
    have joined : Bytes (userBytes st.mm.mem st.mm.cr3)
        (buf + BitVec.ofNat 64 (Fs.chunkSize * j)).toNat (chunk ++ tail) := by
      refine bytes.append ?_
      by_cases none_ : tail = []
      · subst none_
        trivial
      · rw [← address none_]
        exact behind
    refine .whole ((allFit_iff more).mpr ⟨fits, all⟩) ?_ joined ?_
    · rw [List.length_append, length, len, chunkStop, Fs.chunkSize]
      rw [Fs.chunkSize] at more
      omega
    · obtain ⟨mm, ⟨rfl, fs⟩ | ⟨_, e', stored', fs⟩⟩ := wrote
      · refine ⟨mm, .inr ⟨by simpa using filled, e, ?_, ?_⟩⟩
        · rwa [List.append_nil]
        · rw [List.append_nil, fs]
      · dsimp only at stored' fs
        rw [Fs.Calling.moved_vfs, Fs.Calling.withFile_file] at stored'
        rw [Fs.Calling.moved_withFile] at fs
        exact ⟨mm, .inr ⟨by simp [filled], e', stored.append stored', by rw [fs, List.length_append]⟩⟩
  | refused negative next refused _ fs =>
    dsimp only at fs
    rw [Fs.Calling.moved_withFile] at fs
    refine .part negative ?_ fits.not_refused (by omega) (by omega) fs
    intro all
    exact (all (j + 1) (Nat.le_succ j) next).not_refused refused
  | part negative notAll _ _ small' fs =>
    dsimp only at fs small'
    rw [Fs.Calling.moved_withFile] at fs
    exact .part negative (fun all => notAll ((allFit_iff more).mp all).2) fits.not_refused
      (by omega) (by omega) fs

theorem chunkStop_facts (more : Fs.chunkSize * j < count) :
    Fs.chunkSize * j + (chunkStop count j - Fs.chunkSize * j) = chunkStop count j ∧
      min Fs.chunkSize (count - Fs.chunkSize * j) = chunkStop count j - Fs.chunkSize * j ∧
      0 < chunkStop count j - Fs.chunkSize * j ∧
      chunkStop count j = min (Fs.chunkSize * (j + 1)) count := by
  simp only [chunkStop, Fs.chunkSize] at more ⊢
  refine ⟨?_, ?_, ?_, trivial⟩ <;> omega

theorem WriteEnds.finished (last : count ≤ Fs.chunkSize * j) :
    WriteEnds alloc d off fd f buf count j st (min (Fs.chunkSize * j) count : Nat) st := by
  rw [Nat.min_eq_right last]
  have none_ : ([] : List Byte).length = count - Fs.chunkSize * j :=
    (Nat.sub_eq_zero_of_le last).symm
  refine .whole ?_ none_ trivial ⟨rfl, .inl ⟨rfl, rfl⟩⟩
  intro i le lt
  have := Nat.mul_le_mul_left Fs.chunkSize le
  omega

/-- What one call of `vfs_write_in` can do with a chunk. -/
theorem vfsWriteIn_chunk {mem : Fs.Alloc} {chunk : List Byte} (on : Fs.OnTmpfs st.fs fd f)
    (ok : (st.fs.vfs.file f.vnode).Ok) (small : f.offset < 2 ^ 64) (some_ : chunk ≠ [])
    {granted : Option Nat} (cap : granted = if Fs.HasFile mem (st.fs.vfs.file f.vnode) then
      Fs.capAfter mem (st.fs.vfs.file f.vnode).cap (Fs.sizeT (f.offset + chunk.length)) else none) :
    match granted with
    | none => ∃ e, (st.fs.vfs.file f.vnode).Same e ∧
      onFs (Fs.vfsWriteIn Fs.tmpfsFileOps64 mem fd chunk) st =
        .ok none { st with fs := (st.fs.withFile f.vnode e).moved fd f 0 }
    | some c => if f.offset + chunk.length ≤ c then
        ∃ e, Fs.Stored (st.fs.vfs.file f.vnode) f.offset chunk e ∧ e.file.isSome = true ∧ e.cap = c ∧
          onFs (Fs.vfsWriteIn Fs.tmpfsFileOps64 mem fd chunk) st =
            .ok (some chunk.length)
              { st with fs := (st.fs.withFile f.vnode e).moved fd f chunk.length }
      else ∃ halt st', onFs (Fs.vfsWriteIn Fs.tmpfsFileOps64 mem fd chunk) st = .error halt st' := by
  have here := Fs.sizeT_of_lt small
  have refused : ∀ {e}, Fs.tmpfsWrite64 mem (st.fs.vfs.file f.vnode) chunk f.offset = .ok (none, e) →
      onFs (Fs.vfsWriteIn Fs.tmpfsFileOps64 mem fd chunk) st =
        .ok none { st with fs := (st.fs.withFile f.vnode e).moved fd f 0 } := by
    intro e wrote
    rw [(on.withFile e).moved_zero]
    exact onFs_ok (Fs.vfsWriteIn_refused on wrote)
  have unchanged : (¬ Fs.HasFile mem (st.fs.vfs.file f.vnode) ∨
      Fs.capAfter mem (st.fs.vfs.file f.vnode).cap (Fs.sizeT (Fs.sizeT f.offset + chunk.length)) =
        none) → ∃ e, (st.fs.vfs.file f.vnode).Same e ∧
      onFs (Fs.vfsWriteIn Fs.tmpfsFileOps64 mem fd chunk) st =
        .ok none { st with fs := (st.fs.withFile f.vnode e).moved fd f 0 } := by
    intro cause
    obtain ⟨e, wrote, same⟩ := Fs.tmpfsWrite64_refused cause
    exact ⟨e, same, refused wrote⟩
  by_cases file : Fs.HasFile mem (st.fs.vfs.file f.vnode)
  · rw [if_pos file] at cap
    cases granted with
    | none => exact unchanged (.inr (by rw [here]; exact cap.symm))
    | some c =>
      dsimp only
      split
      · rename_i inside
        obtain ⟨e, wrote, stored, isSome, size⟩ := Fs.tmpfsWrite64_stored ok small some_ file
          (by rw [here]; exact cap.symm) (by rw [here]; exact inside)
        exact ⟨e, stored, isSome, size, onFs_ok (Fs.vfsWriteIn_stored on wrote)⟩
      · rename_i outside
        have wrote : Fs.tmpfsFileOps64.write mem (st.fs.vfs.file f.vnode) chunk f.offset = _ :=
          Fs.tmpfsWrite64_outside file (by rw [here]; exact cap.symm) (by rw [here]; omega)
        obtain ⟨k', ran⟩ := Fs.vfsWriteIn_outside on wrote
        exact ⟨_, _, onFs_error ran⟩
  · rw [if_neg file] at cap
    subst cap
    exact unchanged (.inl file)

/-- What the loop of `sys_write_impl` does from chunk `j` on. It leaves the block of the file only
if a chunk does not fit. -/
theorem sysWriteLoop_ends (alloc : Nat → Fs.Alloc) (d : Fs.TmpfsData) (off : Nat) (fd : Int)
    (buf : Word) (count : Nat) :
    ∀ (fuel j : Nat) {st : IoState} {f : Fs.File}, Fs.OnTmpfs st.fs fd f →
    (st.fs.vfs.file f.vnode).Ok → f.offset < 2 ^ 64 →
    (Fs.chunkSize * j < count → f.offset = off + Fs.chunkSize * j) →
    capAt alloc d off count j =
      (if Fs.HasFile (alloc (Fs.chunkSize * j)) (st.fs.vfs.file f.vnode)
        then some (st.fs.vfs.file f.vnode).cap else none) →
    count ≤ Fs.chunkSize * j + fuel →
    wp (sysWriteLoop Fs.tmpfsFileOps64 alloc fd buf count fuel (min (Fs.chunkSize * j) count))
      (WriteEnds alloc d off fd f buf count j st)
      (fun _ _ => ¬ AllFit st.mm alloc d off buf count j ∧
        ¬ ChunkRefused st.mm alloc d off buf count j) st := by
  intro fuel
  induction fuel with
  | zero =>
    intro j st f on _ _ _ _ enough
    exact .finished enough
  | succ fuel ih =>
    intro j st f on ok small place cap enough
    rw [sysWriteLoop]
    by_cases last : count ≤ Fs.chunkSize * j
    · rw [if_pos (le_of_eq (Nat.min_eq_right last).symm)]
      exact .finished last
    have more : Fs.chunkSize * j < count := Nat.not_le.mp last
    obtain ⟨stop, size, some_, next⟩ := chunkStop_facts more
    rw [Nat.min_eq_left (le_of_lt more), if_neg last, wp_bind, wp_get, size]
    have readable : ChunkReadable st.mm buf count j ↔ _ := (copyFromUser_iff some_).symm
    cases read : copyFromUser st.mm.mem st.mm.cr3 (buf + BitVec.ofNat 64 (Fs.chunkSize * j))
        (chunkStop count j - Fs.chunkSize * j) with
    | none =>
      rw [read] at readable
      exact .refused (by decide) more (.inl (by simpa using readable)) (.refl _) on.unchanged.symm
    | some chunk =>
      rw [read] at readable
      have yes : ChunkReadable st.mm buf count j := readable.mpr rfl
      obtain ⟨length, _, bytes⟩ := copyFromUser_bytes some_ read
      have full : chunk ≠ [] := List.length_pos_iff.mp (by rw [length]; exact some_)
      have reach : f.offset + chunk.length = off + chunkStop count j := by
        rw [length, place more]
        omega
      obtain ⟨_, _, same, valid⟩ := Fs.opened_valid on.opened
      rw [same] at valid
      dsimp only
      rw [if_neg (fun console => console.2 valid)]
      have granted : capAt alloc d off count (j + 1) =
          if Fs.HasFile (alloc (Fs.chunkSize * j)) (st.fs.vfs.file f.vnode) then
            Fs.capAfter (alloc (Fs.chunkSize * j)) (st.fs.vfs.file f.vnode).cap
              (Fs.sizeT (f.offset + chunk.length)) else none := by
        rw [capAt, cap, reach]
        split <;> rfl
      rw [wp_bind]
      cases got : capAt alloc d off count (j + 1) with
      | none =>
        rw [got] at granted
        obtain ⟨e, unchanged, ran⟩ := vfsWriteIn_chunk on ok small full granted
        rw [wp_run ran]
        exact .refused (by decide) more (.inr got) unchanged rfl
      | some c =>
        rw [got] at granted
        have outcome := vfsWriteIn_chunk on ok small full granted
        dsimp only at outcome
        split at outcome
        · rename_i inside
          obtain ⟨e, stored, isSome, size', ran⟩ := outcome
          rw [wp_run ran]
          dsimp only
          rw [if_neg (by omega), length, stop, next]
          have fits : ChunkFits st.mm alloc d off buf count j := ⟨yes, c, got, by omega⟩
          have block := stored.ok.block
          have later := @ih (j + 1) ⟨(st.fs.withFile f.vnode e).moved fd f chunk.length, st.mm⟩
            { f with offset := f.offset + chunk.length } ((on.withFile e).moved _)
            (by rw [Fs.Calling.moved_vfs, Fs.Calling.withFile_file]; exact stored.ok)
            (by dsimp only; omega) (by dsimp only; simp only [Fs.chunkSize] at *; omega)
            (by
              rw [Fs.Calling.moved_vfs, Fs.Calling.withFile_file, got, size', if_pos (.inl isSome)])
            (by simp only [Fs.chunkSize] at *; omega)
          rw [length] at later
          refine wp_mono later ?_ ?_
          · intro r st' rest
            rw [← length] at rest
            exact rest.step fits more length bytes stored
          · rintro _ _ ⟨notAll, _⟩
            exact ⟨fun all => notAll ((allFit_iff more).mp all).2, fits.not_refused⟩
        · rename_i outside
          obtain ⟨halt, st', ran⟩ := outcome
          rw [wp_halt ran]
          refine ⟨fun all => ?_, ?_⟩
          · obtain ⟨_, c', got', inside⟩ := all j (le_refl _) more
            rw [got] at got'
            obtain rfl := Option.some.inj got'
            omega
          · rintro (no | none_)
            · exact no yes
            · rw [got] at none_
              cases none_

end WriteLoop

end LithiumKernel.Syscall
