import LithiumKernel.Mm.CowIsolation
import LithiumKernel.Syscall.Growth
import LithiumKernel.Syscall.Munmap

/-!
# Copies between the kernel and the user (kernel/syscall/syscall.c)

`copy_from_user` and `copy_to_user` reach the user's bytes through physical addresses, one page
at a time. What they transfer is stated on the memory the program sees: the bytes of the range,
and on failure those before the page that stopped the loop. A copy to the user may have to break
sharing on its way. Whether it can is decided by the state before the call, by counting the
frames that the pages before have used up.
-/
namespace LithiumKernel.Syscall

open LithiumKernel.Lib LithiumKernel.Lib.ByteMem LithiumKernel.Lib.Forest LithiumKernel.Mm

/-! ## Reading -/

/-- Two memories with the same user pages: they agree on where user addresses lead, and on what
stands in the frames behind user pages. -/
structure SameUserPages (root : Nat) (mem mem' : PhysMem) : Prop where
  translations : ∀ v, v < userSpaceTop → translation mem' root v = translation mem root v
  contents : ∀ f v, v < userSpaceTop → MapsFrame mem f root v → mem' f = mem f

namespace SameUserPages

variable {root : Nat} {mem mem' : PhysMem}

theorem page (same : SameUserPages root mem mem') (addr : Word) :
    userPageForRead mem' root addr = userPageForRead mem root addr := by
  unfold userPageForRead
  by_cases outside : addr = 0#64 ∨ userSpaceTop ≤ addr
  · rw [if_pos outside, if_pos outside]
  · have below : addr < userSpaceTop := BitVec.not_le.mp (not_or.mp outside).2
    have start : alignDown addr pageSize < userSpaceTop := by
      rw [lt_userSpaceTop] at below ⊢
      rw [alignDown_page_toNat]
      omega
    have phys : vmmGetPhysical mem' root addr = vmmGetPhysical mem root addr :=
      congrArg Prod.fst (same.translations addr below)
    have flags : vmmGetFlags mem' root _ = vmmGetFlags mem root _ :=
      congrArg Prod.snd (same.translations _ start)
    rw [if_neg outside, if_neg outside, phys, flags]

theorem read (same : SameUserPages root mem mem') {v phys : Word} {n : Nat}
    (here : ReadableAt mem root v phys) (inside : v.toNat % 4096 + n ≤ 4096)
    (top : v.toNat + n ≤ 2 ^ 47) : readBytes mem' phys n = readBytes mem phys n := by
  induction n generalizing v phys with
  | zero => rfl
  | succ n ih =>
    have first : physByte mem' phys = physByte mem phys := by
      rw [physByte, physByte,
        same.contents _ v (lt_userSpaceTop.mpr (by omega)) ⟨here.1, phys, here.2, rfl⟩]
    rw [readBytes, readBytes, first]
    cases n with
    | zero => rfl
    | succ n =>
      have room : v.toNat % 4096 + 1 < 4096 := by omega
      have next := add_one_toNat room
      rw [ih (here.succ room) (by omega) (by omega)]

theorem copiedLoop (same : SameUserPages root mem mem') {user : Word} {len : Nat}
    (top : user.toNat + len ≤ 2 ^ 47) (fuel done : Nat) :
    copiedFromUserLoop mem' root user len fuel done =
      copiedFromUserLoop mem root user len fuel done := by
  induction fuel generalizing done with
  | zero => rfl
  | succ fuel ih =>
    rw [copiedFromUserLoop, copiedFromUserLoop]
    split
    · rename_i more
      have cur : (user + BitVec.ofNat 64 done).toNat = user.toNat + done := by
        rw [BitVec.toNat_add, BitVec.toNat_ofNat]
        omega
      dsimp only
      rw [same.page]
      split
      · rfl
      · rename_i phys found
        rw [ih, same.read (userPageForRead_readable found) (by omega) (by omega)]
    · rfl

/-- The result and the buffer depend on nothing but the user pages of the space. -/
theorem copied (same : SameUserPages root mem mem') (user : Word) (len : Nat) :
    copiedFromUser mem' root user len = copiedFromUser mem root user len := by
  unfold copiedFromUser
  split
  · rfl
  split
  · rfl
  · rename_i inside
    rw [not_or, not_or, BitVec.not_le, lt_userSpaceTop, userSpaceTop_toNat] at inside
    exact same.copiedLoop (by omega) len 0

end SameUserPages

/-- What `copy_from_user` does: it returns 0 exactly for a range of user pages, and the buffer
then holds the bytes of the range, otherwise the first bytes of it. -/
structure ReadsExactly (mem : PhysMem) (root : Nat) (user : Word) (len : Nat) : Prop where
  accepted : (copiedFromUser mem root user len).1 = true ↔
    len = 0 ∨ RangeInside user.toNat len ∧ RangeMapped mem root user.toNat len
  whole : (copiedFromUser mem root user len).1 = true →
    (copiedFromUser mem root user len).2.length = len
  part : (copiedFromUser mem root user len).2.length ≤ len
  bytes : Bytes (userBytes mem root) user.toNat (copiedFromUser mem root user len).2
  confined : ∀ mem', SameUserPages root mem mem' →
    copiedFromUser mem' root user len = copiedFromUser mem root user len

theorem readsExactly (mem : PhysMem) (root : Nat) (user : Word) (len : Nat) :
    ReadsExactly mem root user len := by
  obtain ⟨part, whole, bytes⟩ := @copiedFromUser_bytes mem root user len
  refine ⟨?_, whole, part, bytes, fun _ same => same.copied user len⟩
  have accepted : (copiedFromUser mem root user len).1 = true ↔
      (copyFromUser mem root user len).isSome = true := by
    rw [copyFromUser_eq]
    cases (copiedFromUser mem root user len).1 <;> simp
  rw [accepted]
  by_cases empty : len = 0
  · subst empty
    exact iff_of_true rfl (.inl rfl)
  · rw [copyFromUser_iff (Nat.pos_of_ne_zero empty)]
    exact (or_iff_right empty).symm

/-! ## The pages of a copy -/

/-- The pages can be opened for writing one after the other: each is a user page that is
writable, or copy-on-write with a frame nobody else uses, or copy-on-write and a free frame is
left for the copy. `rc` and `free` are the reference counts and the free frames so far. -/
def Opens (mem : PhysMem) (root : Nat) : (Nat → Nat) → Nat → List Word → Prop
  | _, _, [] => True
  | rc, free, v :: rest => ∃ f, MapsFrame mem f root v ∧
    (vmmGetFlags mem root v &&& vmmWrite ≠ 0#64 ∧ Opens mem root rc free rest ∨
      vmmGetFlags mem root v &&& vmmWrite = 0#64 ∧ vmmGetFlags mem root v &&& vmmCow ≠ 0#64 ∧
        (rc f ≤ 1 ∧ Opens mem root rc free rest ∨
          1 < rc f ∧ 0 < free ∧
            Opens mem root (Function.update rc f (rc f - 1)) (free - 1) rest))

/-- The pages the loop of `copy_user_bytes` still has to visit after `done` bytes. -/
def copyPages (user : Word) (len done : Nat) : List Word :=
  if done < len then
    pageRange (alignDown (user + BitVec.ofNat 64 done) pageSize) (user + BitVec.ofNat 64 len)
  else []

theorem mapsFrame_congr {mem mem' : PhysMem} {root f : Nat} {v : Word}
    (same : translation mem' root v = translation mem root v) :
    MapsFrame mem' f root v ↔ MapsFrame mem f root v := by
  have phys : vmmGetPhysical mem' root v = vmmGetPhysical mem root v := congrArg Prod.fst same
  have flags : vmmGetFlags mem' root v = vmmGetFlags mem root v := congrArg Prod.snd same
  rw [MapsFrame, MapsFrame, phys, flags]

theorem Opens.congr {mem mem' : PhysMem} {root : Nat} {pages : List Word} {rc rc' : Nat → Nat}
    {free : Nat} (same : ∀ v ∈ pages, translation mem' root v = translation mem root v)
    (counts : ∀ v ∈ pages, ∀ f, MapsFrame mem f root v → rc' f = rc f) :
    Opens mem' root rc' free pages ↔ Opens mem root rc free pages := by
  induction pages generalizing rc rc' free with
  | nil => exact Iff.rfl
  | cons v rest ih =>
    have here := same v List.mem_cons_self
    have flags : vmmGetFlags mem' root v = vmmGetFlags mem root v := congrArg Prod.snd here
    have later := fun w member => same w (List.mem_cons_of_mem v member)
    have kept : Opens mem' root rc' free rest ↔ Opens mem root rc free rest :=
      ih later fun w member => counts w (List.mem_cons_of_mem v member)
    simp only [Opens, flags]
    refine exists_congr fun f => ?_
    rw [mapsFrame_congr here]
    refine and_congr_right fun maps => ?_
    have count := counts v List.mem_cons_self f maps
    have paid : Opens mem' root (Function.update rc' f (rc f - 1)) (free - 1) rest ↔
        Opens mem root (Function.update rc f (rc f - 1)) (free - 1) rest := by
      refine ih later fun w member f' maps' => ?_
      by_cases shared : f' = f
      · rw [shared, Function.update_self, Function.update_self]
      · rw [Function.update_of_ne shared, Function.update_of_ne shared]
        exact counts w (List.mem_cons_of_mem v member) f' maps'
    rw [count, kept, paid]

theorem pageRange_empty {first stop : Word} (past : stop.toNat ≤ first.toNat) :
    pageRange first stop = [] := by
  rw [pageRange, show (stop.toNat - first.toNat + 4095) / 4096 = 0 by omega]
  rfl

theorem pageRange_cons {first stop : Word} (before : first.toNat < stop.toNat)
    (room : stop.toNat ≤ 2 ^ 63) :
    pageRange first stop = first :: pageRange (first + pageSize) stop := by
  have next : (first + pageSize).toNat = first.toNat + 4096 := by
    rw [BitVec.toNat_add]
    change (first.toNat + 4096) % 2 ^ 64 = _
    omega
  have count : (stop.toNat - first.toNat + 4095) / 4096 =
      (stop.toNat - (first.toNat + 4096) + 4095) / 4096 + 1 := by omega
  rw [pageRange, pageRange, next, count, List.range_succ_eq_map, List.map_cons, List.map_map]
  refine congrArg₂ List.cons (by simp) (List.map_congr_left fun i _ => ?_)
  apply BitVec.eq_of_toNat_eq
  simp only [Function.comp_apply, BitVec.toNat_add, BitVec.toNat_ofNat, pageSize]
  omega

/-- One round takes the first of the pages. -/
theorem copyPages_step {user : Word} {len done n : Nat} (top : user.toNat + len ≤ 2 ^ 47)
    (more : done < len)
    (size : n = min (4096 - (user.toNat + done) % 4096) (len - done)) :
    copyPages user len done =
      alignDown (user + BitVec.ofNat 64 done) pageSize :: copyPages user len (done + n) := by
  have value : ∀ i, i ≤ len → (user + BitVec.ofNat 64 i).toNat = user.toNat + i := by
    intro i le
    rw [BitVec.toNat_add, BitVec.toNat_ofNat]
    omega
  have stop := value len (le_refl _)
  have base := alignDown_page_toNat (user + BitVec.ofNat 64 done)
  rw [value done (by omega)] at base
  rw [copyPages, if_pos more, pageRange_cons (by omega) (by omega), copyPages]
  have next : (alignDown (user + BitVec.ofNat 64 done) pageSize + pageSize).toNat =
      (user.toNat + done) / 4096 * 4096 + 4096 := by
    rw [BitVec.toNat_add, base]
    change (_ + 4096) % 2 ^ 64 = _
    omega
  refine congrArg (List.cons _) ?_
  split
  · have page : alignDown (user + BitVec.ofNat 64 done) pageSize + pageSize =
        alignDown (user + BitVec.ofNat 64 (done + n)) pageSize := by
      apply BitVec.eq_of_toNat_eq
      rw [next, alignDown_page_toNat, value _ (by omega)]
      omega
    rw [page]
  · exact pageRange_empty (by omega)

theorem mem_copyPages {user v : Word} {len done : Nat} (top : user.toNat + len ≤ 2 ^ 47)
    (member : v ∈ copyPages user len done) :
    v.toNat % 4096 = 0 ∧ (user.toNat + done) / 4096 * 4096 ≤ v.toNat ∧ v.toNat < user.toNat + len := by
  rw [copyPages] at member
  split at member
  · have value : ∀ i, i ≤ len → (user + BitVec.ofNat 64 i).toNat = user.toNat + i := by
      intro i le
      rw [BitVec.toNat_add, BitVec.toNat_ofNat]
      omega
    have base := alignDown_page_toNat (user + BitVec.ofNat 64 done)
    rw [value done (by omega)] at base
    rw [mem_pageRange_iff (by omega) (by rw [value _ (le_refl _)]; omega), base,
      value _ (le_refl _)] at member
    exact member
  · cases member

/-! ## Opening a page -/

/-- Every writable user page is the only user of its frame. -/
def WritableAlone (roots : List Nat) (s : MemState) : Prop :=
  ∀ r ∈ roots, ∀ v f, v < userSpaceTop → MapsFrame s.mem f r v →
    vmmGetFlags s.mem r v &&& vmmWrite ≠ 0#64 → s.pmm.refcount f = 1

/-- The same of the leaves. -/
def WritersAlone (g : SpaceGhost) : Prop :=
  ∀ x y : Owner × List Idx, (∃ r, x.1 = .user r) → (g.leaf x).getLsbD 1 = true →
    g.leaf y ≠ 0#64 → frameOf (g.leaf y) = frameOf (g.leaf x) → y = x

variable {K : KernelTables} {reserved : Nat → Prop} {roots : List Nat} {s s' s₂ : MemState}
  {g g' g₂ : SpaceGhost}

theorem WritableAlone.writers (alone : WritableAlone roots s) (h : Spaces K reserved roots s g) :
    WritersAlone g := by
  rintro ⟨_, q⟩ y ⟨r, rfl⟩ write filled same
  have here : g.leaf (.user r, q) ≠ 0#64 := ne_zero_of_bit write
  obtain ⟨root, v, below, _, page, rfl⟩ := h.leaf_page here
  refine h.vm.leaf_unique here filled same (alone r root v _ below
    ((h.mapsFrame_iff root page).mpr ⟨here, rfl⟩) ?_)
  rwa [vmmGetFlags_user h.vm ((h.live r).mpr root) page, ne_eq, and_write,
    and_not_physMask_low _ (by decide), Bool.not_eq_false]

theorem opened_spaces {x : Owner × List Idx} (h : Spaces K reserved roots s g)
    (opened : Opened K.pdptHh x s g s₂ g₂) :
    Spaces K reserved roots s₂ g₂ ∧ g₂.role = g.role ∧ ∀ y, y ≠ x → g₂.leaf y = g.leaf y := by
  rcases opened with ⟨_, rfl, rfl⟩ | ⟨_, f, broken⟩
  · exact ⟨h, rfl, fun _ _ => rfl⟩
  · refine ⟨h.resolved broken.toResolved, broken.role, fun y other => ?_⟩
    rw [broken.leaf, Function.update_of_ne other]

theorem opened_writers {x : Owner × List Idx} (h : Spaces K reserved roots s g)
    (opened : Opened K.pdptHh x s g s₂ g₂) (alone : WritersAlone g) : WritersAlone g₂ := by
  rcases opened with ⟨_, rfl, rfl⟩ | ⟨_, f, broken⟩
  · exact alone
  · exact writers_update (P := fun x => ∃ r, x.1 = .user r) alone broken.leaf
      (fun _ _ => broken.toResolved.alone h.vm)

/-- Opening a page shows in no space. -/
theorem opened_load {x : Owner × List Idx} (h : Spaces K reserved roots s g)
    (opened : Opened K.pdptHh x s g s₂ g₂) {r : Nat} {v : Word} (root : r ∈ roots)
    (below : v < userSpaceTop) : userLoad s₂.mem r v = userLoad s.mem r v := by
  rcases opened with ⟨_, rfl, rfl⟩ | ⟨_, f, broken⟩
  · rfl
  · rw [(h.resolved broken.toResolved).userLoad_leaf root below, h.userLoad_leaf root below,
      broken.toResolved.shows h.vm]

/-- The frames that change are those of the page and of its table. -/
theorem opened_frames {x : Owner × List Idx} (h : Spaces K reserved roots s g)
    (opened : Opened K.pdptHh x s g s₂ g₂) {f : Nat} (changed : s₂.mem f ≠ s.mem f) :
    f = frameOf (g₂.leaf x) ∨ g.role f = some (x.1, x.2.tail) := by
  rcases opened with ⟨_, rfl, rfl⟩ | ⟨_, f', broken⟩
  · exact absurd rfl changed
  · rcases broken.frames f with same | rfl | table
    · exact absurd same changed
    · rw [broken.leaf, Function.update_self, writable_frame (broken.toResolved.small h.vm)]
      exact .inl rfl
    · exact .inr table

theorem opens_cons (h : Spaces K reserved roots s g) {r : Nat} {v : Word} (root : r ∈ roots)
    (page : UserPage v) {e : Word} (leaf : g.leaf (.user r, pagePath v) = e) {rc : Nat → Nat}
    {free : Nat} {rest : List Word} :
    Opens s.mem r rc free (v :: rest) ↔ e ≠ 0#64 ∧
      (e.getLsbD 1 = true ∧ Opens s.mem r rc free rest ∨
        e.getLsbD 1 = false ∧ e.getLsbD 9 = true ∧
          (rc (frameOf e) ≤ 1 ∧ Opens s.mem r rc free rest ∨
            1 < rc (frameOf e) ∧ 0 < free ∧
              Opens s.mem r (Function.update rc (frameOf e) (rc (frameOf e) - 1)) (free - 1)
                rest)) := by
  subst leaf
  rw [Opens]
  simp only [h.mapsFrame_iff root page, vmmGetFlags_user h.vm ((h.live r).mpr root) page, ne_eq,
    and_write, and_cow, and_not_physMask_low _ (show 1 < 12 by decide),
    and_not_physMask_low _ (show 9 < 12 by decide), Bool.not_eq_false]
  constructor
  · rintro ⟨f, ⟨filled, rfl⟩, opens⟩
    exact ⟨filled, opens⟩
  · rintro ⟨filled, opens⟩
    exact ⟨_, ⟨filled, rfl⟩, opens⟩

/-- A page that is shut stops the copy. -/
theorem not_opens_shut (h : Spaces K reserved roots s g) {r : Nat} {v : Word} (root : r ∈ roots)
    (page : UserPage v) {rest : List Word}
    (shut : g.leaf (.user r, pagePath v) = 0#64 ∨ Shut s.pmm (g.leaf (.user r, pagePath v))) :
    ¬ Opens s.mem r s.pmm.refcount s.pmm.freeFrames (v :: rest) := by
  rw [opens_cons h root page rfl]
  rintro ⟨filled, opens⟩
  obtain ⟨readOnly, cause⟩ := shut.resolve_left filled
  rcases opens with ⟨write, _⟩ | ⟨_, cow, ways⟩
  · rw [readOnly] at write
    cases write
  · rcases cause with plain | ⟨shared, none_⟩
    · rw [plain] at cow
      cases cow
    · rcases ways with ⟨alone, _⟩ | ⟨_, left, _⟩
      · omega
      · omega

theorem not_opens_window (h : Spaces K reserved roots s g) {r : Nat} {v : Word} (root : r ∈ roots)
    (inside : InWindow v) {rc : Nat → Nat} {free : Nat} {rest : List Word} :
    ¬ Opens s.mem r rc free (v :: rest) := by
  rintro ⟨f, maps, _⟩
  exact h.window_supervisor (.inr root) inside maps.1

/-- An opened page has cost what the count says. -/
theorem opens_opened (h : Spaces K reserved roots s g) {r : Nat} {addr v : Word} (root : r ∈ roots)
    (page : UserPage v) (path : pagePath v = pagePath addr)
    (filled : g.leaf (.user r, pagePath addr) ≠ 0#64)
    (opened : Opened K.pdptHh (.user r, pagePath addr) s g s₂ g₂) {rest : List Word}
    (others : ∀ w ∈ rest, w < userSpaceTop ∧ pagePath w ≠ pagePath addr) :
    Opens s.mem r s.pmm.refcount s.pmm.freeFrames (v :: rest) ↔
      Opens s₂.mem r s₂.pmm.refcount s₂.pmm.freeFrames rest := by
  obtain ⟨after, _, same⟩ := opened_spaces h opened
  have moved : ∀ w ∈ rest, translation s₂.mem r w = translation s.mem r w := fun w member =>
    h.translation_eq after root root (others w member).1
      (same _ fun eq => (others w member).2 (Prod.mk.inj eq).2)
  rw [opens_cons h root page (by rw [path])]
  rcases opened with ⟨write, rfl, rfl⟩ | ⟨readOnly, f, broken⟩
  · simp only [filled, write, ne_eq, not_false_eq_true, true_and, false_and, or_false,
      Bool.true_eq_false]
  have cow := broken.cow
  rcases broken.pool with ⟨one, pool⟩ | ⟨shared, free, counts⟩
  · have more : ¬ 1 < s.pmm.refcount (frameOf (g.leaf (.user r, pagePath addr))) := by omega
    rw [pool, Opens.congr moved (fun _ _ _ _ => rfl)]
    simp only [filled, readOnly, cow, one, more, ne_eq, not_false_eq_true, true_and, false_and,
      or_false, false_or, Bool.false_eq_true]
  · have fresh : s.pmm.refcount f = 0 := by
      rcases broken.sole with ⟨rfl, one⟩ | ⟨_, zero, _⟩
      · omega
      · exact zero
    have alone : ¬ s.pmm.refcount (frameOf (g.leaf (.user r, pagePath addr))) ≤ 1 := by omega
    have paid : s.pmm.freeFrames - 1 = s₂.pmm.freeFrames := by omega
    have left : 0 < s.pmm.freeFrames := by omega
    have rest_iff : Opens s₂.mem r s₂.pmm.refcount s₂.pmm.freeFrames rest ↔
        Opens s.mem r (Function.update s.pmm.refcount
          (frameOf (g.leaf (.user r, pagePath addr)))
          (s.pmm.refcount (frameOf (g.leaf (.user r, pagePath addr))) - 1))
          s₂.pmm.freeFrames rest := by
      refine Opens.congr moved fun w member f' maps => ?_
      have away : f' ≠ f := by
        obtain ⟨there, frame⟩ := (h.mapsFrame_iff root
          (h.userPage_of_maps root (others w member).1 maps)).mp maps
        rw [← frame]
        exact h.vm.leaf_ne_unused fresh there
      rw [counts]
      by_cases old : f' = frameOf (g.leaf (.user r, pagePath addr))
      · rw [old, Function.update_self, Function.update_self]
      · rw [Function.update_of_ne old, Function.update_of_ne away, Function.update_of_ne old]
    rw [rest_iff]
    simp only [filled, readOnly, cow, alone, shared, left, paid, ne_eq, not_false_eq_true, true_and,
      false_and, false_or, Bool.false_eq_true]

/-! ## Writing to an opened page -/

/-- The page holds the bytes from `off` on, and what it held elsewhere. -/
def PageWith (old page : Page) (off : Nat) (bytes : List Byte) : Prop :=
  ∀ i, i < 4096 → getByte page i =
    if off ≤ i ∧ i < off + bytes.length then bytes.getD (i - off) 0#8 else getByte old i

/-- What is written to a writable page of a space is seen there and nowhere else. -/
theorem written_load (h : Spaces K reserved roots s g) (alone : WritersAlone g) {c r : Nat}
    {addr v : Word} {page : Page} {bytes : List Byte}
    (write : (g.leaf (.user c, pagePath addr)).getLsbD 1 = true)
    (below' : addr < userSpaceTop) (fits : addr.toNat % 4096 + bytes.length ≤ 4096)
    (with_ : PageWith (s.mem (frameOf (g.leaf (.user c, pagePath addr)))) page
      (addr.toNat % 4096) bytes)
    (after : Spaces K reserved roots
      { s with mem := Function.update s.mem (frameOf (g.leaf (.user c, pagePath addr))) page } g)
    (root : r ∈ roots) (below : v < userSpaceTop) :
    userLoad (Function.update s.mem (frameOf (g.leaf (.user c, pagePath addr))) page) r v =
      if r = c ∧ addr.toNat ≤ v.toNat ∧ v.toNat < addr.toNat + bytes.length
      then some (bytes.getD (v.toNat - addr.toNat) 0#8) else userLoad s.mem r v := by
  have filled : g.leaf (.user c, pagePath addr) ≠ 0#64 := ne_zero_of_bit write
  have now := after.userLoad_leaf root below
  rw [now, h.userLoad_leaf root below]
  by_cases here : (Owner.user r, pagePath v) = (.user c, pagePath addr)
  · obtain ⟨owner, path⟩ := Prod.mk.inj here
    obtain rfl := Owner.user.inj owner
    have number := (pagePath_user below below').mp path
    rw [path, leafPage, leafPage, if_neg filled, if_neg filled, Option.map_some, Option.map_some]
    dsimp only
    rw [Function.update_self, with_ _ (Nat.mod_lt _ (by decide))]
    by_cases copied : addr.toNat ≤ v.toNat ∧ v.toNat < addr.toNat + bytes.length
    · rw [if_pos (by omega), if_pos ⟨rfl, copied⟩,
        show v.toNat % 4096 - addr.toNat % 4096 = v.toNat - addr.toNat by omega]
    · rw [if_neg (by omega), if_neg (fun both => copied both.2)]
  · have elsewhere : ¬ (r = c ∧ addr.toNat ≤ v.toNat ∧ v.toNat < addr.toNat + bytes.length) := by
      rintro ⟨rfl, low, high⟩
      exact here (Prod.ext rfl (pagePath_congr (by omega)))
    rw [if_neg elsewhere]
    congr 1
    unfold leafPage
    split
    · rfl
    · rename_i filled'
      refine congrArg some (Function.update_of_ne ?_ _ _)
      intro same
      exact here (alone _ _ ⟨c, rfl⟩ write filled' same)

/-! ## The loop -/

/-- What the loop of `copy_user_bytes` towards the user does after `done` bytes. -/
structure CopiedOut (K : KernelTables) (reserved : Nat → Prop) (roots : List Nat) (user : Word)
    (src : List Byte) (done : Nat) (s : MemState) (g : SpaceGhost) (result : Bool × Nat)
    (s' : MemState) (g' : SpaceGhost) : Prop where
  spaces : Spaces K reserved roots s' g'
  writers : WritersAlone g'
  cr3 : s'.cr3 = s.cr3
  role : g'.role = g.role
  accepted : result.1 = true ↔ Opens s.mem s.cr3 s.pmm.refcount s.pmm.freeFrames
    (copyPages user src.length done)
  part : done ≤ result.2 ∧ result.2 ≤ src.length
  whole : result.1 = true → result.2 = src.length
  loads : ∀ r ∈ roots, ∀ v, v < userSpaceTop → userLoad s'.mem r v =
    if r = s.cr3 ∧ user.toNat + done ≤ v.toNat ∧ v.toNat < user.toNat + result.2
    then some (src.getD (v.toNat - user.toNat) 0#8) else userLoad s.mem r v
  leaves : ∀ y, (∀ v ∈ copyPages user src.length done, y ≠ (.user s.cr3, pagePath v)) →
    g'.leaf y = g.leaf y
  frames : ∀ f, s'.mem f ≠ s.mem f → ∃ v ∈ copyPages user src.length done,
    g'.leaf (.user s.cr3, pagePath v) ≠ 0#64 ∧ frameOf (g'.leaf (.user s.cr3, pagePath v)) = f ∨
      g.role f = some (.user s.cr3, (pagePath v).tail)
  ready : result.1 = true → ∀ v ∈ copyPages user src.length done,
    (g'.leaf (.user s.cr3, pagePath v)).getLsbD 1 = true
  later : result.1 = true → ∀ more : List Word,
    (∀ w ∈ more, w < userSpaceTop ∧
      ∀ v ∈ copyPages user src.length done, pagePath w ≠ pagePath v) →
    (Opens s.mem s.cr3 s.pmm.refcount s.pmm.freeFrames (copyPages user src.length done ++ more) ↔
      Opens s'.mem s.cr3 s'.pmm.refcount s'.pmm.freeFrames more)

namespace CopiedOut

variable {user : Word} {src : List Byte} {done n : Nat} {result : Bool × Nat}

theorem unchanged (h : Spaces K reserved roots s g) (alone : WritersAlone g)
    (le : done ≤ src.length) {ok : Bool}
    (accepted : ok = true ↔ Opens s.mem s.cr3 s.pmm.refcount s.pmm.freeFrames
      (copyPages user src.length done)) (whole : ok = true → done = src.length) :
    CopiedOut K reserved roots user src done s g (ok, done) s g where
  spaces := h
  writers := alone
  cr3 := rfl
  role := rfl
  accepted := accepted
  part := ⟨le_refl _, le⟩
  whole := whole
  loads := by
    intro r _ v _
    dsimp only
    rw [if_neg (by omega)]
  leaves := fun _ _ => rfl
  frames := fun _ changed => absurd rfl changed
  ready := by
    intro yes v member
    rw [copyPages, if_neg (Nat.not_lt.mpr (le_of_eq (whole yes).symm))] at member
    cases member
  later := by
    intro yes more _
    rw [copyPages, if_neg (Nat.not_lt.mpr (le_of_eq (whole yes).symm)), List.nil_append]

theorem stopped (h : Spaces K reserved roots s g) (alone : WritersAlone g) (le : done ≤ src.length)
    (closed : ¬ Opens s.mem s.cr3 s.pmm.refcount s.pmm.freeFrames
      (copyPages user src.length done)) :
    CopiedOut K reserved roots user src done s g (false, done) s g :=
  unchanged h alone le (iff_of_false (by decide) closed) nofun

theorem finished (h : Spaces K reserved roots s g) (alone : WritersAlone g)
    (last : done = src.length) :
    CopiedOut K reserved roots user src done s g (true, done) s g := by
  refine unchanged h alone (le_of_eq last) (iff_of_true rfl ?_) (fun _ => last)
  rw [copyPages, if_neg (by omega)]
  trivial

/-- A page is opened and written, and the loop goes on behind it. -/
theorem step (h : Spaces K reserved roots s g) (alone : WritersAlone g) (root : s.cr3 ∈ roots)
    (top : user.toNat + src.length ≤ 2 ^ 47) (more : done < src.length)
    (size : n = min (4096 - (user.toNat + done) % 4096) (src.length - done)) {cur : Word}
    (at_ : cur = user + BitVec.ofNat 64 done) (page : UserPage cur)
    (filled : g.leaf (.user s.cr3, pagePath cur) ≠ 0#64)
    (opened : Opened K.pdptHh (.user s.cr3, pagePath cur) s g s₂ g₂) {new : Page}
    (with_ : PageWith (s₂.mem (frameOf (g₂.leaf (.user s.cr3, pagePath cur)))) new
      (cur.toNat % 4096) ((src.drop done).take n))
    (after : Spaces K reserved roots { s₂ with
      mem := Function.update s₂.mem (frameOf (g₂.leaf (.user s.cr3, pagePath cur))) new } g₂)
    (rest : CopiedOut K reserved roots user src (done + n) { s₂ with
      mem := Function.update s₂.mem (frameOf (g₂.leaf (.user s.cr3, pagePath cur))) new } g₂
      result s' g') :
    CopiedOut K reserved roots user src done s g result s' g' := by
  have value : cur.toNat = user.toNat + done := by
    rw [at_, BitVec.toNat_add, BitVec.toNat_ofNat]
    omega
  have below : cur < userSpaceTop := lt_userSpaceTop.mpr (by omega)
  have length : ((src.drop done).take n).length = n := by
    rw [List.length_take, List.length_drop]
    omega
  obtain ⟨spaces₂, role, same⟩ := opened_spaces h opened
  obtain ⟨_, cr3, _⟩ := opened.keep h.vm
  have write := (opened.madeWritable rfl h.vm filled).2.2
  have base : pagePath (alignDown cur pageSize) = pagePath cur := pagePath_alignDown cur
  have pages : copyPages user src.length done =
      alignDown cur pageSize :: copyPages user src.length (done + n) := by
    rw [at_]
    exact copyPages_step top more size
  have others : ∀ w ∈ copyPages user src.length (done + n),
      w < userSpaceTop ∧ pagePath w ≠ pagePath cur := by
    intro w member
    obtain ⟨_, low, high⟩ := mem_copyPages top member
    have wBelow : w < userSpaceTop := lt_userSpaceTop.mpr (by omega)
    refine ⟨wBelow, fun path => ?_⟩
    have number := (pagePath_user wBelow below).mp path
    -- a page behind this one is only there if the round went to the end of the page
    have more' : done + n < src.length := by
      by_contra all
      rw [copyPages, if_neg all] at member
      cases member
    omega
  have stays : ∀ v ∈ copyPages user src.length (done + n),
      ((Owner.user s.cr3, pagePath cur) : Owner × List Idx) ≠ (.user s.cr3, pagePath v) :=
    fun v member eq => (others v member).2 (Prod.mk.inj eq).2.symm
  have leaf := rest.leaves (.user s.cr3, pagePath cur) (by rw [cr3]; exact stays)
  -- what is left to open after this page, before and after the round
  have cost : ∀ later : List Word, (∀ w ∈ later, w < userSpaceTop ∧ pagePath w ≠ pagePath cur) →
      (Opens s.mem s.cr3 s.pmm.refcount s.pmm.freeFrames (alignDown cur pageSize :: later) ↔
        Opens (Function.update s₂.mem (frameOf (g₂.leaf (.user s.cr3, pagePath cur))) new) s.cr3
          s₂.pmm.refcount s₂.pmm.freeFrames later) := by
    intro later apart
    rw [opens_opened h root (userPage_alignDown.mpr page) base filled opened apart]
    exact (Opens.congr (fun w member => spaces₂.translation_eq after root root
      (apart w member).1 rfl) (fun _ _ _ _ => rfl)).symm
  constructor
  case spaces => exact rest.spaces
  case writers => exact rest.writers
  case cr3 => exact rest.cr3.trans cr3
  case role => exact rest.role.trans role
  case part =>
    have part := rest.part
    omega
  case whole => exact rest.whole
  case accepted =>
    rw [rest.accepted, pages, cost _ others]
    dsimp only
    rw [cr3]
  case ready =>
    intro yes v member
    rw [pages] at member
    rcases List.mem_cons.mp member with rfl | behind
    · rw [base, leaf]
      exact write
    · have ready := rest.ready yes v behind
      dsimp only at ready
      rwa [cr3] at ready
  case later =>
    intro yes later apart
    rw [pages] at apart ⊢
    have behind := rest.later yes later fun w member =>
      ⟨(apart w member).1, fun v inside => (apart w member).2 v (List.mem_cons_of_mem _ inside)⟩
    dsimp only at behind
    rw [cr3] at behind
    rw [List.cons_append, cost, behind]
    intro w member
    rcases List.mem_append.mp member with inside | outside
    · exact others w inside
    · refine ⟨(apart w outside).1, fun path => (apart w outside).2 _ List.mem_cons_self ?_⟩
      rw [path, base]
  case loads =>
    intro r member v vBelow
    have before := written_load spaces₂ (opened_writers h opened alone) write below
      (by rw [length]; omega) with_ after member vBelow
    rw [opened_load h opened member vBelow, length, value] at before
    have later := rest.loads r member v vBelow
    dsimp only at later
    rw [cr3, before] at later
    rw [later]
    have part := rest.part
    by_cases own : r = s.cr3
    · subst own
      by_cases behind : user.toNat + (done + n) ≤ v.toNat ∧ v.toNat < user.toNat + result.2
      · rw [if_pos ⟨rfl, behind⟩, if_pos ⟨rfl, by omega⟩]
      · rw [if_neg (fun all => behind all.2)]
        by_cases here : user.toNat + done ≤ v.toNat ∧ v.toNat < user.toNat + done + n
        · rw [if_pos ⟨rfl, here⟩, if_pos ⟨rfl, by omega⟩]
          congr 1
          rw [List.getD_eq_getElem?_getD, List.getD_eq_getElem?_getD, List.getElem?_take,
            if_pos (by omega), List.getElem?_drop,
            show done + (v.toNat - (user.toNat + done)) = v.toNat - user.toNat by omega]
        · rw [if_neg (fun all => here all.2), if_neg (fun all => by omega)]
    · simp only [own, false_and, if_false]
  case leaves =>
    intro y outside
    rw [pages] at outside
    rw [rest.leaves y ?_, same y ?_]
    · rw [← base]
      exact outside _ List.mem_cons_self
    · intro v member
      dsimp only
      rw [cr3]
      exact outside v (List.mem_cons_of_mem _ member)
  case frames =>
    intro f changed
    rw [pages]
    by_cases later : s'.mem f = Function.update s₂.mem
        (frameOf (g₂.leaf (.user s.cr3, pagePath cur))) new f
    · refine ⟨_, List.mem_cons_self, ?_⟩
      rw [base, leaf]
      by_cases own : f = frameOf (g₂.leaf (.user s.cr3, pagePath cur))
      · exact .inl ⟨ne_zero_of_bit write, own.symm⟩
      · rw [later, Function.update_of_ne own] at changed
        exact .inr ((opened_frames h opened changed).resolve_left own)
    · obtain ⟨v, member, found⟩ := rest.frames f later
      dsimp only at found
      rw [cr3, role] at found
      exact ⟨v, List.mem_cons_of_mem _ member, found⟩

end CopiedOut

theorem phys_sum (e v : Word) : (e &&& vmmPhysMask) ||| (v &&& 0xFFF#64) =
    frameAddr (frameOf e) + BitVec.ofNat 64 (v.toNat % 4096) := by
  have lt := frameOf_lt e
  apply BitVec.eq_of_toNat_eq
  rw [phys_toNat, BitVec.toNat_add, BitVec.toNat_ofNat, frameAddr_toNat lt, pmmFrameSize]
  omega

theorem copyToUserLoop_copied {halt : Kassert → MemState → Prop} {user : Word} {src : List Byte}
    (some_ : user ≠ 0#64) (top : user.toNat + src.length ≤ 2 ^ 47) :
    ∀ (fuel done : Nat) {s : MemState} {g : SpaceGhost}, Spaces K reserved roots s g →
    WritersAlone g → s.cr3 ∈ roots → done ≤ src.length → src.length ≤ done + fuel →
    wp (copyToUserLoop user src fuel done) (fun result s' => ∃ g',
      CopiedOut K reserved roots user src done s g result s' g') halt s := by
  intro fuel
  induction fuel with
  | zero =>
    intro done s g h alone _ le enough
    exact ⟨g, .finished h alone (by omega)⟩
  | succ fuel ih =>
    intro done s g h alone root le enough
    rw [copyToUserLoop]
    apply wp_ite
    · intro more
      generalize at_ : user + BitVec.ofNat 64 done = cur
      have value : cur.toNat = user.toNat + done := by
        rw [← at_, BitVec.toNat_add, BitVec.toNat_ofNat]
        omega
      have below : cur < userSpaceTop := lt_userSpaceTop.mpr (by omega)
      have first := copyPages_step top more rfl
      rw [at_] at first
      rcases userPage_or_window below with page | inside
      · refine wp_seq (userPageForCopy_opened h.vm ((h.live _).mpr root) page) ?_
        rintro (_ | phys) s₂ outcome
        · obtain ⟨rfl, outside | shut⟩ := outcome
          · rcases outside with zero | high
            · have start : user.toNat ≠ 0 := fun no => some_ (BitVec.eq_of_toNat_eq no)
              rw [zero, BitVec.toNat_ofNat] at value
              omega
            · exact absurd below (BitVec.not_lt.mpr high)
          · refine ⟨g, .stopped h alone le ?_⟩
            rw [first]
            refine not_opens_shut h root (userPage_alignDown.mpr page) ?_
            rwa [pagePath_alignDown]
        · obtain ⟨filled, g₂, opened, rfl⟩ := outcome
          obtain ⟨spaces₂, _, _⟩ := opened_spaces h opened
          obtain ⟨_, cr3, _⟩ := opened.keep h.vm
          have write := (opened.madeWritable rfl h.vm filled).2.2
          have filled₂ := ne_zero_of_bit write
          dsimp only
          rw [value, phys_sum]
          generalize size : min (4096 - (user.toNat + done) % 4096) (src.length - done) = n
          refine wp_seq (writeBytes_contents (frameOf_lt _) _ ?_) ?_
          · rw [List.length_take, List.length_drop]
            omega
          · rintro _ s₃ ⟨new, rfl, with_⟩
            have after := spaces₂.scribbled (spaces₂.vm.leaf_facts filled₂).2.2.1
              (spaces₂.apart _ filled₂) new
            refine wp_imp (ih (done + n) after (opened_writers h opened alone) (by rwa [cr3])
              (by omega) (by omega)) ?_
            rintro result s' ⟨g', rest⟩
            exact ⟨g', rest.step h alone root top more size.symm at_.symm page filled opened with_
              after⟩
      · refine wp_seq (h.userPageForCopy_window inside) ?_
        rintro _ s₂ ⟨rfl, rfl⟩
        refine ⟨g, .stopped h alone le ?_⟩
        rw [first]
        exact not_opens_window h root (Spaces.inWindow_alignDown.mpr inside)
    · intro last
      exact ⟨g, .finished h alone (by omega)⟩

/-- With the kernel's own root loaded there is nothing to copy to. -/
theorem copyToUserLoop_kernel {halt : Kassert → MemState → Prop} {user : Word} {src : List Byte}
    (h : Spaces K reserved roots s g) (alone : WritersAlone g) (kernel : s.cr3 = K.pml4)
    (top : user.toNat + src.length ≤ 2 ^ 47) (more : 0 < src.length) :
    wp (copyToUserLoop user src src.length 0) (fun result s' => ∃ g',
      CopiedOut K reserved roots user src 0 s g result s' g') halt s := by
  have low : alignDown (user + BitVec.ofNat 64 0) pageSize < userSpaceTop := by
    rw [lt_userSpaceTop, alignDown_page_toNat, BitVec.add_zero]
    omega
  have closed := h.kernelRoot_supervisor low
  rw [← kernel] at closed
  obtain ⟨fuel, fuel_⟩ := Nat.exists_eq_succ_of_ne_zero (Nat.ne_of_gt more)
  rw [fuel_, copyToUserLoop, if_pos more]
  refine wp_seq (userPageForCopy_refused closed) ?_
  rintro _ s₂ ⟨rfl, rfl⟩
  refine ⟨g, .stopped h alone (Nat.zero_le _) ?_⟩
  rw [copyPages_step top more rfl]
  rintro ⟨f, maps, _⟩
  exact closed maps.1

theorem copyToUserLoop_inside {halt : Kassert → MemState → Prop} {user : Word} {src : List Byte}
    (h : Spaces K reserved roots s g) (alone : WritersAlone g) (more : 0 < src.length)
    (inside : RangeInside user.toNat src.length) :
    wp (copyToUserLoop user src src.length 0) (fun result s' => ∃ g',
      CopiedOut K reserved roots user src 0 s g result s' g') halt s := by
  have some_ : user ≠ 0#64 := by
    rintro rfl
    exact absurd inside.1 (by decide)
  rcases h.cur with kernel | root
  · exact copyToUserLoop_kernel h alone kernel inside.2 more
  · exact copyToUserLoop_copied some_ inside.2 src.length 0 h alone root (Nat.zero_le _) (by omega)

/-! ## Copies as the spaces see them -/

/-- What `copy_to_user` does, with the number of bytes that went over. It returns 0 exactly for a
range of pages that can be opened for writing. The bytes that went over are the first of the
source, all of them on success. They stand in the current space, and no space sees another
change. The frames that change are those of user pages of the range and the tables of these pages. -/
structure WritesExactly (roots : List Nat) (user : Word) (src : List Byte) (s : MemState)
    (result : Bool × Nat) (s' : MemState) : Prop where
  accepted : result.1 = true ↔ src.length = 0 ∨ RangeInside user.toNat src.length ∧
    Opens s.mem s.cr3 s.pmm.refcount s.pmm.freeFrames
      (pageRange (alignDown user pageSize) (user + BitVec.ofNat 64 src.length))
  whole : result.1 = true → result.2 = src.length
  part : result.2 ≤ src.length
  loads : ∀ r ∈ roots, ∀ v, v < userSpaceTop → userLoad s'.mem r v =
    if r = s.cr3 ∧ user.toNat ≤ v.toNat ∧ v.toNat < user.toNat + result.2
    then some (src.getD (v.toNat - user.toNat) 0#8) else userLoad s.mem r v
  frames : ∀ f, s'.mem f ≠ s.mem f →
    ∃ v ∈ pageRange (alignDown user pageSize) (user + BitVec.ofNat 64 src.length),
      MapsFrame s'.mem f s.cr3 v ∨ OwnedTable s.mem s.cr3 (pagePath v).tail f

theorem WritesExactly.nothing {user : Word} {src : List Byte} {ok : Bool}
    (accepted : ok = true ↔ src.length = 0 ∨ RangeInside user.toNat src.length ∧
      Opens s.mem s.cr3 s.pmm.refcount s.pmm.freeFrames
        (pageRange (alignDown user pageSize) (user + BitVec.ofNat 64 src.length)))
    (whole : ok = true → src.length = 0) : WritesExactly roots user src s (ok, 0) s where
  accepted := accepted
  whole := fun yes => (whole yes).symm
  part := Nat.zero_le _
  loads := by
    intro r _ v _
    dsimp only
    rw [if_neg (by omega)]
  frames := fun _ changed => absurd rfl changed

theorem CopiedOut.exact {user : Word} {src : List Byte} {result : Bool × Nat}
    (h : Spaces K reserved roots s g) (more : 0 < src.length)
    (inside : RangeInside user.toNat src.length)
    (copied : CopiedOut K reserved roots user src 0 s g result s' g') :
    WritesExactly roots user src s result s' := by
  have pages : copyPages user src.length 0 =
      pageRange (alignDown user pageSize) (user + BitVec.ofNat 64 src.length) := by
    rw [copyPages, if_pos more, BitVec.add_zero]
  obtain ⟨spaces, _, cr3, _, accepted, ⟨_, part⟩, whole, loads, _, frames, _, _⟩ := copied
  rw [pages] at accepted frames
  refine ⟨?_, whole, part, loads, ?_⟩
  · rw [accepted, and_iff_right inside]
    exact (or_iff_right (Nat.ne_of_gt more)).symm
  · intro f changed
    obtain ⟨v, member, found⟩ := frames f changed
    refine ⟨v, member, ?_⟩
    rcases found with ⟨filled, frame⟩ | table
    · exact .inl ((spaces.mapsFrame_iff (spaces.leaf_page filled).1
        (spaces.userPage_of_leaf filled)).mpr ⟨filled, frame⟩)
    · exact .inr (h.owned_of_role table)

theorem copyToUser_exact (h : Spaces K reserved roots s g) (alone : WritableAlone roots s)
    (user : Word) (src : List Byte) :
    ∃ result s', copyToUser user src s = .ok result s' ∧
      WritesExactly roots user src s result s' := by
  refine exists_run ?_
  unfold copyToUser
  apply wp_ite
  · intro empty
    exact .nothing (iff_of_true rfl (.inl empty)) (fun _ => empty)
  intro more
  apply wp_ite
  · intro outside
    refine .nothing (iff_of_false (by decide) ?_) nofun
    rintro (empty | ⟨⟨low, high⟩, _⟩)
    · exact more empty
    · rcases outside with rfl | past | long
      · exact absurd low (by decide)
      · rw [BitVec.le_def, userSpaceTop_toNat] at past
        omega
      · rw [userSpaceTop_toNat] at long
        omega
  · intro inside
    rw [not_or, not_or, BitVec.not_le, lt_userSpaceTop, userSpaceTop_toNat] at inside
    have start : user.toNat ≠ 0 := fun zero => inside.1 (BitVec.eq_of_toNat_eq zero)
    have range : RangeInside user.toNat src.length := ⟨by omega, by omega⟩
    refine wp_imp (copyToUserLoop_inside h (alone.writers h) (by omega) range) ?_
    rintro result s' ⟨g', done⟩
    exact done.exact h (by omega) range

/-- **User copies are exact and confined.** In every state whose page tables are in order and
whose writable user pages have their frames to themselves, for every user address and length. -/
theorem user_copies_exact (h : Spaces K reserved roots s g) (alone : WritableAlone roots s)
    (user : Word) :
    (∀ len, ReadsExactly s.mem s.cr3 user len) ∧
    ∀ src, ∃ result s', copyToUser user src s = .ok result s' ∧
      WritesExactly roots user src s result s' :=
  ⟨readsExactly s.mem s.cr3 user, copyToUser_exact h alone user⟩

/-- No frame of the small machine is shared. -/
theorem smallTask_alone (h : Spaces K reserved roots smallTask.mm g) :
    WritableAlone roots smallTask.mm := by
  intro r root v f below maps _
  obtain ⟨filled, rfl⟩ := (h.mapsFrame_iff root (h.userPage_of_maps root below maps)).mp maps
  obtain ⟨_, lt, _, pos⟩ := h.vm.leaf_facts filled
  have total : smallTask.mm.pmm.totalFrames = 64 := by decide +kernel
  have most : ∀ f, f < 64 → smallTask.mm.pmm.refcount f ≤ 1 := by decide +kernel
  rw [total] at lt
  have one := most _ lt
  omega

/-- Three bytes to the stack of the task of the small machine. -/
theorem user_copies_exact_stack :
    ∃ reserved roots g, Spaces smallTables reserved roots smallTask.mm g ∧
      WritableAlone roots smallTask.mm ∧
      ∃ s', copyToUser 0x400FF100#64 [1#8, 2#8, 3#8] smallTask.mm = .ok (true, 3) s' ∧
        userLoad s'.mem smallTask.mm.cr3 0x400FF102#64 = some 3#8 := by
  obtain ⟨roots, ⟨_, g, system⟩, root, _⟩ := smallUser_sound
  have alone := smallTask_alone system.toSpaces
  obtain ⟨result, s', ran, exact_⟩ :=
    (user_copies_exact system.toSpaces alone 0x400FF100#64).2 [1#8, 2#8, 3#8]
  have value : resultValue (copyToUser 0x400FF100#64 [1#8, 2#8, 3#8] smallTask.mm) =
      some (true, 3) := by decide +kernel
  have loaded : smallTask.mm.cr3 = smallUser.cr3 := by decide +kernel
  rw [ran] at value
  obtain rfl : result = (true, 3) := Option.some.inj value
  refine ⟨_, roots, g, system.toSpaces, alone, s', ran, ?_⟩
  rw [exact_.loads _ (by rwa [loaded]) _ (by decide)]
  rfl

end LithiumKernel.Syscall
