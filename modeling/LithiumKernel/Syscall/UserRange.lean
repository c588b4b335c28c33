import LithiumKernel.Syscall.Memory
import LithiumKernel.Syscall.UserCopy

/-!
# The two checks of a user range (kernel/syscall/syscall.c)

`user_range_ok` goes over the pages of a range and asks for the flags of each. `copy_from_user`
goes over its bytes, as many at a time as a page has left, and gives up at the first page that
is not there. Each check is brought to the same form, that every byte of the range is on a page
the user can reach, so they accept the same ranges whatever the page tables contain.
-/
namespace LithiumKernel.Syscall

open LithiumKernel.Lib LithiumKernel.Mm

/-! ## The loop of the source -/

/-- The loop of `user_range_ok` from `page` on, with `end` for the last byte of the range. -/
def userRangeScan (mem : PhysMem) (pml4 : Nat) (end_ : Word) : Nat → Word → Bool
  | 0, _ => true
  | fuel + 1, page =>
    if end_ < page then true
    else if vmmGetFlags mem pml4 page &&& presentUser ≠ presentUser then false
    else if userSpaceTop - pageSize < page then true
    else userRangeScan mem pml4 end_ fuel (page + pageSize)

/-- `user_range_ok` with its loop; a range has at most `len / 4096 + 2` pages. -/
def userRangeOkLoop (mem : PhysMem) (pml4 : Nat) (start len : Word) : Bool :=
  if len = 0#64 then true
  else if start = 0#64 ∨ userSpaceTop ≤ start then false
  else if userSpaceTop - start < len then false
  else userRangeScan mem pml4 (start + len - 1#64) (len.toNat / 4096 + 2) (alignDown start pageSize)

variable {mem : PhysMem} {root : Nat}

/-! ## Pages and bytes -/

/-- Every byte of the range is on a page the user can reach. -/
def RangeMapped (mem : PhysMem) (root : Nat) (start len : Nat) : Prop :=
  ∀ a, start ≤ a → a < start + len → UserMapped mem root (BitVec.ofNat 64 a)

theorem UserMapped.same_page {v w : Word} (same : v.toNat / 4096 = w.toNat / 4096) :
    UserMapped mem root v ↔ UserMapped mem root w := by
  rw [UserMapped, UserMapped, vmmGetFlags_path (pagePath_congr same)]

/-- The lookups of flags and of the address take the same way. -/
theorem UserMapped.physical {v : Word} (mapped : UserMapped mem root v) :
    ∃ phys, vmmGetPhysical mem root v = some phys := by
  have absent : ¬ (0#64 &&& presentUser = presentUser) := by decide
  unfold UserMapped vmmGetFlags at mapped
  unfold vmmGetPhysical
  split at mapped
  · exact absurd mapped absent
  rename_i present₄
  rw [if_neg present₄]
  dsimp only at mapped ⊢
  split at mapped
  · exact absurd mapped absent
  rename_i present₃
  rw [if_neg present₃]
  split at mapped
  · rename_i huge₃
    rw [if_pos huge₃]
    exact ⟨_, rfl⟩
  rename_i huge₃
  rw [if_neg huge₃]
  split at mapped
  · exact absurd mapped absent
  rename_i present₂
  rw [if_neg present₂]
  split at mapped
  · rename_i huge₂
    rw [if_pos huge₂]
    exact ⟨_, rfl⟩
  rename_i huge₂
  rw [if_neg huge₂]
  split at mapped
  · exact absurd mapped absent
  rename_i present₁
  rw [if_neg present₁]
  exact ⟨_, rfl⟩

theorem toNat_ofNat_low {a : Nat} (low : a < 2 ^ 64) : (BitVec.ofNat 64 a).toNat = a := by
  rw [BitVec.toNat_ofNat, Nat.mod_eq_of_lt low]

/-- The bytes up to the end of a page are mapped if one of them is. -/
theorem RangeMapped.split {start len n : Nat} (some_ : 0 < n) (fits : n ≤ len)
    (page : start % 4096 + n ≤ 4096) (top : start + len < 2 ^ 64) :
    RangeMapped mem root start len ↔
      UserMapped mem root (BitVec.ofNat 64 start) ∧ RangeMapped mem root (start + n) (len - n) := by
  constructor
  · intro all
    exact ⟨all start (le_refl _) (by omega), fun a low high => all a (by omega) (by omega)⟩
  · intro both a low high
    by_cases near : a < start + n
    · refine (UserMapped.same_page ?_).mp both.1
      rw [toNat_ofNat_low (by omega), toNat_ofNat_low (by omega)]
      omega
    · exact both.2 a (by omega) (by omega)

/-! ## `copy_from_user` -/

theorem userPageForRead_iff {v : Word} (pos : v ≠ 0#64) (below : v < userSpaceTop) :
    (userPageForRead mem root v).isSome = true ↔ UserMapped mem root v := by
  have inside : ¬ (v = 0#64 ∨ userSpaceTop ≤ v) := by
    rw [not_or, BitVec.not_le]
    exact ⟨pos, below⟩
  rw [userPageForRead, if_neg inside, vmmGetFlags_path (pagePath_alignDown v)]
  by_cases mapped : UserMapped mem root v
  · obtain ⟨phys, found⟩ := mapped.physical
    rw [UserMapped] at mapped
    rw [if_neg (not_not.mpr mapped), found]
    exact iff_of_true rfl mapped
  · have refused := mapped
    rw [UserMapped] at refused
    rw [if_pos refused]
    exact iff_of_false (by decide) mapped

theorem copyFromUserLoop_iff {user : Word} {len fuel done : Nat} (pos : user ≠ 0#64)
    (top : user.toNat + len ≤ 2 ^ 47) (enough : len - done ≤ fuel) :
    (copyFromUserLoop mem root user len fuel done).isSome = true ↔
      RangeMapped mem root (user.toNat + done) (len - done) := by
  induction fuel generalizing done with
  | zero =>
    refine iff_of_true rfl ?_
    intro a low high
    omega
  | succ fuel ih =>
    rw [copyFromUserLoop]
    by_cases more : done < len
    · have cur : (user + BitVec.ofNat 64 done).toNat = user.toNat + done := by
        rw [BitVec.toNat_add, BitVec.toNat_ofNat]
        omega
      have value : user + BitVec.ofNat 64 done = BitVec.ofNat 64 (user.toNat + done) := by
        apply BitVec.eq_of_toNat_eq
        rw [cur, toNat_ofNat_low (by omega)]
      have first : (user.toNat + done) ≠ 0 := by
        intro zero
        exact pos (BitVec.eq_of_toNat_eq (show user.toNat = 0 by omega))
      have found : (userPageForRead mem root (BitVec.ofNat 64 (user.toNat + done))).isSome = true ↔
          UserMapped mem root (BitVec.ofNat 64 (user.toNat + done)) := by
        apply userPageForRead_iff
        · intro zero
          exact first (by rw [← cur, value, zero]; rfl)
        · rw [lt_userSpaceTop, toNat_ofNat_low (by omega)]
          omega
      rw [if_pos more]
      dsimp only
      rw [cur, value]
      generalize size : min (4096 - (user.toNat + done) % 4096) (len - done) = n
      rw [RangeMapped.split (n := n) (by omega) (by omega) (by omega) (by omega), ← found]
      have rest : (copyFromUserLoop mem root user len fuel (done + n)).isSome = true ↔
          RangeMapped mem root (user.toNat + (done + n)) (len - (done + n)) := ih (by omega)
      rw [← Nat.add_assoc, show len - (done + n) = len - done - n by omega] at rest
      rw [← rest]
      cases userPageForRead mem root (BitVec.ofNat 64 (user.toNat + done)) with
      | none => simp
      | some phys => simp
    · rw [if_neg more]
      refine iff_of_true rfl ?_
      intro a low high
      omega

/-- A range that lies in user space, without the address 0. -/
def RangeInside (start len : Nat) : Prop := 0 < start ∧ start + len ≤ 2 ^ 47

theorem copyFromUser_iff {user : Word} {len : Nat} (some_ : 0 < len) :
    (copyFromUser mem root user len).isSome = true ↔
      RangeInside user.toNat len ∧ RangeMapped mem root user.toNat len := by
  have top : userSpaceTop.toNat = 2 ^ 47 := rfl
  rw [copyFromUser, if_neg (by omega)]
  by_cases outside : user = 0#64 ∨ userSpaceTop ≤ user ∨ userSpaceTop.toNat - user.toNat < len
  · rw [if_pos outside]
    refine iff_of_false (by decide) ?_
    rintro ⟨⟨pos, below⟩, _⟩
    rcases outside with rfl | high | long
    · exact absurd pos (by decide)
    · rw [BitVec.le_def] at high
      omega
    · omega
  · rw [if_neg outside]
    rw [not_or, not_or, BitVec.not_le, BitVec.lt_def] at outside
    have pos : user.toNat ≠ 0 := fun zero => outside.1 (BitVec.eq_of_toNat_eq zero)
    rw [copyFromUserLoop_iff outside.1 (by omega) (by omega), Nat.add_zero, Nat.sub_zero]
    exact (and_iff_right ⟨by omega, by omega⟩).symm

/-! ## `user_range_ok` -/

theorem userRangeScan_iff {end_ : Word} {fuel : Nat} {page : Word}
    (aligned : page.toNat % 4096 = 0) (below : end_.toNat < 2 ^ 47)
    (enough : end_.toNat + 1 - page.toNat ≤ fuel * 4096) :
    userRangeScan mem root end_ fuel page = true ↔
      RangeMapped mem root page.toNat (end_.toNat + 1 - page.toNat) := by
  induction fuel generalizing page with
  | zero =>
    refine iff_of_true rfl ?_
    intro a low high
    omega
  | succ fuel ih =>
    rw [userRangeScan]
    by_cases past : end_ < page
    · rw [if_pos past]
      rw [BitVec.lt_def] at past
      refine iff_of_true rfl ?_
      intro a low high
      omega
    · rw [if_neg past]
      rw [BitVec.lt_def, not_lt] at past
      have here : page = BitVec.ofNat 64 page.toNat := by simp
      generalize size : min 4096 (end_.toNat + 1 - page.toNat) = n
      rw [RangeMapped.split (n := n) (by omega) (by omega) (by omega) (by omega), ← here]
      by_cases mapped : UserMapped mem root page
      · -- the page is below the top, so the break is never taken
        have last : ¬ userSpaceTop - pageSize < page := by
          rw [BitVec.lt_def]
          change ¬ 2 ^ 47 - 4096 < page.toNat
          omega
        have next : (page + pageSize).toNat = page.toNat + 4096 := by
          rw [BitVec.toNat_add]
          change (page.toNat + 4096) % 2 ^ 64 = _
          omega
        rw [and_iff_right mapped]
        rw [UserMapped] at mapped
        rw [if_neg (not_not.mpr mapped), if_neg last, ih (by omega) (by omega), next]
        constructor
        · intro rest a low high
          exact rest a (by omega) (by omega)
        · intro rest a low high
          exact rest a (by omega) (by omega)
      · have refused := mapped
        rw [UserMapped] at refused
        rw [if_pos refused]
        exact iff_of_false (by decide) (fun both => mapped both.1)

/-- The checks before the loop. -/
theorem range_checks {start len : Word} (some_ : len ≠ 0#64) (pages : Bool) :
    (if len = 0#64 then true
      else if start = 0#64 ∨ userSpaceTop ≤ start then false
      else if userSpaceTop - start < len then false
      else pages) = true ↔ RangeInside start.toNat len.toNat ∧ pages = true := by
  rw [if_neg some_]
  by_cases outside : start = 0#64 ∨ userSpaceTop ≤ start
  · rw [if_pos outside]
    refine iff_of_false (by decide) ?_
    intro ⟨⟨low, below⟩, _⟩
    rcases outside with rfl | high
    · exact absurd low (by decide)
    · rw [BitVec.le_def, userSpaceTop_toNat] at high
      have pos : len.toNat ≠ 0 := fun zero => some_ (BitVec.eq_of_toNat_eq zero)
      omega
  rw [if_neg outside]
  rw [not_or, BitVec.not_le, lt_userSpaceTop] at outside
  have first : start.toNat ≠ 0 := fun zero => outside.1 (BitVec.eq_of_toNat_eq zero)
  have left : (userSpaceTop - start).toNat = 2 ^ 47 - start.toNat := by
    rw [BitVec.toNat_sub, userSpaceTop_toNat]
    omega
  by_cases long : userSpaceTop - start < len
  · rw [if_pos long]
    rw [BitVec.lt_def, left] at long
    refine iff_of_false (by decide) ?_
    intro ⟨⟨_, below⟩, _⟩
    omega
  · rw [if_neg long]
    rw [BitVec.lt_def, left] at long
    exact (and_iff_right ⟨by omega, by omega⟩).symm

/-- From the first page of a range on, and from its first byte on. -/
theorem rangeMapped_page {start stop : Nat} (some_ : start < stop) (top : stop ≤ 2 ^ 47) :
    RangeMapped mem root (start / 4096 * 4096) (stop - start / 4096 * 4096) ↔
      RangeMapped mem root start (stop - start) := by
  constructor
  · intro all a low high
    exact all a (by omega) (by omega)
  · intro all a low high
    by_cases before : a < start
    · refine (UserMapped.same_page ?_).mp (all start (le_refl _) (by omega))
      rw [toNat_ofNat_low (by omega), toNat_ofNat_low (by omega)]
      omega
    · exact all a (by omega) (by omega)

theorem userRangeOkLoop_iff {start len : Word} (some_ : len ≠ 0#64) :
    userRangeOkLoop mem root start len = true ↔
      RangeInside start.toNat len.toNat ∧ RangeMapped mem root start.toNat len.toNat := by
  have pos : len.toNat ≠ 0 := fun zero => some_ (BitVec.eq_of_toNat_eq zero)
  rw [userRangeOkLoop, range_checks some_]
  refine and_congr_right ?_
  intro ⟨low, below⟩
  have end_ : (start + len - 1#64).toNat + 1 = start.toNat + len.toNat := by
    rw [BitVec.toNat_sub, BitVec.toNat_add]
    change (2 ^ 64 - 1 + _) % 2 ^ 64 + 1 = _
    omega
  have base := alignDown_page_toNat start
  rw [userRangeScan_iff (by omega) (by omega) (by omega), end_, base,
    rangeMapped_page (by omega) below, Nat.add_sub_cancel_left]

theorem userRangeOk_iff {start len : Word} (some_ : len ≠ 0#64) :
    userRangeOk mem root start len = true ↔
      RangeInside start.toNat len.toNat ∧ RangeMapped mem root start.toNat len.toNat := by
  have pos : len.toNat ≠ 0 := fun zero => some_ (BitVec.eq_of_toNat_eq zero)
  rw [userRangeOk, range_checks some_]
  refine and_congr_right ?_
  intro ⟨low, below⟩
  have stop : (start + len).toNat = start.toNat + len.toNat := by
    rw [BitVec.toNat_add]
    omega
  have base := alignDown_page_toNat start
  have pages : ∀ v : Word, v ∈ pageRange (alignDown start pageSize) (start + len) ↔
      v.toNat % 4096 = 0 ∧ start.toNat / 4096 * 4096 ≤ v.toNat ∧
        v.toNat < start.toNat + len.toNat := by
    intro v
    rw [mem_pageRange_iff (by omega) (by omega), base, stop]
  simp only [List.all_eq_true, decide_eq_true_eq, pages]
  constructor
  · intro all a from_ until_
    refine (UserMapped.same_page ?_).mp (all (BitVec.ofNat 64 (a / 4096 * 4096)) ?_)
    · rw [toNat_ofNat_low (by omega), toNat_ofNat_low (by omega)]
      omega
    · rw [toNat_ofNat_low (by omega)]
      omega
  · intro all v ⟨aligned, from_, until_⟩
    rw [← Nat.add_sub_cancel_left start.toNat len.toNat, ← rangeMapped_page (by omega) below] at all
    have here := all v.toNat from_ (by omega)
    rwa [BitVec.ofNat_toNat, BitVec.setWidth_eq] at here

/-- The break at the top of user space is never taken: the loop visits all pages of the range. -/
theorem userRangeOk_eq_loop (mem : PhysMem) (root : Nat) (start len : Word) :
    userRangeOk mem root start len = userRangeOkLoop mem root start len := by
  by_cases empty : len = 0#64
  · rw [userRangeOk, userRangeOkLoop, if_pos empty, if_pos empty]
  · rw [Bool.eq_iff_iff, userRangeOk_iff empty, userRangeOkLoop_iff empty]

/-- **Two validators, one set of ranges.** Whatever the page tables contain, `user_range_ok`
accepts a range exactly if `copy_from_user` copies it. -/
theorem user_range_validators_agree (mem : PhysMem) (root : Nat) (ptr len : Word) :
    userRangeOkLoop mem root ptr len = true ↔
      (copyFromUser mem root ptr len.toNat).isSome = true := by
  by_cases empty : len = 0#64
  · subst empty
    exact iff_of_true rfl rfl
  · have some_ : 0 < len.toNat :=
      Nat.pos_of_ne_zero fun zero => empty (BitVec.eq_of_toNat_eq zero)
    rw [userRangeOkLoop_iff empty, copyFromUser_iff some_]

end LithiumKernel.Syscall
