import LithiumKernel.Lib.ArgVec
import LithiumKernel.Mm.UserMemory

/-!
# Copying from the user (kernel/syscall/syscall.c)

`copy_from_user` goes page by page: it looks the page up, and reads the frame behind it. The
specification is the memory as the program itself sees it, `userBytes`: what is copied stands
there from the address of the source on. This needs nothing of the page tables, since bytes
of one page are next to each other in memory whatever the size of the page is.
-/
namespace LithiumKernel.Syscall

open LithiumKernel.Lib LithiumKernel.Lib.ByteMem LithiumKernel.Mm

/-- The error numbers of the calls, negated in the source. -/
inductive Errno where
  | enoent
  | e2big
  | enoexec
  | enomem
  | efault
  | einval
  deriving DecidableEq, Repr

/-- `user_page_for_copy` with `write` clear; `none` stands for `-EFAULT`. -/
def userPageForRead (mem : PhysMem) (root : Nat) (addr : Word) : Option Word :=
  if addr = 0#64 ∨ userSpaceTop ≤ addr then none
  else if vmmGetFlags mem root (alignDown addr pageSize) &&& presentUser ≠ presentUser then none
  else vmmGetPhysical mem root addr

def physByte (mem : PhysMem) (phys : Word) : Byte :=
  getByte (mem (phys.toNat / pmmFrameSize)) (phys.toNat % pmmFrameSize)

/-- `memcpy` from a physical address. -/
def readBytes (mem : PhysMem) : Word → Nat → List Byte
  | _, 0 => []
  | phys, n + 1 => physByte mem phys :: readBytes mem (phys + 1#64) n

/-- The loop of `copy_user_bytes` from the user. Every round copies at least one byte, so
`len` rounds suffice. -/
def copyFromUserLoop (mem : PhysMem) (root : Nat) (user : Word) (len : Nat) :
    Nat → Nat → Option (List Byte)
  | 0, _ => some []
  | fuel + 1, done =>
    if done < len then
      let cur := user + BitVec.ofNat 64 done
      match userPageForRead mem root cur with
      | none => none
      | some phys =>
        let n := min (4096 - cur.toNat % 4096) (len - done)
        (copyFromUserLoop mem root user len fuel (done + n)).map (readBytes mem phys n ++ ·)
    else some []

/-- The same loop with what it has put into the buffer when it returns, also when it fails. -/
def copiedFromUserLoop (mem : PhysMem) (root : Nat) (user : Word) (len : Nat) :
    Nat → Nat → Bool × List Byte
  | 0, _ => (true, [])
  | fuel + 1, done =>
    if done < len then
      let cur := user + BitVec.ofNat 64 done
      match userPageForRead mem root cur with
      | none => (false, [])
      | some phys =>
        let n := min (4096 - cur.toNat % 4096) (len - done)
        let rest := copiedFromUserLoop mem root user len fuel (done + n)
        (rest.1, readBytes mem phys n ++ rest.2)
    else (true, [])

def copyFromUser (mem : PhysMem) (root : Nat) (user : Word) (len : Nat) : Option (List Byte) :=
  if len = 0 then some []
  else if user = 0#64 ∨ userSpaceTop ≤ user ∨ userSpaceTop.toNat - user.toNat < len then none
  else copyFromUserLoop mem root user len len 0

/-- `copy_from_user` with its return value, `true` for 0, and the bytes it has put into the
buffer. -/
def copiedFromUser (mem : PhysMem) (root : Nat) (user : Word) (len : Nat) : Bool × List Byte :=
  if len = 0 then (true, [])
  else if user = 0#64 ∨ userSpaceTop ≤ user ∨ userSpaceTop.toNat - user.toNat < len then (false, [])
  else copiedFromUserLoop mem root user len len 0

/-- The loop of `copy_user_string`, with the room that is left and the index it has reached. -/
def copyUserStringFrom (mem : PhysMem) (root : Nat) (src : Word) :
    Nat → Nat → Except Errno CString
  | 0, _ => .error .einval
  | room + 1, i =>
    match copyFromUser mem root (src + BitVec.ofNat 64 i) 1 with
    | none => .error .efault
    | some bytes =>
      let c := bytes.headD 0#8
      if c = 0#8 then .ok [] else (copyUserStringFrom mem root src room (i + 1)).map (c :: ·)

def copyUserString (mem : PhysMem) (root : Nat) (src : Word) (size : Nat) : Except Errno CString :=
  copyUserStringFrom mem root src size 0

/-! ## The memory of the program -/

/-- Memory as a program of the address space sees it. -/
def userBytes (mem : PhysMem) (root : Nat) : ByteMem :=
  fun a => if a < 2 ^ 64 then userLoad mem root (BitVec.ofNat 64 a) else none

variable {mem : PhysMem} {root : Nat}

theorem userBytes_toNat (v : Word) : userBytes mem root v.toNat = userLoad mem root v := by
  rw [userBytes, if_pos v.isLt, BitVec.ofNat_toNat, BitVec.setWidth_eq]

/-! ## Addresses of one page -/

theorem and_clear (e : Word) {mask : Word} {k : Nat} (clear : mask.toNat % 2 ^ k = 0) :
    (e &&& mask).toNat % 2 ^ k = 0 := by
  rw [BitVec.toNat_and, Nat.and_mod_two_pow, clear, Nat.and_zero]

theorem or_offset (high v : Word) {k : Nat} (small : k < 64)
    (clear : high.toNat % 2 ^ k = 0) :
    (high ||| (v &&& BitVec.ofNat 64 (2 ^ k - 1))).toNat = high.toNat + v.toNat % 2 ^ k := by
  have lt : 2 ^ k < 2 ^ 64 := Nat.pow_lt_pow_right (by decide) small
  have parts : 2 ^ k * (high.toNat / 2 ^ k) = high.toNat :=
    Nat.mul_div_cancel' (Nat.dvd_of_mod_eq_zero clear)
  rw [BitVec.toNat_or, BitVec.toNat_and, BitVec.toNat_ofNat, Nat.mod_eq_of_lt (by omega),
    Nat.and_two_pow_sub_one_eq_mod, ← parts]
  exact (Nat.two_pow_add_eq_or_of_lt (Nat.mod_lt _ (Nat.two_pow_pos k)) _).symm

/-- The physical addresses of a page are in the order of its virtual ones. -/
theorem offset_succ {high v : Word} {k : Nat} (small : k < 64) (page : 12 ≤ k)
    (clear : high.toNat % 2 ^ k = 0) (room : v.toNat % 4096 + 1 < 4096) :
    high ||| (v + 1#64 &&& BitVec.ofNat 64 (2 ^ k - 1)) =
      (high ||| (v &&& BitVec.ofNat 64 (2 ^ k - 1))) + 1#64 := by
  have above := or_offset high (v + 1#64) small clear
  have here := or_offset high v small clear
  obtain ⟨j, rfl⟩ := Nat.exists_eq_add_of_le page
  have modulus : 2 ^ (12 + j) = 4096 * 2 ^ j := Nat.pow_add 2 12 j
  have next : (v.toNat + 1) % 2 ^ (12 + j) = v.toNat % 2 ^ (12 + j) + 1 := by
    rw [modulus, Nat.mod_mul, Nat.mod_mul, show (v.toNat + 1) / 4096 = v.toNat / 4096 by omega]
    omega
  apply BitVec.eq_of_toNat_eq
  rw [add_one_toNat room, next] at above
  rw [above, BitVec.toNat_add, here]
  have bound := (high ||| (v + 1#64 &&& BitVec.ofNat 64 (2 ^ (12 + j) - 1))).isLt
  rw [above] at bound
  exact (Nat.mod_eq_of_lt bound).symm

theorem pagePath_succ {v : Word} (room : v.toNat % 4096 + 1 < 4096) :
    pagePath (v + 1#64) = pagePath v := by
  apply pagePath_congr
  rw [add_one_toNat room]
  omega

/-- Translation of the next address, whatever the size of the page is. -/
theorem vmmGetPhysical_succ {v phys : Word} (room : v.toNat % 4096 + 1 < 4096)
    (here : vmmGetPhysical mem root v = some phys) :
    vmmGetPhysical mem root (v + 1#64) = some (phys + 1#64) := by
  have path := pagePath_succ room
  simp only [pagePath, List.cons.injEq, and_true] at path
  obtain ⟨pt, pd, pdpt, pml4⟩ := path
  unfold vmmGetPhysical at here ⊢
  simp only [pt, pd, pdpt, pml4]
  split at here
  · cases here
  rename_i top
  rw [if_neg top]
  dsimp only at here ⊢
  split at here
  · cases here
  rename_i present₃
  rw [if_neg present₃]
  split at here
  · rename_i huge₃
    obtain rfl := Option.some.inj here
    rw [if_pos huge₃]
    exact congrArg some
      (offset_succ (k := 30) (by decide) (by decide) (and_clear _ (by decide)) room)
  rename_i huge₃
  rw [if_neg huge₃]
  split at here
  · cases here
  rename_i present₂
  rw [if_neg present₂]
  split at here
  · rename_i huge₂
    obtain rfl := Option.some.inj here
    rw [if_pos huge₂]
    exact congrArg some
      (offset_succ (k := 21) (by decide) (by decide) (and_clear _ (by decide)) room)
  rename_i huge₂
  rw [if_neg huge₂]
  split at here
  · cases here
  rename_i present₁
  obtain rfl := Option.some.inj here
  rw [if_neg present₁]
  exact congrArg some
    (offset_succ (k := 12) (by decide) (by decide) (and_clear _ (by decide)) room)

theorem vmmGetFlags_path {v w : Word} (same : pagePath v = pagePath w) :
    vmmGetFlags mem root v = vmmGetFlags mem root w := by
  simp only [pagePath, List.cons.injEq, and_true] at same
  unfold vmmGetFlags
  simp only [same.1, same.2.1, same.2.2.1, same.2.2.2]

/-- The user may read the address, and finds it there. -/
def ReadableAt (mem : PhysMem) (root : Nat) (v phys : Word) : Prop :=
  vmmGetFlags mem root v &&& presentUser = presentUser ∧ vmmGetPhysical mem root v = some phys

theorem ReadableAt.succ {v phys : Word} (h : ReadableAt mem root v phys)
    (room : v.toNat % 4096 + 1 < 4096) : ReadableAt mem root (v + 1#64) (phys + 1#64) := by
  refine ⟨?_, vmmGetPhysical_succ room h.2⟩
  rw [vmmGetFlags_path (pagePath_succ room)]
  exact h.1

theorem ReadableAt.load {v phys : Word} (h : ReadableAt mem root v phys) :
    userLoad mem root v = some (physByte mem phys) := by
  rw [userLoad, if_pos h.1, h.2]
  rfl

theorem userPageForRead_readable {addr phys : Word}
    (found : userPageForRead mem root addr = some phys) : ReadableAt mem root addr phys := by
  unfold userPageForRead at found
  split at found
  · cases found
  split at found
  · cases found
  rename_i user
  rw [vmmGetFlags_path (pagePath_alignDown addr)] at user
  exact ⟨not_not.mp user, found⟩

/-! ## What is copied -/

theorem readBytes_length (phys : Word) (n : Nat) : (readBytes mem phys n).length = n := by
  induction n generalizing phys with
  | zero => rfl
  | succ n ih => rw [readBytes, List.length_cons, ih]

theorem ReadableAt.bytes {v phys : Word} {n : Nat} (h : ReadableAt mem root v phys)
    (inside : v.toNat % 4096 + n ≤ 4096) :
    Bytes (userBytes mem root) v.toNat (readBytes mem phys n) := by
  induction n generalizing v phys with
  | zero => trivial
  | succ n ih =>
    refine ⟨(userBytes_toNat v).trans h.load, ?_⟩
    cases n with
    | zero => trivial
    | succ n =>
      have room : v.toNat % 4096 + 1 < 4096 := by omega
      have next := add_one_toNat room
      have rest := ih (h.succ room) (by rw [next]; omega)
      rwa [next] at rest

/-- What is in the buffer stands in the user's memory, however the loop ends. -/
theorem copiedFromUserLoop_bytes {user : Word} {len : Nat} (fits : user.toNat + len < 2 ^ 64)
    (fuel done : Nat) (enough : len - done ≤ fuel) :
    let result := copiedFromUserLoop mem root user len fuel done
    result.2.length ≤ len - done ∧ (result.1 = true → result.2.length = len - done) ∧
      Bytes (userBytes mem root) (user.toNat + done) result.2 := by
  induction fuel generalizing done with
  | zero => exact ⟨Nat.zero_le _, fun _ => (Nat.le_zero.mp enough).symm, trivial⟩
  | succ fuel ih =>
    rw [copiedFromUserLoop]
    split
    · rename_i more
      have cur : (user + BitVec.ofNat 64 done).toNat = user.toNat + done := by
        rw [BitVec.toNat_add, BitVec.toNat_ofNat]
        omega
      dsimp only
      split
      · exact ⟨Nat.zero_le _, nofun, trivial⟩
      · rename_i phys found
        rw [cur]
        generalize size : min (4096 - (user.toNat + done) % 4096) (len - done) = n
        obtain ⟨short, whole, stands⟩ := ih (done + n) (by omega)
        have first := (userPageForRead_readable found).bytes (n := n) (by rw [cur]; omega)
        rw [cur] at first
        dsimp only
        rw [List.length_append, readBytes_length]
        refine ⟨by omega, fun ok => ?_, first.append ?_⟩
        · have length := whole ok
          omega
        · rwa [readBytes_length, Nat.add_assoc]
    · exact ⟨Nat.zero_le _, fun _ => by rw [List.length_nil]; omega, trivial⟩

theorem copyFromUserLoop_eq (user : Word) (len fuel done : Nat) :
    copyFromUserLoop mem root user len fuel done =
      if (copiedFromUserLoop mem root user len fuel done).1
      then some (copiedFromUserLoop mem root user len fuel done).2 else none := by
  induction fuel generalizing done with
  | zero => rfl
  | succ fuel ih =>
    rw [copyFromUserLoop, copiedFromUserLoop]
    split
    · cases page : userPageForRead mem root (user + BitVec.ofNat 64 done) with
      | none =>
        simp only [page]
        rfl
      | some phys =>
        simp only [page, ih]
        split <;> rfl
    · rfl

/-- A failed call returns nothing to work with, so callers see `copyFromUser`. -/
theorem copyFromUser_eq (user : Word) (len : Nat) :
    copyFromUser mem root user len =
      if (copiedFromUser mem root user len).1 then some (copiedFromUser mem root user len).2
      else none := by
  unfold copyFromUser copiedFromUser
  split
  · rfl
  split
  · rfl
  · exact copyFromUserLoop_eq user len len 0

/-- What `copy_from_user` puts into the buffer is what the program has there. -/
theorem copiedFromUser_bytes (user : Word) (len : Nat) :
    let result := copiedFromUser mem root user len
    result.2.length ≤ len ∧ (result.1 = true → result.2.length = len) ∧
      Bytes (userBytes mem root) user.toNat result.2 := by
  unfold copiedFromUser
  split
  · rename_i empty
    exact ⟨Nat.zero_le _, fun _ => empty.symm, trivial⟩
  split
  · exact ⟨Nat.zero_le _, nofun, trivial⟩
  · rename_i inside
    rw [not_or, not_or, BitVec.not_le, BitVec.lt_def] at inside
    have top : userSpaceTop.toNat = 2 ^ 47 := rfl
    exact copiedFromUserLoop_bytes (by omega) len 0 (by omega)

/-- What `copy_from_user` copies is what the program has there, below the end of user space. -/
theorem copyFromUser_bytes {user : Word} {len : Nat} {bytes : List Byte} (some_ : 0 < len)
    (copied : copyFromUser mem root user len = some bytes) :
    bytes.length = len ∧ user.toNat + len ≤ 2 ^ 47 ∧
      Bytes (userBytes mem root) user.toNat bytes := by
  have inside : ¬ (user = 0#64 ∨ userSpaceTop ≤ user ∨ userSpaceTop.toNat - user.toNat < len) := by
    intro outside
    rw [copyFromUser, if_neg (by omega), if_pos outside] at copied
    cases copied
  obtain ⟨_, whole, stands⟩ := @copiedFromUser_bytes mem root user len
  rw [copyFromUser_eq] at copied
  split at copied
  · rename_i ok
    obtain rfl := Option.some.inj copied
    rw [not_or, not_or, BitVec.not_le, BitVec.lt_def] at inside
    have top : userSpaceTop.toNat = 2 ^ 47 := rfl
    exact ⟨whole ok, by omega, stands⟩
  · cases copied

theorem copyUserStringFrom_text {src : Word} {room i : Nat} {s : CString}
    (fits : src.toNat + i < 2 ^ 64)
    (copied : copyUserStringFrom mem root src room i = .ok s) :
    Text (userBytes mem root) (src.toNat + i) s ∧ s.length < room := by
  induction room generalizing i s with
  | zero => cases copied
  | succ room ih =>
    have address : (src + BitVec.ofNat 64 i).toNat = src.toNat + i := by
      rw [BitVec.toNat_add, BitVec.toNat_ofNat]
      omega
    unfold copyUserStringFrom at copied
    split at copied
    · cases copied
    · rename_i bytes one
      obtain ⟨length, below, stands⟩ := copyFromUser_bytes (by decide) one
      obtain ⟨c, rfl⟩ := List.length_eq_one_iff.mp length
      rw [address] at below stands
      dsimp only [List.headD_cons] at copied
      split at copied
      · rename_i zero
        obtain rfl := Except.ok.inj copied
        rw [zero] at stands
        exact ⟨stands.1, Nat.succ_pos room⟩
      · rename_i more
        cases rest : copyUserStringFrom mem root src room (i + 1) with
        | error e =>
          rw [rest] at copied
          cases copied
        | ok cs =>
          rw [rest] at copied
          obtain rfl := Except.ok.inj copied
          obtain ⟨text, short⟩ := ih (by omega) rest
          exact ⟨⟨stands.1, more, text⟩, Nat.succ_lt_succ short⟩

/-- What `copy_user_string` copies is the string the program has there. -/
theorem copyUserString_text {src : Word} {size : Nat} {s : CString}
    (copied : copyUserString mem root src size = .ok s) :
    Text (userBytes mem root) src.toNat s ∧ s.length < size :=
  copyUserStringFrom_text src.isLt copied

end LithiumKernel.Syscall
