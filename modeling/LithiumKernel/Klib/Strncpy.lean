import Mathlib.Algebra.Group.Nat.Defs
import LithiumKernel.Lib.CString
import Mathlib.Logic.Function.Basic

/-!
# strncpy (lib/string.c)

The two loops of `strncpy` over a memory of bytes. They share the counter: the first loop stores the
terminator of a short source without counting it, so the second one writes a zero byte more than is
left. `Lib.strncpyBytes`, with which the names of the file system are copied, is what the loops
write.
-/
namespace LithiumKernel.Klib

open LithiumKernel.Lib

abbrev Ptr := BitVec 64
abbrev Memory := Ptr → BitVec 8

/-! ## The source -/

/-- `while (n && (*d++ = *src++)) n--;`, with `d` and `n` behind the loop. -/
def strncpyCopy (mem : Memory) (d src : Ptr) : Nat → Memory × Ptr × Nat
  | 0 => (mem, d, 0)
  | n + 1 =>
    let c := mem src
    let mem := Function.update mem d c
    if c = 0#8 then (mem, d + 1#64, n + 1) else strncpyCopy mem (d + 1#64) (src + 1#64) n

/-- `while (n--) *d++ = '\0';` -/
def strncpyPad (mem : Memory) (d : Ptr) : Nat → Memory
  | 0 => mem
  | n + 1 => strncpyPad (Function.update mem d 0#8) (d + 1#64) n

def strncpy (mem : Memory) (dst src : Ptr) (n : BitVec 64) : Memory :=
  let (mem, d, left) := strncpyCopy mem dst src n.toNat
  strncpyPad mem d left

/-! ## Strings and blocks in memory -/

/-- The byte `i` places behind `p`. -/
def byteAt (p : Ptr) (i : Nat) : Ptr := p + BitVec.ofNat 64 i

/-- The string `s` and its terminator stand at `p`. -/
def StrAt (mem : Memory) (p : Ptr) (s : CString) : Prop :=
  0#8 ∉ s ∧ (∀ i (lt : i < s.length), mem (byteAt p i) = s[i]) ∧ mem (byteAt p s.length) = 0#8

/-- The memory after storing the bytes from `p` on. -/
def writeBytes (mem : Memory) (p : Ptr) : List (BitVec 8) → Memory
  | [] => mem
  | b :: bs => writeBytes (Function.update mem p b) (p + 1#64) bs

theorem byteAt_zero (p : Ptr) : byteAt p 0 = p := BitVec.add_zero p

theorem byteAt_succ (p : Ptr) (i : Nat) : byteAt (p + 1#64) i = byteAt p (i + 1) := by
  apply BitVec.eq_of_toNat_eq
  simp only [byteAt, BitVec.toNat_add, BitVec.toNat_ofNat]
  omega

theorem byteAt_inj {p : Ptr} {i j : Nat} (lt : i < 2 ^ 64) (lt' : j < 2 ^ 64)
    (same : byteAt p i = byteAt p j) : i = j := by
  have value := congrArg BitVec.toNat same
  simp only [byteAt, BitVec.toNat_add, BitVec.toNat_ofNat] at value
  have := p.isLt
  omega

variable {mem : Memory} {p dst src : Ptr} {s : CString} {bs : List (BitVec 8)}

theorem writeBytes_off {a : Ptr} (off : ∀ i < bs.length, a ≠ byteAt p i) :
    writeBytes mem p bs a = mem a := by
  induction bs generalizing mem p with
  | nil => rfl
  | cons b bs ih =>
    rw [writeBytes, ih, Function.update_of_ne]
    · have first := off 0 (Nat.succ_pos _)
      rwa [byteAt_zero] at first
    · intro i lt
      rw [byteAt_succ]
      exact off (i + 1) (Nat.succ_lt_succ lt)

theorem writeBytes_at (small : bs.length ≤ 2 ^ 64) {i : Nat} (lt : i < bs.length) :
    writeBytes mem p bs (byteAt p i) = bs[i] := by
  induction bs generalizing mem p i with
  | nil => exact absurd lt (Nat.not_lt_zero i)
  | cons b bs ih =>
    rw [List.length_cons] at small lt
    cases i with
    | zero =>
      -- the later bytes do not come back to the first
      rw [byteAt_zero, writeBytes, writeBytes_off, Function.update_self]
      · rfl
      · intro j within same
        rw [byteAt_succ] at same
        nth_rewrite 1 [← byteAt_zero p] at same
        exact absurd (byteAt_inj (by omega) (by omega) same) (by omega)
    | succ i =>
      rw [writeBytes, ← byteAt_succ, ih (by omega) (by omega)]
      rfl

/-! ## What the loops write -/

theorem strncpyPad_eq (mem : Memory) (d : Ptr) (n : Nat) :
    strncpyPad mem d n = writeBytes mem d (List.replicate n 0#8) := by
  induction n generalizing mem d with
  | zero => rfl
  | succ n ih => rw [strncpyPad, ih, List.replicate_succ, writeBytes]

/-- The bytes of the source that the first loop reads. -/
def Source (mem : Memory) : Ptr → CString → Nat → Prop
  | _, _, 0 => True
  | p, [], _ + 1 => mem p = 0#8
  | p, c :: s, n + 1 => c ≠ 0#8 ∧ mem p = c ∧ Source mem (p + 1#64) s n

/-- No byte of the source is overwritten before it is read: the destination does not begin inside
the source, or ends before that matters. -/
def ReadFirst (dst src : Ptr) (s : CString) (n : Nat) : Prop :=
  ∀ i, i < n → i ≤ s.length → ∀ j < i, byteAt dst j ≠ byteAt src i

theorem StrAt.tail {c : BitVec 8} (h : StrAt mem p (c :: s)) : StrAt mem (p + 1#64) s := by
  obtain ⟨clean, bytes, stop⟩ := h
  refine ⟨fun member => clean (List.mem_cons_of_mem c member), fun i lt => ?_, ?_⟩
  · rw [byteAt_succ]
    exact bytes (i + 1) (Nat.succ_lt_succ lt)
  · rw [byteAt_succ]
    exact stop

theorem StrAt.source (h : StrAt mem p s) (n : Nat) : Source mem p s n := by
  induction n generalizing p s with
  | zero => cases s <;> exact trivial
  | succ n ih =>
    cases s with
    | nil =>
      have stop := h.2.2
      rwa [List.length_nil, byteAt_zero] at stop
    | cons c s =>
      have first := h.2.1 0 (Nat.succ_pos _)
      rw [byteAt_zero] at first
      refine ⟨?_, first, ih h.tail⟩
      rintro rfl
      exact h.1 (List.mem_cons_self ..)

theorem Source.congr {mem' : Memory} {n : Nat} (h : Source mem p s n)
    (same : ∀ i, i < n → i ≤ s.length → mem' (byteAt p i) = mem (byteAt p i)) :
    Source mem' p s n := by
  induction n generalizing p s with
  | zero => cases s <;> exact trivial
  | succ n ih =>
    have first := same 0 (Nat.succ_pos _) (Nat.zero_le _)
    rw [byteAt_zero] at first
    cases s with
    | nil => exact first.trans h
    | cons c s =>
      refine ⟨h.1, first.trans h.2.1, ih h.2.2 fun i lt le => ?_⟩
      rw [byteAt_succ]
      exact same (i + 1) (Nat.succ_lt_succ lt) (Nat.succ_le_succ le)

theorem strncpyCopy_pad {n : Nat} (source : Source mem src s n) (apart : ReadFirst dst src s n) :
    strncpyPad (strncpyCopy mem dst src n).1 (strncpyCopy mem dst src n).2.1
      (strncpyCopy mem dst src n).2.2 = writeBytes mem dst (strncpyBytes s n) := by
  induction n generalizing mem dst src s with
  | zero => cases s <;> rfl
  | succ n ih =>
    cases s with
    | nil =>
      -- the terminator is stored, the counter stays at `n + 1`
      rw [strncpyCopy]
      simp only [show mem src = 0#8 from source, if_pos]
      rw [strncpyPad_eq]
      rfl
    | cons c s =>
      obtain ⟨nonzero, first, rest⟩ := source
      rw [strncpyCopy]
      simp only [first, if_neg nonzero]
      refine ih (rest.congr fun i lt le => Function.update_of_ne (Ne.symm ?_) _ _) fun i lt le j before => ?_
      · rw [byteAt_succ, ← byteAt_zero dst]
        exact apart (i + 1) (Nat.succ_lt_succ lt) (Nat.succ_le_succ le) 0 (Nat.succ_pos _)
      · rw [byteAt_succ, byteAt_succ]
        exact apart (i + 1) (Nat.succ_lt_succ lt) (Nat.succ_le_succ le) (j + 1) (Nat.succ_lt_succ before)

theorem strncpy_eq_writeBytes {n : BitVec 64} (source : StrAt mem src s)
    (apart : ReadFirst dst src s n.toNat) :
    strncpy mem dst src n = writeBytes mem dst (strncpyBytes s n.toNat) :=
  strncpyCopy_pad (source.source n.toNat) apart

/-! ## The destination -/

/-- The `n` bytes of the destination are the source padded with zero bytes, and all other bytes of
the memory, counted from the destination on, are as before. -/
structure WritesExactly (mem mem' : Memory) (dst : Ptr) (s : CString) (n : Nat) : Prop where
  copied : ∀ i (lt : i < s.length), i < n → mem' (byteAt dst i) = s[i]
  padded : ∀ i, s.length ≤ i → i < n → mem' (byteAt dst i) = 0#8
  kept : ∀ i, n ≤ i → i < 2 ^ 64 → mem' (byteAt dst i) = mem (byteAt dst i)

theorem writesExactly_long {n : Nat} (small : n < 2 ^ 64) (long : n ≤ s.length) :
    WritesExactly mem (writeBytes mem dst (strncpyBytes s n)) dst s n := by
  have length : (s.take n).length = n := by
    rw [List.length_take]
    omega
  rw [strncpyBytes_long long]
  refine ⟨fun i lt within => ?_, fun i ge within => ?_, fun i ge lt => ?_⟩
  · rw [writeBytes_at (by omega) (by omega), List.getElem_take]
  · omega
  · exact writeBytes_off fun j within same => absurd (byteAt_inj lt (by omega) same) (by omega)

/-- For a short source the byte behind the destination is what decides. -/
theorem writesExactly_short {n : Nat} (small : n < 2 ^ 64) (short : s.length < n) :
    WritesExactly mem (writeBytes mem dst (strncpyBytes s n)) dst s n ↔ mem (byteAt dst n) = 0#8 := by
  have length : (s ++ List.replicate (n + 1 - s.length) 0#8).length = n + 1 := by
    rw [List.length_append, List.length_replicate]
    omega
  have zero : ∀ i, s.length ≤ i → i ≤ n →
      writeBytes mem dst (s ++ List.replicate (n + 1 - s.length) 0#8) (byteAt dst i) = 0#8 := by
    intro i ge le
    rw [writeBytes_at (by omega) (by omega), List.getElem_append_right ge, List.getElem_replicate]
  rw [strncpyBytes_short short]
  constructor
  · intro exactly
    rw [← exactly.kept n (Nat.le_refl n) small]
    exact zero n (by omega) (Nat.le_refl n)
  · intro behind
    refine ⟨fun i lt within => ?_, fun i ge within => zero i ge (by omega), fun i ge lt => ?_⟩
    · rw [writeBytes_at (by omega) (by omega), List.getElem_append_left lt]
    · by_cases here : i = n
      · rw [here, behind]
        exact zero n (by omega) (Nat.le_refl n)
      · exact writeBytes_off fun j within same => absurd (byteAt_inj lt (by omega) same) (by omega)

/-- `strncpy` writes its `n` bytes and nothing else exactly if the source fills them, or the byte
behind them is zero already. -/
theorem strncpy_writes_iff (mem : Memory) (dst src : Ptr) (n : BitVec 64) (s : CString)
    (source : StrAt mem src s) (apart : ReadFirst dst src s n.toNat) :
    WritesExactly mem (strncpy mem dst src n) dst s n.toNat ↔
      n.toNat ≤ s.length ∨ mem (byteAt dst n.toNat) = 0#8 := by
  rw [strncpy_eq_writeBytes source apart]
  by_cases long : n.toNat ≤ s.length
  · exact iff_of_true (writesExactly_long n.isLt long) (.inl long)
  · rw [writesExactly_short n.isLt (by omega)]
    exact (or_iff_right long).symm

/-- A memory with the string "a" at 64, and 120 in all bytes below. -/
def oneLetter : Memory := fun p => if p = 64#64 then 97#8 else if p.toNat < 64 then 120#8 else 0#8

theorem oneLetter_strAt : StrAt oneLetter 64#64 [97#8] := by
  refine ⟨by decide, fun i lt => ?_, by decide⟩
  obtain rfl : i = 0 := Nat.lt_one_iff.mp lt
  rfl

theorem oneLetter_apart {n : Nat} (le : n ≤ 64) : ReadFirst 0#64 64#64 [97#8] n := by
  intro i lt _ j before same
  have value := congrArg BitVec.toNat same
  simp only [byteAt, BitVec.toNat_add, BitVec.toNat_ofNat] at value
  omega

theorem strncpy_writes_iff_one :
    WritesExactly oneLetter (strncpy oneLetter 0#64 64#64 1#64) 0#64 [97#8] 1 :=
  (strncpy_writes_iff oneLetter 0#64 64#64 1#64 [97#8] oneLetter_strAt
    (oneLetter_apart (by decide))).mpr (.inl (by decide))

/-- A copy of "a" into two bytes clears the third. -/
theorem strncpy_clears_third :
    StrAt oneLetter 64#64 [97#8] ∧ ReadFirst 0#64 64#64 [97#8] 2 ∧
      oneLetter 2#64 = 120#8 ∧ strncpy oneLetter 0#64 64#64 2#64 2#64 = 0#8 ∧
      ¬ WritesExactly oneLetter (strncpy oneLetter 0#64 64#64 2#64) 0#64 [97#8] 2 := by
  have cleared : strncpy oneLetter 0#64 64#64 2#64 2#64 = 0#8 := by decide
  refine ⟨oneLetter_strAt, oneLetter_apart (by decide), by decide, cleared, fun exactly => ?_⟩
  have kept := exactly.kept 2 (Nat.le_refl 2) (by decide)
  exact absurd (cleared.symm.trans kept) (by decide)

end LithiumKernel.Klib
