import Mathlib.Algebra.Group.Nat.Defs
import Mathlib.Logic.Function.Basic
import Mathlib.Tactic.Common

/-!
# Byte memory with little-endian fields

A partial memory of bytes, addressed by natural numbers. A field is a number stored in
consecutive bytes, least significant byte first; `put` stores one, `fill` and `copy` are the
block operations. Each lemma about a write comes in two halves: what is read back, and that
addresses outside keep their bytes.
-/
namespace LithiumKernel.Lib

/-- A memory of bytes; at an address that maps to `none` there is no memory. -/
abbrev ByteMem := Nat → Option (BitVec 8)

namespace ByteMem

variable {m m' : ByteMem} {n a b x y : Nat}

/-- The `n` bytes from `a` on hold the number `x`. -/
def Field (m : ByteMem) : Nat → Nat → Nat → Prop
  | 0, _, x => x = 0
  | n + 1, a, x => m a = some (BitVec.ofNat 8 x) ∧ Field m n (a + 1) (x / 256)

/-- The memory after the number `x` has been stored in the `n` bytes from `a` on. -/
def put (m : ByteMem) : Nat → Nat → Nat → ByteMem
  | 0, _, _ => m
  | n + 1, a, x => put (Function.update m a (some (BitVec.ofNat 8 x))) n (a + 1) (x / 256)

/-- There is memory at the `n` addresses from `a` on. -/
def Mapped (m : ByteMem) (a n : Nat) : Prop := ∀ b, a ≤ b → b < a + n → (m b).isSome = true

/-- Both memories agree on the `n` addresses from `a` on. -/
def Agree (m m' : ByteMem) (a n : Nat) : Prop := ∀ b, a ≤ b → b < a + n → m' b = m b

/-! ## Ranges -/

theorem Mapped.sub (h : Mapped m a n) {a' n' : Nat} (low : a ≤ a') (high : a' + n' ≤ a + n) :
    Mapped m a' n' :=
  fun b ge lt => h b (by omega) (by omega)

theorem Mapped.agree (h : Mapped m a n) (same : Agree m m' a n) : Mapped m' a n := by
  intro b ge lt
  rw [same b ge lt]
  exact h b ge lt

theorem Agree.sub (h : Agree m m' a n) {a' n' : Nat} (low : a ≤ a') (high : a' + n' ≤ a + n) :
    Agree m m' a' n' :=
  fun b ge lt => h b (by omega) (by omega)

theorem Agree.trans {m'' : ByteMem} (first : Agree m m' a n) (second : Agree m' m'' a n) :
    Agree m m'' a n :=
  fun b ge lt => (second b ge lt).trans (first b ge lt)

theorem Agree.refl (m : ByteMem) (a n : Nat) : Agree m m a n := fun _ _ _ => rfl

/-! ## Fields -/

theorem Field.lt (h : Field m n a x) : x < 256 ^ n := by
  induction n generalizing a x with
  | zero =>
    rw [Field] at h
    rw [h]
    decide
  | succ n ih =>
    have tail := ih h.2
    rw [Nat.pow_succ]
    omega

theorem Field.agree (h : Field m n a x) (same : Agree m m' a n) : Field m' n a x := by
  induction n generalizing a x with
  | zero => exact h
  | succ n ih =>
    refine ⟨?_, ih h.2 (same.sub (by omega) (by omega))⟩
    rw [same a (Nat.le_refl _) (by omega)]
    exact h.1

theorem Field.unique (h : Field m n a x) (h' : Field m n a y) : x = y := by
  induction n generalizing a x y with
  | zero => exact Eq.trans h (Eq.symm h')
  | succ n ih =>
    have high := ih h.2 h'.2
    have low := congrArg BitVec.toNat (Option.some.inj (h.1.symm.trans h'.1))
    rw [BitVec.toNat_ofNat, BitVec.toNat_ofNat] at low
    omega

/-- The low bytes of a field. -/
theorem Field.low {k : Nat} (h : Field m (n + k) a x) : Field m n a (x % 256 ^ n) := by
  induction n generalizing a x with
  | zero => exact Nat.mod_one x
  | succ n ih =>
    rw [Nat.succ_add] at h
    have split : x % 256 ^ (n + 1) = x % 256 + 256 * (x / 256 % 256 ^ n) := by
      rw [Nat.pow_succ, Nat.mul_comm, Nat.mod_mul]
    refine ⟨?_, ?_⟩
    · rw [h.1, split]
      congr 1
      apply BitVec.eq_of_toNat_eq
      rw [BitVec.toNat_ofNat, BitVec.toNat_ofNat]
      omega
    · have tail := ih h.2
      rwa [split, show (x % 256 + 256 * (x / 256 % 256 ^ n)) / 256 = x / 256 % 256 ^ n by omega]

/-! ## Stores -/

theorem put_outside (off : b < a ∨ a + n ≤ b) : put m n a x b = m b := by
  induction n generalizing m a x with
  | zero => rfl
  | succ n ih =>
    rw [put, ih (by omega), Function.update_of_ne (by omega)]

theorem put_agree {c k : Nat} (off : c + k ≤ a ∨ a + n ≤ c) : Agree m (put m n a x) c k :=
  fun _ _ _ => put_outside (by omega)

theorem put_field (lt : x < 256 ^ n) : Field (put m n a x) n a x := by
  induction n generalizing m a x with
  | zero =>
    rw [Nat.pow_zero] at lt
    exact Nat.lt_one_iff.mp lt
  | succ n ih =>
    rw [Nat.pow_succ] at lt
    refine ⟨?_, ih (by omega)⟩
    rw [put, put_outside (by omega), Function.update_self]

theorem put_mapped {c k : Nat} (h : Mapped m c k) : Mapped (put m n a x) c k := by
  induction n generalizing m a x with
  | zero => exact h
  | succ n ih =>
    refine ih ?_
    intro b ge lt
    by_cases here : b = a
    · rw [here, Function.update_self]
      rfl
    · rw [Function.update_of_ne here]
      exact h b ge lt

/-! ## Blocks -/

/-- The memory after the `n` bytes from `a` on have been set to `c`. -/
def fill (m : ByteMem) (a n : Nat) (c : BitVec 8) : ByteMem :=
  fun b => if a ≤ b ∧ b < a + n then some c else m b

/-- The memory after `n` bytes have been copied from `src` to `dst`. -/
def copy (m : ByteMem) (dst src n : Nat) : ByteMem :=
  fun b => if dst ≤ b ∧ b < dst + n then m (src + (b - dst)) else m b

/-- Filling from the first byte on. -/
theorem fill_succ (c : BitVec 8) :
    fill (Function.update m a (some c)) (a + 1) n c = fill m a (n + 1) c := by
  funext b
  unfold fill
  by_cases first : b = a
  · subst first
    rw [if_neg (by omega), if_pos (by omega), Function.update_self]
  · by_cases inside : a + 1 ≤ b ∧ b < a + 1 + n
    · rw [if_pos inside, if_pos (by omega)]
    · rw [if_neg inside, if_neg (by omega), Function.update_of_ne first]

/-- Copying from the first byte on; the source is not written. -/
theorem copy_succ {dst src : Nat} (apart : src + (n + 1) ≤ dst ∨ dst + (n + 1) ≤ src) :
    copy (Function.update m dst (m src)) (dst + 1) (src + 1) n = copy m dst src (n + 1) := by
  funext b
  unfold copy
  by_cases first : b = dst
  · subst first
    rw [if_neg (by omega), if_pos (by omega), Function.update_self, Nat.sub_self, Nat.add_zero]
  · by_cases inside : dst + 1 ≤ b ∧ b < dst + 1 + n
    · rw [if_pos inside, if_pos (by omega), Function.update_of_ne (by omega)]
      congr 1
      omega
    · rw [if_neg inside, if_neg (by omega), Function.update_of_ne first]

end ByteMem

end LithiumKernel.Lib
