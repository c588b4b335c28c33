import Mathlib.Algebra.Group.Nat.Defs
import Mathlib.Tactic.Common

/-!
# Single bits and field masks of machine words

Facts about testing, setting and clearing one bit, and about words assembled from
a field and flags that do not overlap it.
-/
namespace LithiumKernel.Lib

variable {w : Nat}

theorem getLsbD_bit (k j : Nat) (lt : j < w) : (1#w <<< k).getLsbD j = decide (j = k) := by
  rw [← BitVec.twoPow_eq, BitVec.getLsbD_twoPow]
  by_cases same : j = k
  · subst same
    simp [lt]
  · simp [same, Ne.symm same]

theorem and_bit_eq_zero (b : BitVec w) {k : Nat} (lt : k < w) :
    b &&& (1#w <<< k) = 0#w ↔ b.getLsbD k = false := by
  constructor
  · intro zero
    have bit := congrArg (fun v => v.getLsbD k) zero
    simpa [getLsbD_bit k k lt] using bit
  · intro clear
    apply BitVec.eq_of_getLsbD_eq
    intro j hj
    rw [BitVec.getLsbD_and, getLsbD_bit k j hj]
    by_cases same : j = k
    · subst same
      simp [clear]
    · simp [same]

theorem getLsbD_or_bit (b : BitVec w) (k : Nat) {j : Nat} (lt : j < w) :
    (b ||| (1#w <<< k)).getLsbD j = (b.getLsbD j || decide (j = k)) := by
  rw [BitVec.getLsbD_or, getLsbD_bit k j lt]

theorem getLsbD_and_not_bit (b : BitVec w) (k : Nat) {j : Nat} (lt : j < w) :
    (b &&& ~~~(1#w <<< k)).getLsbD j = (b.getLsbD j && !decide (j = k)) := by
  rw [BitVec.getLsbD_and, BitVec.getLsbD_not, getLsbD_bit k j lt]
  simp [lt]

/-- A word covers a mask when every bit of the mask is set in it. -/
theorem and_eq_mask_iff (b m : BitVec w) :
    b &&& m = m ↔ ∀ k, k < w → m.getLsbD k = true → b.getLsbD k = true := by
  constructor
  · intro same k _ set
    have bit := congrArg (fun v => v.getLsbD k) same
    simpa [BitVec.getLsbD_and, set] using bit
  · intro covers
    apply BitVec.eq_of_getLsbD_eq
    intro k lt
    rw [BitVec.getLsbD_and]
    cases set : m.getLsbD k with
    | false => simp
    | true => simp [covers k lt set]

/-- A word covers three given bits. -/
theorem and_three_bits (b : BitVec w) {i j k : Nat} (hi : i < w) (hj : j < w) (hk : k < w) :
    b &&& (1#w <<< i ||| 1#w <<< j ||| 1#w <<< k) = (1#w <<< i ||| 1#w <<< j ||| 1#w <<< k) ↔
      b.getLsbD i = true ∧ b.getLsbD j = true ∧ b.getLsbD k = true := by
  have bit : ∀ n, n < w → ((1#w <<< i ||| 1#w <<< j ||| 1#w <<< k).getLsbD n = true ↔
      (n = i ∨ n = j) ∨ n = k) := by
    intro n lt
    simp only [BitVec.getLsbD_or, getLsbD_bit _ _ lt, Bool.or_eq_true, decide_eq_true_eq]
  rw [and_eq_mask_iff]
  constructor
  · intro covers
    exact ⟨covers i hi ((bit i hi).mpr (.inl (.inl rfl))),
      covers j hj ((bit j hj).mpr (.inl (.inr rfl))), covers k hk ((bit k hk).mpr (.inr rfl))⟩
  · rintro ⟨bitI, bitJ, bitK⟩ n lt set
    rcases (bit n lt).mp set with (rfl | rfl) | rfl <;> assumption

/-- A field and flags outside its mask: the mask recovers the field. -/
theorem or_and_mask {field flags mask : BitVec w} (inside : field &&& mask = field)
    (outside : flags &&& mask = 0#w) : (field ||| flags) &&& mask = field := by
  rw [BitVec.and_or_distrib_right, inside, outside, BitVec.or_zero]

/-- Bits outside a mask do not change what the mask selects. -/
theorem or_and_outside {word flags mask : BitVec w} (outside : flags &&& mask = 0#w) :
    (word ||| flags) &&& mask = word &&& mask := by
  rw [BitVec.and_or_distrib_right, outside, BitVec.or_zero]

theorem and_not_and_self (x m : BitVec w) : x &&& ~~~m &&& m = 0#w := by
  rw [BitVec.and_assoc, BitVec.and_comm (~~~m) m, BitVec.and_not_self]
  exact BitVec.and_zero

/-- A number of whole units of `2 ^ k` keeps its value under a mask that covers the
bits from `k` up to its size. -/
theorem mul_pow_and_mask {f k n : Nat} (lt : f < 2 ^ n) :
    (f * 2 ^ k) &&& ((2 ^ n - 1) * 2 ^ k) = f * 2 ^ k := by
  rw [← Nat.shiftLeft_eq, ← Nat.shiftLeft_eq, ← Nat.shiftLeft_and_distrib,
    Nat.and_two_pow_sub_one_of_lt_two_pow lt]

end LithiumKernel.Lib
