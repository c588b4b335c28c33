import Mathlib.Algebra.Group.Nat.Defs
import Mathlib.Data.List.Nodup
import Mathlib.Logic.Function.Basic

/-!
# Words on a stack

A memory maps the addresses of 64-bit words to words. `Holds mem a ws` says that the words `ws`
stand one after the other from the address `a` on, which is how a stack that grows down looks from
its pointer. The lemmas are the ones pushes, pops and copies need.
-/
namespace LithiumKernel.Lib

abbrev WordMem := BitVec 64 → BitVec 64

def Holds (mem : WordMem) : BitVec 64 → List (BitVec 64) → Prop
  | _, [] => True
  | a, w :: ws => mem a = w ∧ Holds mem (a + 8#64) ws

/-- The address of the word `i` places behind `a`. -/
def wordAt (a : BitVec 64) (i : Nat) : BitVec 64 := a + BitVec.ofNat 64 (8 * i)

theorem wordAt_zero (a : BitVec 64) : wordAt a 0 = a := BitVec.add_zero a

theorem wordAt_succ (a : BitVec 64) (i : Nat) : wordAt (a + 8#64) i = wordAt a (i + 1) := by
  apply BitVec.eq_of_toNat_eq
  simp only [wordAt, BitVec.toNat_add, BitVec.toNat_ofNat]
  omega

theorem wordAt_next (a : BitVec 64) (i : Nat) : wordAt a (i + 1) = wordAt a i + 8#64 := by
  apply BitVec.eq_of_toNat_eq
  simp only [wordAt, BitVec.toNat_add, BitVec.toNat_ofNat]
  omega

/-- Words at different places have different addresses. -/
theorem wordAt_inj {a : BitVec 64} {i j : Nat} (lt : i < 2 ^ 61) (lt' : j < 2 ^ 61)
    (same : wordAt a i = wordAt a j) : i = j := by
  have value := congrArg BitVec.toNat same
  simp only [wordAt, BitVec.toNat_add, BitVec.toNat_ofNat] at value
  have := a.isLt
  omega

variable {mem mem' : WordMem} {a b w : BitVec 64} {ws vs : List (BitVec 64)}

theorem holds_iff : Holds mem a ws ↔ ∀ i (lt : i < ws.length), mem (wordAt a i) = ws[i] := by
  induction ws generalizing a with
  | nil => simp [Holds]
  | cons w ws ih =>
    rw [Holds, ih]
    constructor
    · rintro ⟨first, rest⟩ (_ | i) lt
      · rw [wordAt_zero]
        exact first
      · rw [← wordAt_succ]
        exact rest i (Nat.lt_of_succ_lt_succ lt)
    · intro all
      refine ⟨?_, fun i lt => ?_⟩
      · have first := all 0 (Nat.succ_pos _)
        rwa [wordAt_zero] at first
      · rw [wordAt_succ]
        exact all (i + 1) (Nat.succ_lt_succ lt)

theorem Holds.congr (held : Holds mem a ws)
    (same : ∀ i < ws.length, mem' (wordAt a i) = mem (wordAt a i)) : Holds mem' a ws := by
  rw [holds_iff] at held ⊢
  intro i lt
  rw [same i lt, held i lt]

/-- The address of the stack pointer after a push. -/
theorem sub_add_word (a : BitVec 64) : a - 8#64 + 8#64 = a := BitVec.sub_add_cancel a 8#64

theorem Holds.push (held : Holds mem a ws) (small : ws.length < 2 ^ 61 - 1) :
    Holds (Function.update mem (a - 8#64) w) (a - 8#64) (w :: ws) := by
  refine ⟨Function.update_self .., ?_⟩
  rw [sub_add_word]
  refine held.congr fun i lt => Function.update_of_ne (fun same => ?_) _ _
  have place : wordAt (a - 8#64) (i + 1) = wordAt (a - 8#64) 0 := by
    rw [← wordAt_succ, sub_add_word, same, wordAt_zero]
  have := wordAt_inj (by omega) (by omega) place
  omega

/-- A copy of `n` words, one after the other. -/
def copyWords (mem : WordMem) (dst src : BitVec 64) : Nat → WordMem
  | 0 => mem
  | n + 1 => Function.update (copyWords mem dst src n) (wordAt dst n)
      (copyWords mem dst src n (wordAt src n))

theorem copyWords_off {dst src : BitVec 64} {n : Nat} (off : ∀ i < n, b ≠ wordAt dst i) :
    copyWords mem dst src n b = mem b := by
  induction n with
  | zero => rfl
  | succ n ih =>
    rw [copyWords, Function.update_of_ne (off n (Nat.lt_succ_self n)),
      ih fun i lt => off i (Nat.lt_succ_of_lt lt)]

theorem copyWords_at {dst src : BitVec 64} {n i : Nat} (small : n ≤ 2 ^ 61)
    (apart : ∀ i < n, ∀ j < n, wordAt src i ≠ wordAt dst j) (lt : i < n) :
    copyWords mem dst src n (wordAt dst i) = mem (wordAt src i) := by
  induction n with
  | zero => exact absurd lt (Nat.not_lt_zero i)
  | succ n ih =>
    by_cases last : i = n
    · rw [last, copyWords, Function.update_self]
      exact copyWords_off fun j before => apart n (Nat.lt_succ_self n) j (Nat.lt_succ_of_lt before)
    · rw [copyWords, Function.update_of_ne, ih (by omega) _ (by omega)]
      · exact fun i lt j lt' => apart i (Nat.lt_succ_of_lt lt) j (Nat.lt_succ_of_lt lt')
      · intro same
        exact last (wordAt_inj (by omega) (by omega) same)

theorem Holds.copy {dst src : BitVec 64} (held : Holds mem src ws) (small : ws.length ≤ 2 ^ 61)
    (apart : ∀ i < ws.length, ∀ j < ws.length, wordAt src i ≠ wordAt dst j) :
    Holds (copyWords mem dst src ws.length) dst ws := by
  rw [holds_iff] at held ⊢
  intro i lt
  rw [copyWords_at small apart lt, held i lt]

theorem Holds.set {i : Nat} (held : Holds mem a ws) (small : ws.length ≤ 2 ^ 61) (lt : i < ws.length) :
    Holds (Function.update mem (wordAt a i) w) a (ws.set i w) := by
  rw [holds_iff] at held ⊢
  intro j within
  rw [List.length_set] at within
  by_cases here : j = i
  · subst here
    rw [Function.update_self, List.getElem_set_self]
  · rw [Function.update_of_ne, held j within, List.getElem_set_ne (Ne.symm here)]
    exact fun same => here (wordAt_inj (by omega) (by omega) same)

/-- Words stored from the address `a` downwards, and the address of the last one. -/
def storeDown : WordMem → BitVec 64 → List (BitVec 64) → WordMem × BitVec 64
  | mem, a, [] => (mem, a)
  | mem, a, w :: ws => storeDown (Function.update mem (a - 8#64) w) (a - 8#64) ws

theorem Holds.storeDown (held : Holds mem a vs) (small : ws.length + vs.length < 2 ^ 61) :
    Holds (storeDown mem a ws).1 (storeDown mem a ws).2 (ws.reverse ++ vs) := by
  induction ws generalizing mem a vs with
  | nil => exact held
  | cons w ws ih =>
    rw [List.length_cons] at small
    rw [List.reverse_cons, List.append_assoc]
    refine ih (held.push (by omega)) ?_
    rw [List.singleton_append, List.length_cons]
    omega

theorem storeDown_end : wordAt (storeDown mem a ws).2 ws.length = a := by
  induction ws generalizing mem a with
  | nil => exact wordAt_zero a
  | cons w ws ih => rw [storeDown, List.length_cons, wordAt_next, ih, sub_add_word]

theorem storeDown_off (off : ∀ i < ws.length, b ≠ wordAt (storeDown mem a ws).2 i) :
    (storeDown mem a ws).1 b = mem b := by
  induction ws generalizing mem a with
  | nil => rfl
  | cons w ws ih =>
    rw [storeDown, ih fun i lt => off i (Nat.lt_succ_of_lt lt), Function.update_of_ne]
    have first := off ws.length (Nat.lt_succ_self _)
    rwa [storeDown, storeDown_end] at first

end LithiumKernel.Lib
