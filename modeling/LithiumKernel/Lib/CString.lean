import Mathlib.Data.List.GetD
import Mathlib.Data.List.TakeWhile
import Mathlib.Tactic.Common

/-!
# Strings in character arrays

A character array is a list of bytes. The string it holds is what stands in front of its
first zero byte; the array is terminated if there is one. `strncpy` is the function of
lib/string.c, which pads with one zero byte more than the standard one: a source shorter
than `n` makes it write `n + 1` bytes.
-/
namespace LithiumKernel.Lib

abbrev CString := List (BitVec 8)

def cstr (buf : List (BitVec 8)) : CString := buf.takeWhile (· ≠ 0#8)

def Terminated (buf : List (BitVec 8)) : Prop := 0#8 ∈ buf

/-- The bytes `strncpy` writes: the first loop stops at the limit or behind the terminator,
which it has not counted, and the second writes as many zero bytes as are left. -/
def strncpyBytes : CString → Nat → List (BitVec 8)
  | _, 0 => []
  | [], n + 1 => 0#8 :: List.replicate (n + 1) 0#8
  | c :: cs, n + 1 => c :: strncpyBytes cs n

def strncpy (dst : List (BitVec 8)) (src : CString) (n : Nat) : List (BitVec 8) :=
  strncpyBytes src n ++ dst.drop (strncpyBytes src n).length

theorem cstr_cons_zero (buf : List (BitVec 8)) : cstr (0#8 :: buf) = [] := by simp [cstr]

theorem cstr_cons {b : BitVec 8} (nonzero : b ≠ 0#8) (buf : List (BitVec 8)) :
    cstr (b :: buf) = b :: cstr buf := by
  simp [cstr, nonzero]

theorem zero_not_mem_cstr (buf : List (BitVec 8)) : 0#8 ∉ cstr buf := by
  intro member
  have := List.mem_takeWhile_imp member
  simp at this

theorem cstr_append {s : CString} (clean : 0#8 ∉ s) (rest : List (BitVec 8)) :
    cstr (s ++ 0#8 :: rest) = s := by
  have all : ∀ c ∈ s, decide (c ≠ 0#8) = true := by
    intro c member
    refine decide_eq_true ?_
    rintro rfl
    exact clean member
  rw [cstr, List.takeWhile_append_of_pos all]
  simp

/-! ## Strings inside an array -/

/-- The string that begins at index `p`. -/
def strAt (buf : List (BitVec 8)) (p : Nat) : CString := cstr (buf.drop p)

theorem strAt_nil_iff (buf : List (BitVec 8)) (p : Nat) : strAt buf p = [] ↔ buf.getD p 0#8 = 0#8 := by
  unfold strAt
  by_cases inside : p < buf.length
  · rw [List.drop_eq_getElem_cons inside, List.getD_eq_getElem _ _ inside]
    by_cases zero : buf[p] = 0#8
    · rw [zero, cstr_cons_zero]
      exact iff_of_true rfl rfl
    · rw [cstr_cons zero]
      exact iff_of_false (List.cons_ne_nil _ _) zero
  · rw [List.drop_of_length_le (Nat.le_of_not_lt inside), List.getD_eq_default _ _ (Nat.le_of_not_lt inside)]
    exact iff_of_true rfl rfl

theorem strAt_cons {buf : List (BitVec 8)} {p : Nat} {c : BitVec 8} {s : CString}
    (here : strAt buf p = c :: s) :
    p < buf.length ∧ buf.getD p 0#8 = c ∧ c ≠ 0#8 ∧ strAt buf (p + 1) = s := by
  have clean : c ≠ 0#8 := by
    rintro rfl
    refine zero_not_mem_cstr (buf.drop p) ?_
    rw [← strAt, here]
    exact List.mem_cons_self ..
  by_cases inside : p < buf.length
  · unfold strAt cstr at here
    rw [List.drop_eq_getElem_cons inside, List.takeWhile_cons] at here
    split at here
    · obtain ⟨rfl, rfl⟩ := List.cons.inj here
      exact ⟨inside, List.getD_eq_getElem _ _ inside, clean, rfl⟩
    · cases here
  · rw [strAt, List.drop_of_length_le (Nat.le_of_not_lt inside)] at here
    cases here

theorem strAt_length_le (buf : List (BitVec 8)) (p : Nat) : (strAt buf p).length ≤ buf.length - p := by
  have := List.Sublist.length_le (List.takeWhile_sublist (l := buf.drop p) (· ≠ 0#8))
  rwa [List.length_drop] at this

/-- A zero byte in a string cuts it off. -/
theorem cstr_set_zero {buf : List (BitVec 8)} {k : Nat} (within : k ≤ (cstr buf).length) :
    cstr (buf.set k 0#8) = (cstr buf).take k := by
  induction buf generalizing k with
  | nil => simp [cstr]
  | cons b buf ih =>
    by_cases zero : b = 0#8
    · rw [zero, cstr_cons_zero] at within ⊢
      obtain rfl := Nat.le_zero.mp within
      exact cstr_cons_zero buf
    · rw [cstr_cons zero] at within ⊢
      cases k with
      | zero => exact cstr_cons_zero buf
      | succ k => rw [List.set_cons_succ, cstr_cons zero, ih (Nat.le_of_succ_le_succ within), List.take_succ_cons]

/-- A byte behind the terminator does not matter. -/
theorem cstr_set_behind {buf : List (BitVec 8)} {k : Nat} (c : BitVec 8) (behind : (cstr buf).length < k) :
    cstr (buf.set k c) = cstr buf := by
  induction buf generalizing k with
  | nil => rfl
  | cons b buf ih =>
    cases k with
    | zero => exact absurd behind (Nat.not_lt_zero _)
    | succ k =>
      rw [List.set_cons_succ]
      by_cases zero : b = 0#8
      · rw [zero, cstr_cons_zero, cstr_cons_zero]
      · rw [cstr_cons zero] at behind ⊢
        rw [cstr_cons zero, ih (Nat.lt_of_succ_lt_succ behind)]

theorem strAt_set_zero {buf : List (BitVec 8)} {p q : Nat} (from_ : p ≤ q)
    (within : q ≤ p + (strAt buf p).length) :
    strAt (buf.set q 0#8) p = (strAt buf p).take (q - p) := by
  rw [strAt, List.drop_set, if_neg (Nat.not_lt.mpr from_)]
  exact cstr_set_zero (by rw [← strAt]; omega)

theorem strAt_set_behind {buf : List (BitVec 8)} {p q : Nat} (b : BitVec 8)
    (behind : p + (strAt buf p).length < q) : strAt (buf.set q b) p = strAt buf p := by
  rw [strAt, List.drop_set, if_neg (by omega)]
  exact cstr_set_behind b (by rw [← strAt]; omega)

theorem strAt_set_before {buf : List (BitVec 8)} {p q : Nat} (b : BitVec 8) (before : q < p) :
    strAt (buf.set q b) p = strAt buf p := by
  rw [strAt, List.drop_set, if_pos before, strAt]

/-! ## Copies -/

theorem strncpyBytes_short {src : CString} {n : Nat} (short : src.length < n) :
    strncpyBytes src n = src ++ List.replicate (n + 1 - src.length) 0#8 := by
  induction src generalizing n with
  | nil =>
    obtain ⟨n, rfl⟩ := Nat.exists_eq_succ_of_ne_zero (show n ≠ 0 by simp at short; omega)
    rfl
  | cons c cs ih =>
    obtain ⟨n, rfl⟩ := Nat.exists_eq_succ_of_ne_zero (show n ≠ 0 by simp at short; omega)
    rw [List.length_cons] at short
    rw [strncpyBytes, ih (by omega), List.cons_append, List.length_cons]
    congr 3
    omega

theorem strncpyBytes_long {src : CString} {n : Nat} (long : n ≤ src.length) :
    strncpyBytes src n = src.take n := by
  induction src generalizing n with
  | nil =>
    obtain rfl : n = 0 := by simpa using long
    rfl
  | cons c cs ih =>
    cases n with
    | zero => rfl
    | succ n =>
      rw [List.length_cons] at long
      rw [strncpyBytes, ih (by omega), List.take_succ_cons]

theorem strncpyBytes_length_le (src : CString) (n : Nat) : (strncpyBytes src n).length ≤ n + 1 := by
  by_cases short : src.length < n
  · rw [strncpyBytes_short short, List.length_append, List.length_replicate]
    omega
  · rw [strncpyBytes_long (by omega), List.length_take]
    omega

/-- A limit below the size keeps the copy inside the array. -/
theorem strncpy_length {dst : List (BitVec 8)} {src : CString} {n : Nat} (room : n < dst.length) :
    (strncpy dst src n).length = dst.length := by
  have := strncpyBytes_length_le src n
  rw [strncpy, List.length_append, List.length_drop]
  omega

/-- The copy is the whole string if a zero byte follows it. -/
theorem strncpy_eq {dst : List (BitVec 8)} {src : CString} {n : Nat} (fits : src.length ≤ n)
    (stop : src.length = n → dst[n]? = some 0#8) : ∃ rest, strncpy dst src n = src ++ 0#8 :: rest := by
  rcases Nat.lt_or_eq_of_le fits with short | rfl
  · refine ⟨List.replicate (n - src.length) 0#8 ++ dst.drop (strncpyBytes src n).length, ?_⟩
    rw [strncpy]
    nth_rewrite 1 [strncpyBytes_short short]
    rw [show n + 1 - src.length = n - src.length + 1 by omega, List.replicate_succ]
    simp
  · obtain ⟨here, zero⟩ := List.getElem?_eq_some_iff.mp (stop rfl)
    refine ⟨dst.drop (src.length + 1), ?_⟩
    rw [strncpy, strncpyBytes_long (le_refl _), List.take_length, List.drop_eq_getElem_cons here, zero]

theorem cstr_strncpy {dst : List (BitVec 8)} {src : CString} {n : Nat} (clean : 0#8 ∉ src)
    (fits : src.length ≤ n) (stop : src.length = n → dst[n]? = some 0#8) :
    cstr (strncpy dst src n) = src ∧ Terminated (strncpy dst src n) := by
  obtain ⟨rest, copied⟩ := strncpy_eq fits stop
  rw [copied]
  exact ⟨cstr_append clean rest, by simp [Terminated]⟩

/-- A copy up to the last byte, which is then cleared. -/
theorem cstr_strncpy_set {dst : List (BitVec 8)} {src : CString} {n : Nat} (clean : 0#8 ∉ src)
    (fits : src.length ≤ n) (room : n < dst.length) :
    cstr ((strncpy dst src n).set n 0#8) = src ∧ Terminated ((strncpy dst src n).set n 0#8) := by
  have split : ∃ rest, (strncpy dst src n).set n 0#8 = src ++ 0#8 :: rest := by
    rcases Nat.lt_or_eq_of_le fits with short | rfl
    · obtain ⟨rest, copied⟩ := @strncpy_eq dst src n fits (fun eq => absurd eq (by omega))
      rw [copied, List.set_append_right _ _ (by omega)]
      obtain ⟨k, back⟩ := Nat.exists_eq_add_of_lt short
      refine ⟨rest.set k 0#8, ?_⟩
      rw [show n - src.length = k + 1 by omega, List.set_cons_succ]
    · refine ⟨dst.drop (src.length + 1), ?_⟩
      rw [strncpy, strncpyBytes_long (le_refl _), List.take_length, List.set_append_right _ _ (le_refl _),
        Nat.sub_self, List.drop_eq_getElem_cons room, List.set_cons_zero]
  obtain ⟨rest, copied⟩ := split
  rw [copied]
  exact ⟨cstr_append clean rest, by simp [Terminated]⟩

end LithiumKernel.Lib
