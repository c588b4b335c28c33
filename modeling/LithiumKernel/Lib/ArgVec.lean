import LithiumKernel.Lib.ByteMem
import LithiumKernel.Lib.CString
import Mathlib.Data.List.Forall2

/-!
# Strings and vectors of strings in byte memory

A string stands at an address as its characters and a zero byte behind them. A vector is an
array of pointers with a null pointer behind the last one, where each pointer leads to a
string. All three are determined by the memory and the address, so a reader who follows the
pointers can find only one list of strings. `shift` puts a memory at a base address.
-/
namespace LithiumKernel.Lib.ByteMem

variable {m m' : ByteMem} {n a b x y base : Nat}

/-- The bytes stand in memory from `a` on. -/
def Bytes (m : ByteMem) : Nat → List (BitVec 8) → Prop
  | _, [] => True
  | a, c :: cs => m a = some c ∧ Bytes m (a + 1) cs

/-- A string with its terminator. -/
def Text (m : ByteMem) : Nat → CString → Prop
  | a, [] => m a = some 0#8
  | a, c :: cs => m a = some c ∧ c ≠ 0#8 ∧ Text m (a + 1) cs

/-- An array of 8-byte words. -/
def Words (m : ByteMem) : Nat → List Nat → Prop
  | _, [] => True
  | a, x :: xs => Field m 8 a x ∧ Words m (a + 8) xs

/-- An array of pointers with a null pointer behind it. -/
def Pointers (m : ByteMem) : Nat → List Nat → Prop
  | a, [] => Field m 8 a 0
  | a, p :: ps => Field m 8 a p ∧ p ≠ 0 ∧ Pointers m (a + 8) ps

/-- A vector of strings, as `argv` and `envp` are. -/
def Strings (m : ByteMem) (a : Nat) (strs : List CString) : Prop :=
  ∃ ps, Pointers m a ps ∧ List.Forall₂ (Text m) ps strs

/-- The number in the `n` bytes from `a` on. -/
def load (m : ByteMem) : Nat → Nat → Option Nat
  | 0, _ => some 0
  | n + 1, a => do
    let low ← m a
    let high ← load m n (a + 1)
    some (low.toNat + 256 * high)

/-- The memory after the bytes have been written from `a` on. -/
def write (m : ByteMem) (a : Nat) : List (BitVec 8) → ByteMem
  | [] => m
  | c :: cs => write (Function.update m a (some c)) (a + 1) cs

/-- The memory moved up to `base`. -/
def shift (m : ByteMem) (base : Nat) : ByteMem := fun a => if base ≤ a then m (a - base) else none

/-! ## What is read -/

/-- The number that bytes hold, least significant first. -/
def littleEndianValue (bytes : List (BitVec 8)) : Nat :=
  bytes.foldr (fun c acc => c.toNat + 256 * acc) 0

theorem Bytes.field {bytes : List (BitVec 8)} (h : Bytes m a bytes) :
    Field m bytes.length a (littleEndianValue bytes) := by
  induction bytes generalizing a with
  | nil => rfl
  | cons c cs ih =>
    have value : littleEndianValue (c :: cs) = c.toNat + 256 * littleEndianValue cs := rfl
    have small := c.isLt
    refine ⟨?_, ?_⟩
    · rw [h.1, value]
      congr 1
      apply BitVec.eq_of_toNat_eq
      rw [BitVec.toNat_ofNat]
      omega
    · rw [value, show (c.toNat + 256 * littleEndianValue cs) / 256 = littleEndianValue cs by omega]
      exact ih h.2

theorem Bytes.append {front back : List (BitVec 8)} (first : Bytes m a front)
    (second : Bytes m (a + front.length) back) : Bytes m a (front ++ back) := by
  induction front generalizing a with
  | nil => exact second
  | cons c cs ih =>
    refine ⟨first.1, ih first.2 ?_⟩
    rwa [List.length_cons, Nat.add_comm cs.length, ← Nat.add_assoc] at second

theorem Field.load (h : Field m n a x) : load m n a = some x := by
  induction n generalizing a x with
  | zero =>
    rw [Field] at h
    rw [h]
    rfl
  | succ n ih =>
    simp only [ByteMem.load, h.1, ih h.2, BitVec.toNat_ofNat, Option.bind_eq_bind,
      Option.bind_some, Option.some.injEq]
    omega

/-- An array of words that ends with a zero is an array of pointers. -/
theorem Words.pointers {ps : List Nat} (h : Words m a (ps ++ [0])) (real : ∀ p ∈ ps, p ≠ 0) :
    Pointers m a ps := by
  induction ps generalizing a with
  | nil => exact h.1
  | cons p ps ih =>
    exact ⟨h.1, real p List.mem_cons_self,
      ih h.2 fun q member => real q (List.mem_cons_of_mem p member)⟩

theorem Words.of_append {front back : List Nat} (h : Words m a (front ++ back)) :
    Words m a front ∧ Words m (a + 8 * front.length) back := by
  induction front generalizing a with
  | nil => exact ⟨trivial, h⟩
  | cons x xs ih =>
    obtain ⟨first, second⟩ := ih h.2
    refine ⟨⟨h.1, first⟩, ?_⟩
    rwa [List.length_cons, show a + 8 * (xs.length + 1) = a + 8 + 8 * xs.length by omega]

theorem Words.append {front back : List Nat} (first : Words m a front)
    (second : Words m (a + 8 * front.length) back) : Words m a (front ++ back) := by
  induction front generalizing a with
  | nil => exact second
  | cons x xs ih =>
    refine ⟨first.1, ih first.2 ?_⟩
    rwa [List.length_cons, show a + 8 * (xs.length + 1) = a + 8 + 8 * xs.length by omega] at second

/-! ## Only one reading -/

theorem Text.unique {s t : CString} (hs : Text m a s) (ht : Text m a t) : s = t := by
  induction s generalizing a t with
  | nil =>
    cases t with
    | nil => rfl
    | cons c cs => exact absurd (Option.some.inj (ht.1.symm.trans hs)) ht.2.1
  | cons c cs ih =>
    cases t with
    | nil => exact absurd (Option.some.inj (hs.1.symm.trans ht)) hs.2.1
    | cons d ds =>
      rw [Option.some.inj (hs.1.symm.trans ht.1), ih hs.2.2 ht.2.2]

theorem Pointers.unique {ps qs : List Nat} (hp : Pointers m a ps) (hq : Pointers m a qs) :
    ps = qs := by
  induction ps generalizing a qs with
  | nil =>
    cases qs with
    | nil => rfl
    | cons q qs => exact absurd (hq.1.unique hp) hq.2.1
  | cons p ps ih =>
    cases qs with
    | nil => exact absurd (hp.1.unique hq) hp.2.1
    | cons q qs => rw [hp.1.unique hq.1, ih hp.2.2 hq.2.2]

theorem Strings.unique {xs ys : List CString} (hx : Strings m a xs) (hy : Strings m a ys) :
    xs = ys := by
  obtain ⟨ps, pointers, texts⟩ := hx
  obtain ⟨qs, pointers', texts'⟩ := hy
  obtain rfl := pointers.unique pointers'
  have only : Relator.RightUnique (Text m) := fun _ _ _ hs ht => hs.unique ht
  exact List.right_unique_forall₂' only texts texts'

theorem Strings.iff {xs ys : List CString} (h : Strings m a xs) : Strings m a ys ↔ ys = xs := by
  constructor
  · intro other
    exact other.unique h
  · rintro rfl
    exact h

theorem Text.clean {s : CString} (h : Text m a s) : 0#8 ∉ s := by
  induction s generalizing a with
  | nil => exact List.not_mem_nil
  | cons c cs ih =>
    intro member
    rcases List.mem_cons.mp member with rfl | rest
    · exact h.2.1 rfl
    · exact ih h.2.2 rest

theorem Strings.clean {strs : List CString} (h : Strings m a strs) : ∀ s ∈ strs, 0#8 ∉ s := by
  obtain ⟨ps, -, texts⟩ := h
  induction texts with
  | nil => exact fun s member => absurd member List.not_mem_nil
  | cons text _ ih =>
    intro s member
    rcases List.mem_cons.mp member with rfl | rest
    · exact text.clean
    · exact ih s rest

/-! ## What a write leaves -/

theorem write_outside {bytes : List (BitVec 8)} (off : b < a ∨ a + bytes.length ≤ b) :
    write m a bytes b = m b := by
  induction bytes generalizing m a with
  | nil => rfl
  | cons c cs ih =>
    rw [List.length_cons] at off
    rw [write, ih (by omega), Function.update_of_ne (by omega)]

theorem write_text {s : CString} (clean : 0#8 ∉ s) : Text (write m a (s ++ [0#8])) a s := by
  induction s generalizing m a with
  | nil => exact Function.update_self ..
  | cons c cs ih =>
    rw [List.mem_cons, not_or] at clean
    refine ⟨?_, Ne.symm clean.1, ih clean.2⟩
    rw [List.cons_append, write, write_outside (by omega), Function.update_self]

/-- The memory is the same from `a` on. -/
def Above (m m' : ByteMem) (a : Nat) : Prop := ∀ b, a ≤ b → m' b = m b

theorem Above.mono (h : Above m m' a) (le : a ≤ b) : Above m m' b :=
  fun c ge => h c (Nat.le_trans le ge)

theorem Above.trans {m'' : ByteMem} (first : Above m m' a) (second : Above m' m'' a) :
    Above m m'' a :=
  fun c ge => (second c ge).trans (first c ge)

theorem put_above : Above m (put m n a x) (a + n) := fun _ ge => put_outside (.inr ge)

theorem write_above {bytes : List (BitVec 8)} : Above m (write m a bytes) (a + bytes.length) :=
  fun _ ge => write_outside (.inr ge)

theorem Above.text {s : CString} (same : Above m m' a) (h : Text m a s) : Text m' a s := by
  induction s generalizing a with
  | nil => exact (same a (Nat.le_refl a)).trans h
  | cons c cs ih =>
    exact ⟨(same a (Nat.le_refl a)).trans h.1, h.2.1, ih (same.mono (Nat.le_succ a)) h.2.2⟩

theorem Above.words {xs : List Nat} (same : Above m m' a) (h : Words m a xs) : Words m' a xs := by
  induction xs generalizing a with
  | nil => trivial
  | cons x xs ih =>
    exact ⟨h.1.agree fun b ge _ => same b ge, ih (same.mono (Nat.le_add_right a 8)) h.2⟩

/-! ## Moving a memory -/

theorem shift_add (m : ByteMem) (base a : Nat) : shift m base (base + a) = m a := by
  rw [shift, if_pos (Nat.le_add_right base a), Nat.add_sub_cancel_left]

theorem Above.shift (same : Above m m' a) (base : Nat) :
    Above (m.shift base) (m'.shift base) (base + a) := by
  intro b ge
  obtain ⟨c, rfl⟩ := Nat.exists_eq_add_of_le (Nat.le_trans (Nat.le_add_right base a) ge)
  rw [shift_add, shift_add]
  exact same c (by omega)

theorem Text.shift {s : CString} (h : Text m a s) (base : Nat) :
    Text (m.shift base) (base + a) s := by
  induction s generalizing a with
  | nil => exact (shift_add m base a).trans h
  | cons c cs ih => exact ⟨(shift_add m base a).trans h.1, h.2.1, ih h.2.2⟩

theorem Field.shift (h : Field m n a x) (base : Nat) : Field (m.shift base) n (base + a) x := by
  induction n generalizing a x with
  | zero => exact h
  | succ n ih => exact ⟨(shift_add m base a).trans h.1, ih h.2⟩

theorem Words.shift {xs : List Nat} (h : Words m a xs) (base : Nat) :
    Words (m.shift base) (base + a) xs := by
  induction xs generalizing a with
  | nil => trivial
  | cons x xs ih => exact ⟨h.1.shift base, ih h.2⟩

end LithiumKernel.Lib.ByteMem
