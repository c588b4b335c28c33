import Mathlib.Data.Nat.Digits.Defs
import Mathlib.Data.Nat.Digits.Lemmas

/-!
# Printing numbers (lib/kprintf.c, user/lib/ulib.c)

`print_uint` and `print_int` of the kernel and `u_write_uint` of the user library, as the characters
they emit. The digits go into a buffer on the stack in reverse. The kernel does not check its 64
bytes, so a write behind them is the outcome `none`; the user library stops at its 10 bytes.
-/
namespace LithiumKernel.Klib

/-! ## The source -/

def digitsLo : List Char :=
  ['0', '1', '2', '3', '4', '5', '6', '7', '8', '9', 'a', 'b', 'c', 'd', 'e', 'f']

def digitsHi : List Char :=
  ['0', '1', '2', '3', '4', '5', '6', '7', '8', '9', 'A', 'B', 'C', 'D', 'E', 'F']

/-- The entry of a table of digits; the index stays inside for the bases in use. -/
def digitOf (digits : List Char) (d : Nat) : Char := digits.getD d '?'

/-- `while (n > 0)` with the bytes of `buf` that are left. -/
def printUintLoop (digits : List Char) (base : Nat) : Nat → Nat → List Char → Option (List Char)
  | 0, n, buf => if n > 0 then none else some buf
  | room + 1, n, buf =>
    if n > 0 then printUintLoop digits base room (n / base) (buf ++ [digitOf digits (n % base)])
    else some buf

def printUintBufBytes : Nat := 64

def printUint (n : BitVec 64) (base : Nat) (upper : Bool) (width : Int) (pad : Char) :
    Option (List Char) :=
  let digits := if upper then digitsHi else digitsLo
  let buf := if n = 0#64 then some ['0'] else printUintLoop digits base printUintBufBytes n.toNat []
  buf.map fun buf => List.replicate (width - buf.length).toNat pad ++ buf.reverse

def printInt (n : BitVec 64) (width : Int) (pad : Char) : Option (List Char) :=
  if n.slt 0#64 then
    let width := if width > 0 then width - 1 else width
    (printUint (-(n + 1#64) + 1#64) 10 false width pad).map fun text => '-' :: text
  else printUint n 10 false width pad

/-- `while (value && n < sizeof(buf))` with the bytes of `buf` that are left. -/
def uWriteUintLoop : Nat → Nat → List Char → List Char
  | 0, _, buf => buf
  | room + 1, value, buf =>
    if value ≠ 0 then uWriteUintLoop room (value / 10) (buf ++ [Char.ofNat (48 + value % 10)]) else buf

def uWriteUint (value : BitVec 32) : List Char :=
  if value = 0#32 then ['0'] else (uWriteUintLoop 10 value.toNat []).reverse

/-! ## Reading digits -/

def digitValue (c : Char) : Option Nat :=
  if '0' ≤ c ∧ c ≤ '9' then some (c.toNat - 48)
  else if 'a' ≤ c ∧ c ≤ 'f' then some (c.toNat - 87)
  else if 'A' ≤ c ∧ c ≤ 'F' then some (c.toNat - 55)
  else none

/-- One more digit behind those that are read. -/
def readDigit (base acc : Nat) (c : Char) : Option Nat :=
  (digitValue c).bind fun d => if d < base then some (acc * base + d) else none

def readDigits (base : Nat) (ds : List Char) : Option Nat := ds.foldlM (readDigit base) 0

/-- `ds` is the number `n` in the given base, without leading zeros, in 64 characters at most. -/
structure Numeral (base n : Nat) (ds : List Char) : Prop where
  reads : readDigits base ds = some n
  leading : n ≠ 0 → ds.head? ≠ some '0'
  zero : n = 0 → ds = ['0']
  fits : ds.length ≤ 64

variable {digits : List Char} {base n : Nat}

/-- A table whose entries read back as their index. -/
def Table (digits : List Char) (base : Nat) : Prop :=
  ∀ d < base, digitValue (digitOf digits d) = some d

theorem table_lo : Table digitsLo 16 := by
  unfold Table
  decide

theorem table_hi : Table digitsHi 16 := by
  unfold Table
  decide

theorem Table.mono {base' : Nat} (table : Table digits base) (le : base' ≤ base) :
    Table digits base' :=
  fun d lt => table d (Nat.lt_of_lt_of_le lt le)

theorem readDigits_reverse (table : Table digits base) {ds : List Nat} (small : ∀ d ∈ ds, d < base) :
    readDigits base (ds.map (digitOf digits)).reverse = some (Nat.ofDigits base ds) := by
  induction ds with
  | nil => rfl
  | cons d ds ih =>
    have lt := small d (List.mem_cons_self ..)
    have rest := ih fun d' member => small d' (List.mem_cons_of_mem d member)
    unfold readDigits at rest ⊢
    rw [List.map_cons, List.reverse_cons, List.foldlM_append, rest]
    simp [readDigit, table d lt, lt, Nat.ofDigits_cons, Nat.mul_comm, Nat.add_comm]

/-! ## The loops -/

theorem printUintLoop_eq (large : 1 < base) (room : Nat) (n : Nat) (buf : List Char)
    (fits : n < base ^ room) :
    printUintLoop digits base room n buf = some (buf ++ (Nat.digits base n).map (digitOf digits)) := by
  induction room generalizing n buf with
  | zero =>
    obtain rfl : n = 0 := by simpa using fits
    simp [printUintLoop]
  | succ room ih =>
    rw [printUintLoop]
    by_cases positive : 0 < n
    · have smaller : n / base < base ^ room := by
        rw [Nat.div_lt_iff_lt_mul (by omega)]
        rwa [Nat.pow_succ] at fits
      rw [if_pos positive, ih _ _ smaller, Nat.digits_def' large positive]
      simp
    · obtain rfl : n = 0 := by omega
      simp

/-- The tables begin with the decimal digits. -/
def Decimal (digits : List Char) : Prop := ∀ d < 10, digitOf digits d = Char.ofNat (48 + d)

theorem uWriteUintLoop_eq (decimal : Decimal digits) (room : Nat) (n : Nat) (buf : List Char)
    (fits : n < 10 ^ room) :
    uWriteUintLoop room n buf = buf ++ (Nat.digits 10 n).map (digitOf digits) := by
  induction room generalizing n buf with
  | zero =>
    obtain rfl : n = 0 := by simpa using fits
    simp [uWriteUintLoop]
  | succ room ih =>
    rw [uWriteUintLoop]
    by_cases zero : n = 0
    · simp [zero]
    · have smaller : n / 10 < 10 ^ room := by
        rw [Nat.pow_succ] at fits
        omega
      have step := Nat.digits_def' (b := 10) (n := n) (by decide) (by omega)
      rw [if_pos zero, ih _ _ smaller, step, ← decimal _ (Nat.mod_lt n (by decide)), List.map_cons,
        List.append_assoc, List.singleton_append]

/-- The digits of a positive number. -/
theorem numeral_digits (table : Table digits base) (large : 1 < base) (positive : n ≠ 0)
    (fits : n < base ^ 64) : Numeral base n ((Nat.digits base n).map (digitOf digits)).reverse := by
  have small : ∀ d ∈ Nat.digits base n, d < base := fun d member => Nat.digits_lt_base large member
  have nonempty : Nat.digits base n ≠ [] := Nat.digits_ne_nil_iff_ne_zero.mpr positive
  refine ⟨?_, fun _ leading => ?_, fun zero => absurd zero positive, ?_⟩
  · rw [readDigits_reverse table small, Nat.ofDigits_digits]
  · -- the first character is the last digit, which is not zero
    rw [List.head?_reverse, List.getLast?_map, List.getLast?_eq_getLast_of_ne_nil nonempty] at leading
    have value := table _ (small _ (List.getLast_mem nonempty))
    rw [Option.some.inj leading] at value
    exact Nat.getLast_digit_ne_zero base positive (Option.some.inj value).symm
  · rw [List.length_reverse, List.length_map]
    exact (Nat.digits_length_le_iff large n).mpr fits

theorem table_digits (upper : Bool) : Table (if upper then digitsHi else digitsLo) 16 := by
  cases upper
  · exact table_lo
  · exact table_hi

theorem decimal_digits (upper : Bool) : Decimal (if upper then digitsHi else digitsLo) := by
  unfold Decimal
  cases upper <;> decide

theorem numeral_zero (base : Nat) (large : 1 < base) : Numeral base 0 ['0'] := by
  refine ⟨?_, fun positive => absurd rfl positive, fun _ => rfl, by decide⟩
  have value : digitValue '0' = some 0 := by decide
  simp [readDigits, readDigit, value, Nat.lt_of_succ_lt large]

/-- What `print_uint` leaves in its buffer, in the order of printing. -/
def uintText (n base : Nat) (upper : Bool) : List Char :=
  if n = 0 then ['0']
  else ((Nat.digits base n).map (digitOf (if upper then digitsHi else digitsLo))).reverse

theorem numeral_uintText {n : BitVec 64} (known : base = 10 ∨ base = 16) (upper : Bool) :
    Numeral base n.toNat (uintText n.toNat base upper) := by
  have large : 1 < base := by omega
  unfold uintText
  split
  · rename_i zero
    rw [zero]
    exact numeral_zero base large
  · rename_i positive
    have fits : n.toNat < base ^ 64 :=
      Nat.lt_of_lt_of_le n.isLt (Nat.pow_le_pow_left (by omega) 64)
    exact numeral_digits ((table_digits upper).mono (by omega)) large positive fits

theorem printUint_eq (n : BitVec 64) (known : base = 10 ∨ base = 16) (upper : Bool) (width : Int)
    (pad : Char) : printUint n base upper width pad =
      some (List.replicate (width - (uintText n.toNat base upper).length).toNat pad ++
        uintText n.toNat base upper) := by
  have fits : n.toNat < base ^ 64 :=
    Nat.lt_of_lt_of_le n.isLt (Nat.pow_le_pow_left (by omega) 64)
  have zero : n = 0#64 ↔ n.toNat = 0 := by
    rw [← BitVec.toNat_inj]
    rfl
  unfold printUint uintText
  dsimp only
  by_cases none_ : n.toNat = 0
  · simp [zero, none_]
  · rw [if_neg (zero.not.mpr none_), if_neg none_, printUintBufBytes,
      printUintLoop_eq (by omega) 64 n.toNat [] fits]
    simp

/-- The magnitude that `print_int` prints of a negative number; the most negative one has no
negation in 64 bits, and comes out right as an unsigned number. -/
theorem negated_toNat {n : BitVec 64} (negative : n.slt 0#64 = true) :
    ((-(n + 1#64) + 1#64).toNat : Int) = -n.toInt := by
  rw [BitVec.slt_iff_toInt_lt, BitVec.toInt_zero] at negative
  have := n.isLt
  rw [BitVec.toInt_eq_toNat_cond] at negative ⊢
  simp only [BitVec.toNat_add, BitVec.toNat_neg, BitVec.toNat_ofNat]
  split at negative <;> split <;> omega

theorem nonnegative_toNat {n : BitVec 64} (nonnegative : n.slt 0#64 = false) :
    (n.toNat : Int) = n.toInt := by
  have ge : ¬ n.toInt < 0 := by
    rw [← BitVec.toInt_zero (w := 64), ← BitVec.slt_iff_toInt_lt, nonnegative]
    exact Bool.false_ne_true
  have := n.isLt
  rw [BitVec.toInt_eq_toNat_cond] at ge ⊢
  split at ge <;> split <;> omega

/-- A sign, padding up to the width, and the digits of the magnitude. -/
def SignedText (n width : Int) (pad : Char) (text : List Char) : Prop :=
  ∃ sign ds, text = sign ++ List.replicate (width - (sign.length + ds.length)).toNat pad ++ ds ∧
    Numeral 10 n.natAbs ds ∧ sign = if n < 0 then ['-'] else []

theorem printInt_text (n : BitVec 64) (width : Int) (pad : Char) :
    ∃ text, printInt n width pad = some text ∧ SignedText n.toInt width pad text := by
  unfold printInt
  cases sign : n.slt 0#64 with
  | true =>
    have magnitude := negated_toNat sign
    have negative : n.toInt < 0 := by
      rw [BitVec.slt_iff_toInt_lt, BitVec.toInt_zero] at sign
      exact sign
    have numeral : Numeral 10 (-(n + 1#64) + 1#64).toNat (uintText (-(n + 1#64) + 1#64).toNat 10 false) :=
      numeral_uintText (.inl rfl) false
    have same : (-(n + 1#64) + 1#64).toNat = n.toInt.natAbs := by omega
    rw [if_pos rfl]
    dsimp only
    rw [same] at numeral
    rw [printUint_eq _ (.inl rfl), same]
    refine ⟨_, rfl, ['-'], uintText n.toInt.natAbs 10 false, ?_, numeral, (if_pos negative).symm⟩
    -- the sign takes one place of a positive width
    have places : ((if width > 0 then width - 1 else width) -
        ((uintText n.toInt.natAbs 10 false).length : Int)).toNat =
          (width - ((['-'].length : Int) + (uintText n.toInt.natAbs 10 false).length)).toNat := by
      rw [List.length_singleton]
      split <;> omega
    rw [places]
    rfl
  | false =>
    have magnitude := nonnegative_toNat sign
    have nonnegative : ¬ n.toInt < 0 := by omega
    rw [if_neg Bool.false_ne_true, printUint_eq _ (.inl rfl)]
    refine ⟨_, rfl, [], uintText n.toNat 10 false, ?_, ?_, (if_neg nonnegative).symm⟩
    · simp
    · have same : n.toInt.natAbs = n.toNat := by omega
      rw [same]
      exact numeral_uintText (.inl rfl) false

theorem uWriteUint_eq (value : BitVec 32) (upper : Bool) :
    uWriteUint value = uintText value.toNat 10 upper := by
  have zero : value = 0#32 ↔ value.toNat = 0 := by
    rw [← BitVec.toNat_inj]
    rfl
  have fits : value.toNat < 10 ^ 10 := Nat.lt_of_lt_of_le value.isLt (by decide)
  unfold uWriteUint uintText
  by_cases none_ : value.toNat = 0
  · rw [if_pos (zero.mpr none_), if_pos none_]
  · rw [if_neg (zero.not.mpr none_), if_neg none_,
      uWriteUintLoop_eq (decimal_digits upper) 10 value.toNat [] fits, List.nil_append]

/-- Printing is faithful: `print_uint` pads and prints the numeral of its argument, `print_int` a
sign and the numeral of the magnitude, and `u_write_uint` prints as `print_uint` does. -/
theorem printing_faithful (base : Nat) (known : base = 10 ∨ base = 16) :
    (∀ (n : BitVec 64) (upper : Bool) (width : Int) (pad : Char), ∃ ds,
        Numeral base n.toNat ds ∧ printUint n base upper width pad =
          some (List.replicate (width - ds.length).toNat pad ++ ds)) ∧
      (∀ (n : BitVec 64) (width : Int) (pad : Char), ∃ text,
        printInt n width pad = some text ∧ SignedText n.toInt width pad text) ∧
      ∀ (value : BitVec 32) (upper : Bool) (pad : Char),
        printUint (value.setWidth 64) 10 upper 0 pad = some (uWriteUint value) := by
  refine ⟨fun n upper width pad => ⟨_, numeral_uintText known upper, printUint_eq n known upper width pad⟩,
    printInt_text, fun value upper pad => ?_⟩
  have same : (value.setWidth 64).toNat = value.toNat := by
    rw [BitVec.toNat_setWidth]
    exact Nat.mod_eq_of_lt (Nat.lt_trans value.isLt (by decide))
  rw [printUint_eq _ (.inl rfl), same, uWriteUint_eq value upper]
  have none_ : (0 - ((uintText value.toNat 10 upper).length : Int)).toNat = 0 := by omega
  rw [none_]
  rfl

theorem printing_faithful_hex : ∃ ds, Numeral 16 255 ds ∧
    printUint 255#64 16 false 4 '0' = some (List.replicate (4 - (ds.length : Int)).toNat '0' ++ ds) :=
  (printing_faithful 16 (.inr rfl)).1 255#64 false 4 '0'

end LithiumKernel.Klib
