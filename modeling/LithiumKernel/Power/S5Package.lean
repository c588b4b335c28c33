import Mathlib.Data.List.Basic
import Mathlib.Data.List.GetD
import Mathlib.Tactic.Common
import Mathlib.Tactic.Ring

/-!
# The _S5_ package (kernel/power/power.c)

`acpi_parse_s5_package` looks through the bytes of an ACPI table for the name `_S5_` with a package
after it, and takes the first two integers of the package. The buffer is the list of its bytes, a
pointer into it is an index, and to read past its end is a fault of its own. The pointers of the
caller are not NULL.

The parser never faults on a buffer whose length it is told. So it is the same as a pure search, and
what it finds is read off from that: for a well-formed package, the first two elements.
-/
namespace LithiumKernel.Power

abbrev Byte := BitVec 8

inductive Fault where
  | outside (index : Nat)
  | hang
  deriving DecidableEq

def byteAt (aml : List Byte) (i : Nat) : Except Fault Byte :=
  match aml[i]? with
  | some b => .ok b
  | none => .error (.outside i)

/-! ## The code -/

def amlPkgLenSize (first : Byte) : Nat := ((first >>> 6) &&& 0x03#8).toNat + 1

def amlReadPkgLen (aml : List Byte) (p : Nat) : Except Fault (BitVec 32) := do
  let first ← byteAt aml p
  let bytes := amlPkgLenSize first
  if bytes = 1 then pure ((first &&& 0x3F#8).setWidth 32)
  else
    (List.range' 1 (bytes - 1)).foldlM (fun value i => do
      let b ← byteAt aml (p + i)
      pure (value ||| b.setWidth 32 <<< (4 + (i - 1) * 8))) ((first &&& 0x0F#8).setWidth 32)

/-- The value and the index after it; `none` is the return value false. -/
def amlReadInt (aml : List Byte) (p until_ : Nat) : Except Fault (Option (Byte × Nat)) :=
  if until_ ≤ p then pure none
  else do
    let op ← byteAt aml p
    if op = 0x00#8 then pure (some (0#8, p + 1))
    else if op = 0x01#8 then pure (some (1#8, p + 1))
    else if op = 0x0A#8 then
      if until_ ≤ p + 1 then pure none
      else do
        let value ← byteAt aml (p + 1)
        pure (some (value, p + 2))
    else if op = 0x0B#8 then
      -- of a word only the low byte is kept
      if until_ < p + 3 then pure none
      else do
        let value ← byteAt aml (p + 1)
        pure (some (value, p + 3))
    else pure (some (op, p + 1))

/-- The comparison with the name, byte by byte until one is different. -/
def isName (aml : List Byte) (i : Nat) : List Byte → Except Fault Bool
  | [] => pure true
  | expected :: rest => do
    let b ← byteAt aml i
    if b ≠ expected then pure false else isName aml (i + 1) rest

/-- `_S5_` -/
def s5Name : List Byte := [0x5F#8, 0x53#8, 0x35#8, 0x5F#8]

/-- The body of the loop; `none` is `continue`. -/
def parseAt (aml : List Byte) (length i : Nat) : Except Fault (Option (Byte × Byte)) := do
  if (← isName aml i s5Name) = false then pure none
  else
    let p := i + 4
    if length ≤ p then pure none
    else if (← byteAt aml p) ≠ 0x12#8 then pure none
    else
      let p := p + 1
      if length ≤ p then pure none
      else
        let pkgBytes := amlPkgLenSize (← byteAt aml p)
        let pkgLen ← amlReadPkgLen aml p
        let p := p + pkgBytes
        if length ≤ p then pure none
        else
          let _elements ← byteAt aml p
          let p := p + 1
          let pkgEnd := if length < p + pkgLen.toNat then length else p + pkgLen.toNat
          match ← amlReadInt aml p pkgEnd with
          | none => pure none
          | some (a, p) =>
            match ← amlReadInt aml p pkgEnd with
            | none => pure (some (a, a))
            | some (b, _) => pure (some (a, b))

/-- The loop, with its 32-bit index. -/
def scan (aml : List Byte) (length : Nat) : Nat → Nat → Except Fault (Option (Byte × Byte))
  | 0, _ => .error .hang
  | fuel + 1, i =>
    if (i + 8) % 2 ^ 32 < length then do
      match ← parseAt aml length i with
      | some types => pure (some types)
      | none => scan aml length fuel ((i + 1) % 2 ^ 32)
    else pure none

/-- `slp_typ_a` and `slp_typ_b`; `none` is the return value false. -/
def acpiParseS5Package (aml : List Byte) (length : Nat) : Except Fault (Option (Byte × Byte)) :=
  if length < 8 then pure none else scan aml length length 0

/-! ## The search it comes down to -/

/-- Little-endian. -/
def littleEndian : List Byte → Nat
  | [] => 0
  | b :: rest => b.toNat + 256 * littleEndian rest

/-- The number a PkgLength stands for. Its first byte says how many more there are. -/
def pkgLength (aml : List Byte) (p : Nat) : Nat :=
  let first := (aml.getD p 0#8).toNat
  if first / 64 = 0 then first % 64
  else first % 16 + 16 * littleEndian ((List.range (first / 64)).map fun j => aml.getD (p + 1 + j) 0#8)

def readInt (aml : List Byte) (p until_ : Nat) : Option (Byte × Nat) :=
  if until_ ≤ p then none
  else if aml.getD p 0#8 = 0x00#8 then some (0#8, p + 1)
  else if aml.getD p 0#8 = 0x01#8 then some (1#8, p + 1)
  else if aml.getD p 0#8 = 0x0A#8 then
    if until_ ≤ p + 1 then none else some (aml.getD (p + 1) 0#8, p + 2)
  else if aml.getD p 0#8 = 0x0B#8 then
    if until_ < p + 3 then none else some (aml.getD (p + 1) 0#8, p + 3)
  else some (aml.getD p 0#8, p + 1)

/-- The name and the opcode of a package stand at `i`. -/
def NamesPackage (aml : List Byte) (i : Nat) : Prop :=
  aml.getD i 0#8 = 0x5F#8 ∧ aml.getD (i + 1) 0#8 = 0x53#8 ∧ aml.getD (i + 2) 0#8 = 0x35#8 ∧
    aml.getD (i + 3) 0#8 = 0x5F#8 ∧ aml.getD (i + 4) 0#8 = 0x12#8

instance (aml : List Byte) (i : Nat) : Decidable (NamesPackage aml i) :=
  inferInstanceAs (Decidable (_ ∧ _))

/-- How many bytes the PkgLength of the package at `i` has. -/
def lengthBytes (aml : List Byte) (i : Nat) : Nat := (aml.getD (i + 5) 0#8).toNat / 64 + 1

/-- The first element of the package at `i`. -/
def firstElement (aml : List Byte) (i : Nat) : Nat := i + 6 + lengthBytes aml i

/-- Where the parser takes the package to end. -/
def parsedEnd (aml : List Byte) (i : Nat) : Nat :=
  min (firstElement aml i + pkgLength aml (i + 5)) aml.length

def twoInts (aml : List Byte) (p until_ : Nat) : Option (Byte × Byte) :=
  match readInt aml p until_ with
  | none => none
  | some (a, p) =>
    match readInt aml p until_ with
    | none => some (a, a)
    | some (b, _) => some (a, b)

def s5At (aml : List Byte) (i : Nat) : Option (Byte × Byte) :=
  if NamesPackage aml i ∧ i + 5 + lengthBytes aml i < aml.length then
    twoInts aml (firstElement aml i) (parsedEnd aml i)
  else none

/-- The first place from `i` on that gives two integers. -/
def s5From (aml : List Byte) (i : Nat) : Option (Byte × Byte) :=
  (List.range' i (aml.length - 8 - i)).findSome? (s5At aml)

section Reading

variable {aml : List Byte} {i p : Nat}

theorem byteAt_inside (inside : i < aml.length) : byteAt aml i = .ok (aml.getD i 0#8) := by
  rw [byteAt, List.getD_eq_getElem?_getD, List.getElem?_eq_getElem inside]
  rfl

theorem amlPkgLenSize_eq (first : Byte) : amlPkgLenSize first = first.toNat / 64 + 1 := by
  have high : first.toNat / 64 < 4 := by
    have := first.isLt
    omega
  rw [amlPkgLenSize, BitVec.toNat_and, BitVec.toNat_ushiftRight, Nat.shiftRight_eq_div_pow]
  have mask : (0x03#8).toNat = 2 ^ 2 - 1 := rfl
  rw [mask, Nat.and_two_pow_sub_one_eq_mod]
  omega

/-- A byte that is put above the bits there are. -/
theorem or_shifted (value : BitVec 32) (b : Byte) (s : Nat) (low : value.toNat < 2 ^ s)
    (fits : s + 8 ≤ 32) :
    (value ||| b.setWidth 32 <<< s).toNat = value.toNat + 2 ^ s * b.toNat := by
  have small : b.toNat * 2 ^ s < 2 ^ 32 := by
    calc b.toNat * 2 ^ s < 2 ^ 8 * 2 ^ s := Nat.mul_lt_mul_of_pos_right b.isLt (Nat.two_pow_pos s)
      _ = 2 ^ (8 + s) := (Nat.pow_add 2 8 s).symm
      _ ≤ 2 ^ 32 := Nat.pow_le_pow_right (by decide) (by omega)
  have byte : (b.setWidth 32).toNat = b.toNat := by
    have := b.isLt
    rw [BitVec.toNat_setWidth, Nat.mod_eq_of_lt (by omega)]
  rw [BitVec.toNat_or, BitVec.toNat_shiftLeft, byte, Nat.shiftLeft_eq, Nat.mod_eq_of_lt small,
    Nat.or_comm, Nat.mul_comm, ← Nat.two_pow_add_eq_or_of_lt low, Nat.add_comm]

theorem low_bits (first : Byte) (n : Nat) (fits : n ≤ 8) :
    ((first &&& BitVec.ofNat 8 (2 ^ n - 1)).setWidth 32).toNat = first.toNat % 2 ^ n := by
  have mask : (BitVec.ofNat 8 (2 ^ n - 1)).toNat = 2 ^ n - 1 := by
    have : 2 ^ n ≤ 2 ^ 8 := Nat.pow_le_pow_right (by decide) fits
    rw [BitVec.toNat_ofNat, Nat.mod_eq_of_lt (by have := Nat.two_pow_pos n; omega)]
  have small : first.toNat % 2 ^ n < 2 ^ 32 :=
    Nat.lt_of_le_of_lt (Nat.mod_le _ _) (Nat.lt_trans first.isLt (by decide))
  rw [BitVec.toNat_setWidth, BitVec.toNat_and, mask, Nat.and_two_pow_sub_one_eq_mod,
    Nat.mod_eq_of_lt small]

/-- The loop over the further bytes; each lands above the bits that are there. -/
theorem pkgLen_loop : ∀ (k s : Nat) (value : BitVec 32), value.toNat < 2 ^ (4 + s * 8) →
    s + k ≤ 3 → p + 1 + s + k ≤ aml.length →
    ∃ result, (List.range' (s + 1) k).foldlM (fun value i => do
        let b ← byteAt aml (p + i)
        pure (value ||| b.setWidth 32 <<< (4 + (i - 1) * 8))) value = Except.ok result ∧
      result.toNat = value.toNat + 2 ^ (4 + s * 8) *
        littleEndian ((List.range k).map fun j => aml.getD (p + 1 + (s + j)) 0#8) := by
  intro k
  induction k with
  | zero =>
    intro s value _ _ _
    exact ⟨value, rfl, by simp [littleEndian]⟩
  | succ k ih =>
    intro s value low few inside
    have byte := byteAt_inside (by omega : p + (s + 1) < aml.length)
    have next := or_shifted value (aml.getD (p + (s + 1)) 0#8) (4 + s * 8) low (by omega)
    have pow : 2 ^ (4 + (s + 1) * 8) = 2 ^ (4 + s * 8) * 256 := by
      rw [show 4 + (s + 1) * 8 = 4 + s * 8 + 8 by omega, Nat.pow_add]
    have small : (value ||| (aml.getD (p + (s + 1)) 0#8).setWidth 32 <<< (4 + s * 8)).toNat <
        2 ^ (4 + (s + 1) * 8) := by
      have bound := (aml.getD (p + (s + 1)) 0#8).isLt
      rw [next, pow]
      calc value.toNat + 2 ^ (4 + s * 8) * (aml.getD (p + (s + 1)) 0#8).toNat
          < 2 ^ (4 + s * 8) + 2 ^ (4 + s * 8) * (aml.getD (p + (s + 1)) 0#8).toNat :=
            Nat.add_lt_add_right low _
        _ = 2 ^ (4 + s * 8) * ((aml.getD (p + (s + 1)) 0#8).toNat + 1) := by
            rw [Nat.mul_add, Nat.mul_one, Nat.add_comm]
        _ ≤ 2 ^ (4 + s * 8) * 256 := Nat.mul_le_mul_left _ (by omega)
    obtain ⟨result, run, value_⟩ := ih (s + 1) _ small (by omega) (by omega)
    refine ⟨result, ?_, ?_⟩
    · rw [List.range'_succ, List.foldlM_cons, byte]
      exact run
    · have tail : ((List.range k).map fun j => aml.getD (p + 1 + (s + 1 + j)) 0#8) =
          (List.range k).map ((fun j => aml.getD (p + 1 + (s + j)) 0#8) ∘ Nat.succ) := by
        refine List.map_congr_left fun j _ => ?_
        rw [Function.comp_apply, show s + 1 + j = s + Nat.succ j by omega]
      rw [value_, next, pow, List.range_succ_eq_map, List.map_cons, List.map_map, littleEndian, ← tail,
        show p + 1 + (s + 0) = p + (s + 1) by omega]
      ring

/-- Four bytes from `p` on are enough for any PkgLength. -/
theorem amlReadPkgLen_eq (inside : p + 3 < aml.length) :
    ∃ value, amlReadPkgLen aml p = .ok value ∧ value.toNat = pkgLength aml p := by
  have high : (aml.getD p 0#8).toNat / 64 < 4 := by
    have := (aml.getD p 0#8).isLt
    omega
  have read := byteAt_inside (by omega : p < aml.length)
  have six : ((aml.getD p 0#8 &&& 0x3F#8).setWidth 32).toNat = (aml.getD p 0#8).toNat % 2 ^ 6 :=
    low_bits _ 6 (by decide)
  have four : ((aml.getD p 0#8 &&& 0x0F#8).setWidth 32).toNat = (aml.getD p 0#8).toNat % 2 ^ 4 :=
    low_bits _ 4 (by decide)
  have start : amlReadPkgLen aml p = if amlPkgLenSize (aml.getD p 0#8) = 1 then
      pure ((aml.getD p 0#8 &&& 0x3F#8).setWidth 32)
      else (List.range' 1 (amlPkgLenSize (aml.getD p 0#8) - 1)).foldlM (fun value i => do
        let b ← byteAt aml (p + i)
        pure (value ||| b.setWidth 32 <<< (4 + (i - 1) * 8)))
          ((aml.getD p 0#8 &&& 0x0F#8).setWidth 32) := by
    rw [amlReadPkgLen, read]
    rfl
  rw [start, pkgLength, amlPkgLenSize_eq, Nat.add_sub_cancel]
  by_cases single : (aml.getD p 0#8).toNat / 64 = 0
  · rw [if_pos (by omega), if_pos single]
    exact ⟨_, rfl, six⟩
  · rw [if_neg (by omega), if_neg single]
    obtain ⟨result, run, value⟩ := @pkgLen_loop aml p ((aml.getD p 0#8).toNat / 64) 0
      ((aml.getD p 0#8 &&& 0x0F#8).setWidth 32) (by rw [four]; exact Nat.mod_lt _ (by decide))
      (by omega) (by omega)
    refine ⟨result, run, ?_⟩
    rw [value, four]
    simp

theorem amlReadInt_eq {until_ : Nat} (inside : until_ ≤ aml.length) :
    amlReadInt aml p until_ = .ok (readInt aml p until_) := by
  unfold amlReadInt readInt
  by_cases past : until_ ≤ p
  · rw [if_pos past, if_pos past]
    rfl
  · rw [if_neg past, if_neg past, byteAt_inside (by omega)]
    change (if aml.getD p 0#8 = 0x00#8 then _ else _) = _
    split_ifs with zero one byte short word shorter
    · rfl
    · rfl
    · rfl
    · rw [byteAt_inside (by omega)]
      rfl
    · rfl
    · rw [byteAt_inside (by omega)]
      rfl
    · rfl

theorem ok_bind {α β : Type} (x : α) (f : α → Except Fault β) :
    (Except.ok x : Except Fault α) >>= f = f x := rfl

theorem isName_s5 (inside : i + 3 < aml.length) :
    isName aml i s5Name = .ok (decide (aml.getD i 0#8 = 0x5F#8 ∧ aml.getD (i + 1) 0#8 = 0x53#8 ∧
      aml.getD (i + 2) 0#8 = 0x35#8 ∧ aml.getD (i + 3) 0#8 = 0x5F#8)) := by
  simp only [isName, s5Name, byteAt_inside (by omega : i < aml.length),
    byteAt_inside (by omega : i + 1 < aml.length), byteAt_inside (by omega : i + 1 + 1 < aml.length),
    byteAt_inside (by omega : i + 1 + 1 + 1 < aml.length), ok_bind]
  split_ifs with first second third fourth <;> simp_all <;> rfl

/-- One round of the loop reads inside the buffer, because the whole look-ahead ends at `i + 8`. -/
theorem parseAt_eq (inside : i + 8 < aml.length) :
    parseAt aml aml.length i = .ok (s5At aml i) := by
  obtain ⟨value, length, same⟩ : ∃ value, amlReadPkgLen aml (i + 4 + 1) = .ok value ∧
      value.toNat = pkgLength aml (i + 5) := amlReadPkgLen_eq (by omega)
  have few : (aml.getD (i + 5) 0#8).toNat / 64 < 4 := by
    have := (aml.getD (i + 5) 0#8).isLt
    omega
  rw [parseAt, isName_s5 (by omega), ok_bind, s5At]
  by_cases named : aml.getD i 0#8 = 0x5F#8 ∧ aml.getD (i + 1) 0#8 = 0x53#8 ∧
      aml.getD (i + 2) 0#8 = 0x35#8 ∧ aml.getD (i + 3) 0#8 = 0x5F#8
  · rw [decide_eq_true named, if_neg (by decide)]
    dsimp only
    rw [if_neg (by omega), byteAt_inside (by omega : i + 4 < aml.length), ok_bind]
    by_cases opcode : aml.getD (i + 4) 0#8 = 0x12#8
    · have package : NamesPackage aml i := ⟨named.1, named.2.1, named.2.2.1, named.2.2.2, opcode⟩
      rw [if_neg (not_not.mpr opcode), if_neg (by omega),
        byteAt_inside (by omega : i + 4 + 1 < aml.length), ok_bind, length, ok_bind,
        amlPkgLenSize_eq, same]
      have next : i + 4 + 1 + ((aml.getD (i + 4 + 1) 0#8).toNat / 64 + 1) =
        i + 5 + lengthBytes aml i := rfl
      rw [next]
      by_cases past : aml.length ≤ i + 5 + lengthBytes aml i
      · rw [if_pos past, if_neg (by omega)]
        rfl
      · have until_ : (if aml.length < i + 5 + lengthBytes aml i + 1 + pkgLength aml (i + 5) then
            aml.length else i + 5 + lengthBytes aml i + 1 + pkgLength aml (i + 5)) =
            parsedEnd aml i := by
          rw [parsedEnd, firstElement, show i + 5 + lengthBytes aml i + 1 = i + 6 + lengthBytes aml i
            by omega]
          split <;> omega
        have first : i + 5 + lengthBytes aml i + 1 = firstElement aml i := by
          rw [firstElement]
          omega
        have bounded : parsedEnd aml i ≤ aml.length := Nat.min_le_right _ _
        have here : NamesPackage aml i ∧ i + 5 + lengthBytes aml i < aml.length :=
          ⟨package, by omega⟩
        rw [if_neg past, byteAt_inside (by omega), ok_bind, until_, first, amlReadInt_eq bounded,
          ok_bind, if_pos here, twoInts]
        cases readInt aml (firstElement aml i) (parsedEnd aml i) with
        | none => rfl
        | some read =>
          obtain ⟨a, p⟩ := read
          dsimp only
          rw [amlReadInt_eq bounded, ok_bind]
          cases readInt aml p (parsedEnd aml i) with
          | none => rfl
          | some read => rfl
    · rw [if_pos opcode, if_neg fun package => opcode package.1.2.2.2.2]
      rfl
  · rw [decide_eq_false named, if_pos rfl, if_neg]
    · rfl
    · rintro ⟨⟨first, second, third, fourth, _⟩, _⟩
      exact named ⟨first, second, third, fourth⟩

theorem s5From_done (past : aml.length ≤ i + 8) : s5From aml i = none := by
  rw [s5From, show aml.length - 8 - i = 0 by omega]
  rfl

theorem s5From_step (inside : i + 8 < aml.length) :
    s5From aml i = (s5At aml i).or (s5From aml (i + 1)) := by
  rw [s5From, s5From, show aml.length - 8 - i = aml.length - 8 - (i + 1) + 1 by omega,
    List.range'_succ, List.findSome?_cons]
  cases s5At aml i <;> rfl

theorem scan_eq (u32 : aml.length < 2 ^ 32) : ∀ {fuel i : Nat}, aml.length < fuel + i + 8 → 0 < fuel →
    i + 8 ≤ aml.length → scan aml aml.length fuel i = .ok (s5From aml i) := by
  intro fuel
  induction fuel with
  | zero =>
    intro i _ positive _
    omega
  | succ fuel ih =>
    intro i enough _ inside
    rw [scan, Nat.mod_eq_of_lt (by omega : i + 8 < 2 ^ 32)]
    by_cases more : i + 8 < aml.length
    · rw [if_pos more, parseAt_eq more, ok_bind, s5From_step more,
        Nat.mod_eq_of_lt (by omega : i + 1 < 2 ^ 32)]
      cases s5At aml i with
      | some types => rfl
      | none => exact ih (by omega) (by omega) (by omega)
    · rw [if_neg more, s5From_done (by omega)]
      rfl

/-- The parser is the search: it never reads past the end of the buffer and never hangs. -/
theorem acpiParseS5Package_eq (u32 : aml.length < 2 ^ 32) :
    acpiParseS5Package aml aml.length = .ok (s5From aml 0) := by
  rw [acpiParseS5Package]
  by_cases short : aml.length < 8
  · rw [if_pos short, s5From_done (by omega)]
    rfl
  · rw [if_neg short]
    exact scan_eq u32 (by omega) (by omega) (by omega)

theorem s5From_next (none_ : s5At aml i = none) : s5From aml i = s5From aml (i + 1) := by
  by_cases inside : i + 8 < aml.length
  · rw [s5From_step inside, none_]
    rfl
  · rw [s5From_done (by omega), s5From_done (by omega)]

/-- The search goes past what is no package. -/
theorem s5From_skip {j : Nat} (none_ : ∀ k < j, s5At aml k = none) :
    s5From aml 0 = s5From aml j := by
  induction j with
  | zero => rfl
  | succ j ih => exact (ih fun k lt => none_ k (by omega)).trans (s5From_next (none_ j (by omega)))

theorem s5At_none (unnamed : ¬ NamesPackage aml i) : s5At aml i = none :=
  if_neg fun package => unnamed package.1

end Reading

/-! ## Well-formed packages -/

/-- The encodings of an integer below 256: ZeroOp, OneOp, BytePrefix and WordPrefix. -/
inductive AmlInt : Byte → List Byte → Prop where
  | zero : AmlInt 0#8 [0x00#8]
  | one : AmlInt 1#8 [0x01#8]
  | byte (value : Byte) : AmlInt value [0x0A#8, value]
  | word (value : Byte) : AmlInt value [0x0B#8, value, 0x00#8]

/-- The encodings of a length, with one to four bytes. -/
def PkgLength (n : Nat) : List Byte → Prop
  | [] => False
  | first :: rest => rest.length = first.toNat / 64 ∧
      n = if rest = [] then first.toNat % 64 else first.toNat % 16 + 16 * littleEndian rest

theorem getD_after (xs ys : List Byte) (j : Nat) :
    (xs ++ ys).getD (xs.length + j) 0#8 = ys.getD j 0#8 := by
  rw [List.getD_append_right _ _ _ _ (by omega), Nat.add_sub_cancel_left]

theorem AmlInt.positive {value : Byte} {code : List Byte} (int : AmlInt value code) :
    0 < code.length := by
  cases int <;> simp

theorem AmlInt.read {aml code : List Byte} {value : Byte} {p until_ : Nat} (int : AmlInt value code)
    (stands : ∀ j < code.length, aml.getD (p + j) 0#8 = code.getD j 0#8)
    (inside : p + code.length ≤ until_) :
    readInt aml p until_ = some (value, p + code.length) := by
  have open_ : ¬ until_ ≤ p := by
    have := int.positive
    omega
  have op := stands 0 int.positive
  rw [Nat.add_zero] at op
  rw [readInt, if_neg open_, op]
  cases int with
  | zero => rfl
  | one => rfl
  | byte =>
    have second := stands 1 (by simp)
    rw [second, if_neg (by simp), if_neg (by simp), if_pos (by simp),
      if_neg (by simp at inside; omega)]
    rfl
  | word =>
    have second := stands 1 (by simp)
    rw [second, if_neg (by simp), if_neg (by simp), if_neg (by simp), if_pos (by simp),
      if_neg (by simp at inside; omega)]
    rfl

/-- A buffer with a package after the name: the bytes of its length, its count of elements, its
elements and what follows it. -/
def withPackage (before len : List Byte) (count : Byte) (elements after : List Byte) : List Byte :=
  before ++ (s5Name ++ 0x12#8 :: (len ++ count :: (elements ++ after)))

section Package

variable {before len elements after : List Byte} {count : Byte}

theorem withPackage_length :
    (withPackage before len count elements after).length =
      before.length + 6 + len.length + elements.length + after.length := by
  simp only [withPackage, s5Name, List.length_append, List.length_cons, List.length_nil]
  omega

theorem withPackage_name : NamesPackage (withPackage before len count elements after) before.length := by
  have first := getD_after before (s5Name ++ 0x12#8 :: (len ++ count :: (elements ++ after))) 0
  rw [Nat.add_zero] at first
  refine ⟨first, ?_, ?_, ?_, ?_⟩ <;> exact getD_after _ _ _

theorem withPackage_len {j : Nat} (inside : j < len.length) :
    (withPackage before len count elements after).getD (before.length + 5 + j) 0#8 =
      len.getD j 0#8 := by
  rw [withPackage, show before.length + 5 + j = before.length + (5 + j) by omega, getD_after]
  have step := getD_after [0x5F#8, 0x53#8, 0x35#8, 0x5F#8, 0x12#8]
    (len ++ count :: (elements ++ after)) j
  exact step.trans (List.getD_append _ _ _ _ inside)

theorem withPackage_element {j : Nat} (inside : j < elements.length) :
    (withPackage before len count elements after).getD (before.length + 6 + len.length + j) 0#8 =
      elements.getD j 0#8 := by
  rw [withPackage, show before.length + 6 + len.length + j =
    before.length + (5 + (len.length + (1 + j))) by omega, getD_after]
  have skip := getD_after [0x5F#8, 0x53#8, 0x35#8, 0x5F#8, 0x12#8]
    (len ++ count :: (elements ++ after)) (len.length + (1 + j))
  have length := getD_after len (count :: (elements ++ after)) (1 + j)
  have counted := getD_after [count] (elements ++ after) j
  exact skip.trans (length.trans (counted.trans (List.getD_append _ _ _ _ inside)))

variable (length : PkgLength (len.length + 1 + elements.length) len)
include length

theorem withPackage_lengthBytes :
    lengthBytes (withPackage before len count elements after) before.length = len.length := by
  cases len with
  | nil => exact length.elim
  | cons first rest =>
    have byte := @withPackage_len before (first :: rest) elements after count 0 (by simp)
    rw [Nat.add_zero] at byte
    rw [lengthBytes, byte, List.length_cons, length.1]
    rfl

theorem withPackage_pkgLength :
    pkgLength (withPackage before len count elements after) (before.length + 5) =
      len.length + 1 + elements.length := by
  have bytes := @withPackage_len before len elements after count
  cases len with
  | nil => exact length.elim
  | cons first rest =>
    have byte := @bytes 0 (by simp)
    rw [Nat.add_zero] at byte
    obtain ⟨more, value⟩ := length
    have tail : ((List.range (first.toNat / 64)).map fun j =>
        (withPackage before (first :: rest) count elements after).getD
          (before.length + 5 + 1 + j) 0#8) = rest := by
      refine List.ext_getElem (by simp [more]) fun j inside inside' => ?_
      have next := @bytes (j + 1) (by simp; omega)
      rw [List.getElem_map, List.getElem_range,
        show before.length + 5 + 1 + j = before.length + 5 + (j + 1) by omega, next]
      simp [List.getD_eq_getElem?_getD, List.getElem?_eq_getElem inside']
    rw [pkgLength, byte, value, List.getD_cons_zero, tail]
    by_cases single : rest = []
    · rw [if_pos single, if_pos (by rw [← more, single]; rfl)]
    · rw [if_neg single, if_neg (by rw [← more]; simpa using single)]

end Package

/-- From a buffer with a well-formed package after the first `_S5_` that names one, the parser takes
the first two elements. -/
theorem s5_package_read {before len codeA codeB more after : List Byte} {count a b : Byte}
    (length : PkgLength (len.length + 1 + (codeA ++ codeB ++ more).length) len)
    (first : AmlInt a codeA) (second : AmlInt b codeB)
    (earlier : ∀ j < before.length,
      ¬ NamesPackage (withPackage before len count (codeA ++ codeB ++ more) after) j)
    (u32 : (withPackage before len count (codeA ++ codeB ++ more) after).length < 2 ^ 32) :
    acpiParseS5Package (withPackage before len count (codeA ++ codeB ++ more) after)
      (withPackage before len count (codeA ++ codeB ++ more) after).length = .ok (some (a, b)) := by
  have size := @withPackage_length before len (codeA ++ codeB ++ more) after count
  have named := @withPackage_name before len (codeA ++ codeB ++ more) after count
  have bytes := @withPackage_lengthBytes before len _ after count length
  have value := @withPackage_pkgLength before len _ after count length
  have element := @withPackage_element before len (codeA ++ codeB ++ more) after count
  generalize withPackage before len count (codeA ++ codeB ++ more) after = aml at *
  simp only [List.length_append] at size value element
  have positive : 0 < len.length := by
    rw [← bytes]
    exact Nat.succ_pos _
  have start : firstElement aml before.length = before.length + 6 + len.length := by
    rw [firstElement, bytes]
  have until_ : before.length + 6 + len.length + codeA.length + codeB.length ≤
      parsedEnd aml before.length := by
    rw [parsedEnd, start, value]
    omega
  have readA : readInt aml (firstElement aml before.length) (parsedEnd aml before.length) =
      some (a, before.length + 6 + len.length + codeA.length) := by
    rw [start]
    refine first.read (fun j inside => ?_) (by omega)
    rw [element (by omega), List.append_assoc, List.getD_append _ _ _ _ inside]
  have readB : readInt aml (before.length + 6 + len.length + codeA.length)
      (parsedEnd aml before.length) =
      some (b, before.length + 6 + len.length + codeA.length + codeB.length) := by
    refine second.read (fun j inside => ?_) (by omega)
    rw [Nat.add_assoc, element (by omega), List.append_assoc, getD_after,
      List.getD_append _ _ _ _ inside]
  have found : s5At aml before.length = some (a, b) := by
    rw [s5At, if_pos ⟨named, by omega⟩, twoInts, readA]
    dsimp only
    rw [readB]
  have reached : before.length + 8 < aml.length := by
    have := first.positive
    have := second.positive
    omega
  rw [acpiParseS5Package_eq u32, s5From_skip fun k lt => s5At_none (earlier k lt),
    s5From_step reached, found]
  rfl

/-- The first buffer of the test, with the length its package really has. -/
theorem s5_package_read_five :
    acpiParseS5Package (withPackage [0x78#8, 0x78#8] [0x08#8] 0x04#8
        ([0x0A#8, 0x05#8] ++ [0x0A#8, 0x05#8] ++ [0x00#8, 0x00#8]) []) 15 =
      .ok (some (5#8, 5#8)) :=
  s5_package_read ⟨rfl, rfl⟩ (.byte 5#8) (.byte 5#8) (by decide) (by decide)

end LithiumKernel.Power
