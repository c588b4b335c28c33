import LithiumKernel.Power.S5Package

/-!
# Bytes after the _S5_ package (kernel/power/power.c)

A PkgLength counts from its own first byte, but `acpi_parse_s5_package` counts it from the first
element. It takes the package to end two to five bytes late, and reads these bytes when the package
holds less than two integers: the second value then comes from what follows the package and is not
the first one again.
-/
namespace LithiumKernel.Power

/-- The end of the package that is named at `i`. -/
def packageEnd (aml : List Byte) (i : Nat) : Nat := i + 5 + pkgLength aml (i + 5)

def FirstPackage (aml : List Byte) (i : Nat) : Prop :=
  NamesPackage aml i ∧ ∀ j < i, ¬ NamesPackage aml j

/-- Buffers of the same length with the same bytes before `e`. -/
def Agrees (aml aml' : List Byte) (e : Nat) : Prop :=
  aml'.length = aml.length ∧ ∀ j < e, aml'.getD j 0#8 = aml.getD j 0#8

/-- The result depends on nothing after the package at `i`. -/
def Confined (aml : List Byte) (i : Nat) : Prop :=
  ∀ aml', Agrees aml aml' (packageEnd aml i) →
    acpiParseS5Package aml' aml'.length = acpiParseS5Package aml aml.length

/-- How many bytes an element takes that starts at `p`. -/
def width (aml : List Byte) (p : Nat) : Nat :=
  if aml.getD p 0#8 = 0x0A#8 then 2 else if aml.getD p 0#8 = 0x0B#8 then 3 else 1

/-- The bytes that give the value of the element at `p` lie before `e`, unless the buffer ends before
the element does. -/
def Inside (aml : List Byte) (p e : Nat) : Prop :=
  p < aml.length → p < e ∧ (aml.getD p 0#8 = 0x0A#8 → p + 1 < e) ∧
    (aml.getD p 0#8 = 0x0B#8 → p + 3 ≤ aml.length → p + 1 < e)

instance (aml : List Byte) (p e : Nat) : Decidable (Inside aml p e) :=
  inferInstanceAs (Decidable (_ → _))

/-- The first two elements lie in the package at `i`. When the buffer ends with the package, or
before the parser could read two integers, there is nothing else it could read. -/
def HoldsTwo (aml : List Byte) (i : Nat) : Prop :=
  let p := firstElement aml i
  let e := packageEnd aml i
  aml.length ≤ i + 8 ∨ aml.length ≤ e ∨
    0 < pkgLength aml (i + 5) ∧ Inside aml p e ∧
      (p + width aml p ≤ aml.length → Inside aml (p + width aml p) e)

instance (aml : List Byte) (i : Nat) : Decidable (HoldsTwo aml i) :=
  inferInstanceAs (Decidable (_ ∨ _))

section

variable {aml aml' : List Byte} {i p e until_ : Nat}

/-! ## Two buffers -/

theorem Agrees.mono (same : Agrees aml aml' e) {e' : Nat} (le : e' ≤ e) : Agrees aml aml' e' :=
  ⟨same.1, fun j lt => same.2 j (by omega)⟩

theorem Agrees.eq (same : Agrees aml aml' e) (all : aml.length ≤ e) : aml' = aml := by
  refine List.ext_getElem same.1 fun j inside inside' => ?_
  have byte := same.2 j (by omega)
  rwa [List.getD_eq_getElem _ _ inside, List.getD_eq_getElem _ _ inside'] at byte

theorem agrees_set {j : Nat} (after : e ≤ j) (v : Byte) : Agrees aml (aml.set j v) e := by
  refine ⟨List.length_set, fun k lt => ?_⟩
  rw [List.getD_eq_getElem?_getD, List.getD_eq_getElem?_getD, List.getElem?_set_ne (by omega)]

theorem getD_set {j : Nat} (inside : j < aml.length) (v : Byte) : (aml.set j v).getD j 0#8 = v := by
  rw [List.getD_eq_getElem?_getD, List.getElem?_set_self inside]
  rfl

theorem Agrees.names (same : Agrees aml aml' e) {j : Nat} (before : j + 5 ≤ e) :
    NamesPackage aml' j ↔ NamesPackage aml j := by
  unfold NamesPackage
  rw [same.2 j (by omega), same.2 (j + 1) (by omega), same.2 (j + 2) (by omega),
    same.2 (j + 3) (by omega), same.2 (j + 4) (by omega)]

theorem Agrees.first (same : Agrees aml aml' e) (before : i + 5 ≤ e) (first : FirstPackage aml i) :
    FirstPackage aml' i :=
  ⟨(same.names before).mpr first.1,
    fun j lt named => first.2 j lt ((same.names (by omega)).mp named)⟩

/-- What stands before the first element says where the parser reads. -/
theorem Agrees.header (same : Agrees aml aml' (firstElement aml i)) :
    firstElement aml' i = firstElement aml i ∧ parsedEnd aml' i = parsedEnd aml i := by
  have start : i + 6 + ((aml.getD (i + 5) 0#8).toNat / 64 + 1) = firstElement aml i := rfl
  have byte : aml'.getD (i + 5) 0#8 = aml.getD (i + 5) 0#8 := same.2 _ (by omega)
  have bytes : ((List.range ((aml.getD (i + 5) 0#8).toNat / 64)).map fun j =>
      aml'.getD (i + 5 + 1 + j) 0#8) =
      (List.range ((aml.getD (i + 5) 0#8).toNat / 64)).map fun j =>
        aml.getD (i + 5 + 1 + j) 0#8 := by
    refine List.map_congr_left fun j member => same.2 _ ?_
    have := List.mem_range.mp member
    omega
  have first : firstElement aml' i = firstElement aml i := by
    rw [firstElement, lengthBytes, byte]
    rfl
  have length : pkgLength aml' (i + 5) = pkgLength aml (i + 5) := by
    simp only [pkgLength, byte, bytes]
  rw [parsedEnd, first, length, same.1]
  exact ⟨rfl, rfl⟩

theorem parse_first (u32 : aml.length < 2 ^ 32) (first : FirstPackage aml i) :
    acpiParseS5Package aml aml.length = .ok (s5From aml i) := by
  rw [acpiParseS5Package_eq u32, s5From_skip fun k lt => s5At_none (first.2 k lt)]

/-- Right after a name there is no other one. -/
theorem s5From_after (named : NamesPackage aml i) (short : aml.length ≤ i + 12) :
    s5From aml (i + 1) = none := by
  obtain ⟨_, second, third, _, fifth⟩ := named
  have other : ∀ {j : Nat} {b : Byte}, aml.getD j 0#8 = b → b ≠ 0x5F#8 → s5At aml j = none :=
    fun byte wrong => s5At_none fun named => wrong (byte.symm.trans named.1)
  have fourth : s5At aml (i + 3) = none := by
    refine s5At_none fun named => ?_
    have byte : aml.getD (i + 4) 0#8 = 0x53#8 := named.2.1
    rw [fifth] at byte
    exact absurd byte (by decide)
  rw [s5From_next (other second (by decide)), s5From_next (other third (by decide)),
    s5From_next fourth, s5From_done (by omega)]

/-! ## One integer -/

/-- The value of the element at `p`. Every other opcode is its own value. -/
def intValue (aml : List Byte) (p : Nat) : Byte :=
  if aml.getD p 0#8 = 0x0A#8 ∨ aml.getD p 0#8 = 0x0B#8 then aml.getD (p + 1) 0#8
  else aml.getD p 0#8

theorem readInt_eq (aml : List Byte) (p until_ : Nat) :
    readInt aml p until_ =
      if p + width aml p ≤ until_ then some (intValue aml p, p + width aml p) else none := by
  unfold readInt intValue width
  by_cases isByte : aml.getD p 0#8 = 0x0A#8
  · simp only [isByte]
    grind
  by_cases isWord : aml.getD p 0#8 = 0x0B#8
  · simp only [isWord]
    grind
  simp only [isByte, isWord]
  grind

theorem Inside.same (inside : Inside aml p e) (same : Agrees aml aml' e) (here : p < aml.length) :
    width aml' p = width aml p ∧
      (p + width aml p ≤ aml.length → intValue aml' p = intValue aml p) := by
  obtain ⟨op, byte, word⟩ := inside here
  have opcode := same.2 p op
  refine ⟨by rw [width, opcode]; rfl, fun fits => ?_⟩
  rw [intValue, intValue, opcode]
  split
  · rename_i choice
    refine same.2 _ ?_
    rcases choice with isByte | isWord
    · exact byte isByte
    · rw [width, isWord] at fits
      exact word isWord fits
  · rfl

theorem Inside.readInt (inside : Inside aml p e) (same : Agrees aml aml' e)
    (bounded : until_ ≤ aml.length) : readInt aml' p until_ = Power.readInt aml p until_ := by
  rw [readInt_eq, readInt_eq]
  by_cases here : p < aml.length
  · obtain ⟨width_, value⟩ := inside.same same here
    rw [width_]
    split
    · rw [value (by omega)]
    · rfl
  · have positive : ∀ aml, 1 ≤ width aml p := by
      intro aml
      unfold width
      split_ifs <;> decide
    have := positive aml
    have := positive aml'
    rw [if_neg (by omega), if_neg (by omega)]

/-- An element whose value does not lie before `e` can be given another value from there on. -/
theorem readInt_free (out : ¬ Inside aml p e) (short : e < aml.length) {limit : Nat}
    (far : e + 2 ≤ limit) (past : p < limit) :
    ∃ j, e ≤ j ∧ p ≤ j ∧ ∀ v : Byte, v = 2#8 ∨ v = 3#8 →
      ∃ q, Power.readInt (aml.set j v) p (min limit aml.length) = some (v, q) := by
  obtain ⟨here, out⟩ := Classical.not_imp.mp out
  by_cases op : p < e
  · -- the opcode lies before `e`, and the byte after it does not
    have last : p + 1 = e ∧ (aml.getD p 0#8 = 0x0A#8 ∨
        aml.getD p 0#8 = 0x0B#8 ∧ p + 3 ≤ aml.length) := by
      by_contra no
      refine out ⟨op, fun isByte => ?_, fun isWord fits => ?_⟩
      · by_contra
        exact no ⟨by omega, .inl isByte⟩
      · by_contra
        exact no ⟨by omega, .inr ⟨isWord, fits⟩⟩
    refine ⟨p + 1, by omega, by omega, fun v _ => ?_⟩
    have same : (aml.set (p + 1) v).getD p 0#8 = aml.getD p 0#8 :=
      (agrees_set (Nat.le_refl (p + 1)) v).2 p (by omega)
    have set_ := getD_set (by omega : p + 1 < aml.length) v
    rw [readInt_eq, width, intValue, same, set_]
    rcases last.2 with isByte | ⟨isWord, fits⟩
    · rw [isByte, if_pos (by simp; omega)]
      exact ⟨_, rfl⟩
    · rw [isWord, if_pos (by simp; omega)]
      exact ⟨_, rfl⟩
  · refine ⟨p, by omega, Nat.le_refl p, fun v choice => ?_⟩
    rw [readInt_eq, width, intValue, getD_set here]
    rcases choice with rfl | rfl <;> exact ⟨_, if_pos (by simp; omega)⟩

/-! ## The package -/

theorem width_bounds (aml : List Byte) (p : Nat) : 1 ≤ width aml p ∧ width aml p ≤ 3 := by
  unfold width
  split_ifs <;> decide

theorem lengthBytes_bounds (aml : List Byte) (i : Nat) :
    1 ≤ lengthBytes aml i ∧ lengthBytes aml i ≤ 4 := by
  have := (aml.getD (i + 5) 0#8).isLt
  rw [lengthBytes]
  omega

theorem s5At_short (short : aml.length ≤ firstElement aml i) : s5At aml i = none := by
  have bounded : parsedEnd aml i ≤ aml.length := Nat.min_le_right _ _
  have wide := width_bounds aml (firstElement aml i)
  unfold s5At
  split
  · rw [twoInts, readInt_eq, if_neg (by omega)]
  · rfl

theorem holdsTwo_confined (u32 : aml.length < 2 ^ 32) (first : FirstPackage aml i)
    (holds : HoldsTwo aml i) : Confined aml i := by
  intro aml' same
  have first' := same.first (by rw [packageEnd]; omega) first
  rw [parse_first u32 first, parse_first (by rw [same.1]; exact u32) first']
  congr 1
  rcases holds with past | all | ⟨positive, inside, next⟩
  · rw [s5From_done past, s5From_done (by rw [same.1]; exact past)]
  · rw [same.eq all]
  by_cases all : aml.length ≤ packageEnd aml i
  · rw [same.eq all]
  by_cases past : aml.length ≤ i + 8
  · rw [s5From_done past, s5From_done (by rw [same.1]; exact past)]
  rw [@s5From_step aml i (by omega), @s5From_step aml' i (by rw [same.1]; omega)]
  -- when the first integer is not there, nothing follows that could be found
  have nothing : aml.length ≤ i + 12 → s5At aml i = none → s5At aml' i = none →
      (s5At aml' i).or (s5From aml' (i + 1)) = (s5At aml i).or (s5From aml (i + 1)) := by
    intro short none_ none'
    rw [none_, none', s5From_after first.1 short, s5From_after first'.1 (by rw [same.1]; exact short)]
  have end_ : packageEnd aml i = i + 5 + pkgLength aml (i + 5) := rfl
  have start : firstElement aml i = i + 6 + lengthBytes aml i := rfl
  have few := lengthBytes_bounds aml i
  have wide := width_bounds aml (firstElement aml i)
  by_cases here : firstElement aml i < aml.length
  · obtain ⟨op, byte, word⟩ := inside here
    obtain ⟨start', until'⟩ := (same.mono (Nat.le_of_lt op)).header
    have bounded : parsedEnd aml i ≤ aml.length := Nat.min_le_right _ _
    have read : s5At aml i = twoInts aml (firstElement aml i) (parsedEnd aml i) :=
      if_pos ⟨first.1, by omega⟩
    have read' : s5At aml' i = twoInts aml' (firstElement aml i) (parsedEnd aml i) := by
      rw [← start', ← until']
      refine if_pos ⟨first'.1, ?_⟩
      have : firstElement aml' i = i + 6 + lengthBytes aml' i := rfl
      have := same.1
      omega
    rw [twoInts, readInt_eq] at read
    rw [twoInts, inside.readInt same bounded, readInt_eq] at read'
    by_cases fits : firstElement aml i + width aml (firstElement aml i) ≤ aml.length
    · have enough : firstElement aml i + width aml (firstElement aml i) ≤ parsedEnd aml i := by
        rw [parsedEnd]
        omega
      rw [if_pos enough] at read read'
      dsimp only at read read'
      rw [(next fits).readInt same bounded, ← read] at read'
      rw [read', read]
      cases Power.readInt aml (firstElement aml i + width aml (firstElement aml i))
        (parsedEnd aml i) <;> rfl
    · rw [if_neg (by omega)] at read read'
      exact nothing (by omega) read read'
  · have byte : aml'.getD (i + 5) 0#8 = aml.getD (i + 5) 0#8 := same.2 _ (by omega)
    have start' : firstElement aml' i = firstElement aml i := by
      rw [firstElement, lengthBytes, byte]
      rfl
    refine nothing (by omega) (s5At_short (by omega)) (s5At_short ?_)
    rw [start', same.1]
    omega

/-- Two buffers that the package does not tell apart, and that give different results. -/
theorem not_confined (u32 : aml.length < 2 ^ 32) (first : FirstPackage aml i)
    (reached : i + 8 < aml.length) {part : Byte × Byte → Byte} {buffer : Byte → List Byte}
    (same : ∀ v, Agrees aml (buffer v) (packageEnd aml i))
    (result : ∀ v : Byte, v = 2#8 ∨ v = 3#8 → ∃ types, s5At (buffer v) i = some types ∧
      part types = v) : ¬ Confined aml i := by
  intro confined
  have parse : ∀ v types, s5At (buffer v) i = some types →
      acpiParseS5Package aml aml.length = .ok (some types) := by
    intro v types found
    have length := (same v).1
    rw [← confined _ (same v), parse_first (by omega)
      ((same v).first (by rw [packageEnd]; omega) first), s5From_step (by omega), found]
    rfl
  obtain ⟨two, foundTwo, isTwo⟩ := result 2#8 (.inl rfl)
  obtain ⟨three, foundThree, isThree⟩ := result 3#8 (.inr rfl)
  have equal := (parse _ _ foundTwo).symm.trans (parse _ _ foundThree)
  have types : two = three := by
    injection equal with equal
    injection equal
  rw [types, isThree] at isTwo
  exact absurd isTwo (by decide)


theorem twoInts_first {a : Byte} {q : Nat} (read : readInt aml p until_ = some (a, q)) :
    ∃ types, twoInts aml p until_ = some types ∧ types.1 = a := by
  rw [twoInts, read]
  dsimp only
  cases readInt aml q until_ with
  | none => exact ⟨_, rfl, rfl⟩
  | some next => exact ⟨_, rfl, rfl⟩

theorem twoInts_second {a b : Byte} {q r : Nat} (read : readInt aml p until_ = some (a, q))
    (next : readInt aml q until_ = some (b, r)) : twoInts aml p until_ = some (a, b) := by
  rw [twoInts, read]
  dsimp only
  rw [next]

/-- A byte from the first element on is another one: the parser looks at the same places. -/
theorem s5At_set (first : FirstPackage aml i) (reached : firstElement aml i < aml.length) {j : Nat}
    (after : firstElement aml i ≤ j) (v : Byte) :
    s5At (aml.set j v) i = twoInts (aml.set j v) (firstElement aml i) (parsedEnd aml i) := by
  have same : Agrees aml (aml.set j v) (firstElement aml i) := agrees_set after v
  have start : firstElement aml i = i + 6 + lengthBytes aml i := rfl
  have start' : firstElement (aml.set j v) i = i + 6 + lengthBytes (aml.set j v) i := rfl
  have named := same.first (by omega) first
  have length := same.1
  obtain ⟨element, until_⟩ := same.header
  rw [s5At, if_pos ⟨named.1, by omega⟩, element, until_]

/-- The length 0 covers not even itself: the length can be another one. -/
theorem not_confined_zero (u32 : aml.length < 2 ^ 32) (first : FirstPackage aml i)
    (reached : i + 8 < aml.length) (zero : pkgLength aml (i + 5) = 0) : ¬ Confined aml i := by
  refine @not_confined aml i u32 first reached Prod.fst
    (fun v => (aml.set (i + 5) 1#8).set (i + 7) v) (fun v => ?_) fun v choice => ?_
  · have end_ : packageEnd aml i = i + 5 := by rw [packageEnd, zero]
    have one : Agrees aml (aml.set (i + 5) 1#8) (i + 5) := agrees_set (Nat.le_refl _) _
    have two : Agrees (aml.set (i + 5) 1#8) ((aml.set (i + 5) 1#8).set (i + 7) v) (i + 5) :=
      agrees_set (by omega) _
    rw [end_]
    exact ⟨two.1.trans one.1, fun j lt => (two.2 j lt).trans (one.2 j lt)⟩
  · have named : FirstPackage (aml.set (i + 5) 1#8) i :=
      (agrees_set (Nat.le_refl (i + 5)) 1#8).first (Nat.le_refl _) first
    have length : (aml.set (i + 5) 1#8).length = aml.length := List.length_set
    have byte := getD_set (by omega : i + 5 < aml.length) 1#8
    have start : firstElement (aml.set (i + 5) 1#8) i = i + 7 := by
      rw [firstElement, lengthBytes, byte]
      rfl
    have until_ : parsedEnd (aml.set (i + 5) 1#8) i = i + 8 := by
      have one : pkgLength (aml.set (i + 5) 1#8) (i + 5) = 1 := by
        rw [pkgLength, byte]
        rfl
      rw [parsedEnd, start, one, length]
      omega
    have found := @s5At_set (aml.set (i + 5) 1#8) i named (by omega) (i + 7) (by omega) v
    have read : readInt ((aml.set (i + 5) 1#8).set (i + 7) v) (i + 7) (i + 8) = some (v, i + 8) := by
      rw [readInt_eq, width, intValue, getD_set (by omega)]
      rcases choice with rfl | rfl <;> exact if_pos (by simp)
    rw [start, until_] at found
    rw [found]
    exact twoInts_first read

theorem confined_holdsTwo (u32 : aml.length < 2 ^ 32) (first : FirstPackage aml i)
    (confined : Confined aml i) : HoldsTwo aml i := by
  by_contra no
  simp only [HoldsTwo, not_or] at no
  obtain ⟨reached, short, rest⟩ := no
  have end_ : packageEnd aml i = i + 5 + pkgLength aml (i + 5) := rfl
  have start : firstElement aml i = i + 6 + lengthBytes aml i := rfl
  have few := lengthBytes_bounds aml i
  have wide := width_bounds aml (firstElement aml i)
  by_cases positive : 0 < pkgLength aml (i + 5)
  · have far : packageEnd aml i + 2 ≤ firstElement aml i + pkgLength aml (i + 5) := by omega
    by_cases inside : Inside aml (firstElement aml i) (packageEnd aml i)
    · -- the first integer is in the package, and the second one is not
      obtain ⟨fits, out⟩ := Classical.not_imp.mp fun next => rest ⟨positive, inside, next⟩
      obtain ⟨op, byte, word⟩ := inside (by omega)
      have past : firstElement aml i + width aml (firstElement aml i) <
          firstElement aml i + pkgLength aml (i + 5) := by
        have narrow : width aml (firstElement aml i) = 1 ∨
            firstElement aml i + 1 < packageEnd aml i := by
          by_cases isByte : aml.getD (firstElement aml i) 0#8 = 0x0A#8
          · exact .inr (byte isByte)
          by_cases isWord : aml.getD (firstElement aml i) 0#8 = 0x0B#8
          · rw [width, isWord] at fits
            exact .inr (word isWord fits)
          exact .inl (by rw [width, if_neg isByte, if_neg isWord])
        omega
      obtain ⟨j, after, later, free⟩ := readInt_free out (by omega) far past
      refine @not_confined aml i u32 first (by omega) Prod.snd (fun v => aml.set j v)
        (fun v => agrees_set after v) (fun v choice => ?_) confined
      obtain ⟨q, second⟩ := free v choice
      have read : readInt (aml.set j v) (firstElement aml i) (parsedEnd aml i) =
          some (intValue aml (firstElement aml i),
            firstElement aml i + width aml (firstElement aml i)) := by
        have bounded : parsedEnd aml i ≤ aml.length := Nat.min_le_right _ _
        have enough : firstElement aml i + width aml (firstElement aml i) ≤ parsedEnd aml i := by
          rw [parsedEnd]
          omega
        rw [inside.readInt (agrees_set after v) bounded, readInt_eq, if_pos enough]
      exact ⟨_, (s5At_set first (by omega) (by omega) v).trans (twoInts_second read second), rfl⟩
    · have here : firstElement aml i < aml.length := by
        by_contra past
        exact inside fun here => absurd here past
      obtain ⟨j, after, later, free⟩ := readInt_free inside (by omega) far (by omega)
      refine @not_confined aml i u32 first (by omega) Prod.fst (fun v => aml.set j v)
        (fun v => agrees_set after v) (fun v choice => ?_) confined
      obtain ⟨q, read⟩ := free v choice
      rw [s5At_set first here later]
      exact twoInts_first read
  · exact not_confined_zero u32 first (by omega) (by omega) confined

end

/-- Buffers of the same length that agree up to the end of the first `_S5_` package give the same
result, for every buffer that agrees with this one, iff the package holds what is read. -/
theorem s5_confined_iff {aml : List Byte} {i : Nat} (u32 : aml.length < 2 ^ 32)
    (first : FirstPackage aml i) : Confined aml i ↔ HoldsTwo aml i :=
  ⟨confined_holdsTwo u32 first, holdsTwo_confined u32 first⟩

/-- The compact buffer of the test, with the length its package really has and a byte after it. -/
theorem s5_confined_iff_compact :
    Confined [0x5F#8, 0x53#8, 0x35#8, 0x5F#8, 0x12#8, 0x04#8, 0x02#8, 0x01#8, 0x00#8, 0x33#8] 0 :=
  (s5_confined_iff (by decide) ⟨by decide, by decide⟩).mpr (by decide)

/-- A package with the single element 5, in a buffer that goes on with 0 and in one that goes on
with 1: the second value is the byte after the package. -/
theorem s5_single_element_leaks :
    acpiParseS5Package [0x5F#8, 0x53#8, 0x35#8, 0x5F#8, 0x12#8, 0x04#8, 0x01#8, 0x0A#8, 0x05#8, 0x00#8]
        10 = .ok (some (5#8, 0#8)) ∧
      acpiParseS5Package [0x5F#8, 0x53#8, 0x35#8, 0x5F#8, 0x12#8, 0x04#8, 0x01#8, 0x0A#8, 0x05#8, 0x01#8]
        10 = .ok (some (5#8, 1#8)) ∧
      packageEnd [0x5F#8, 0x53#8, 0x35#8, 0x5F#8, 0x12#8, 0x04#8, 0x01#8, 0x0A#8, 0x05#8, 0x00#8] 0 =
        9 := by
  decide

end LithiumKernel.Power
