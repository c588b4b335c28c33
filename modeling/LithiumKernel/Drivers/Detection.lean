import LithiumKernel.Drivers.Ps2kbd

/-!
# Finding out the scancode set (drivers/char/ps2kbd.c)

`kbd_init` turns the translation to set 1 on and leaves the decoder with set 0. Until a press gives
a character the set is guessed for each byte. A press that is taken for one of set 2 gives the
character it has there, and set 2 is then kept. F12 and the equals key of the keypad are taken for
caps lock and right shift of set 2. They give no character, but the decoder then has another state
of these two than it has with the set fixed.
-/
namespace LithiumKernel.Drivers

/-- After every byte the characters so far are the same. -/
def SameCharacters (st st' : KbdState) (bytes : List Scancode) : Prop :=
  ∀ n, (kbdDecode (bytes.take n) st).1 = (kbdDecode (bytes.take n) st').1

/-! ## What the bytes say

Two decoders with the same set, one of which may be wrong about shift and caps lock.
-/

/-- Release flag and key of a byte that is no prefix; `pending` says that 0xF0 came before it. -/
def keyOf (set : Nat) (pending : Bool) (b : Scancode) : Bool × Scancode :=
  if set = 2 then (pending, b) else (b &&& 0x80#8 ≠ 0#8, b &&& 0x7F#8)

def isShift (set : Nat) (key : Scancode) : Bool :=
  if set = 1 then key = 0x2A#8 ∨ key = 0x36#8 else key = 0x12#8 ∨ key = 0x59#8

def isCtrl (set : Nat) (key : Scancode) : Bool :=
  if set = 1 then key = 0x1D#8 else key = 0x14#8

def isKeyC (set : Nat) (key : Scancode) : Bool :=
  if set = 1 then key = 0x2E#8 else key = 0x21#8

/-- The key shows another character when shift is wrong (`shift`) or caps lock is (`caps`). -/
def shownApart (set : Nat) (key : Scancode) (shift caps : Bool) : Bool :=
  if isAlpha (normalOf set key) then shift ^^ caps
  else shift && normalOf set key != shiftedOf set key

/-- No press shows that shift or caps lock is wrong. A shift key that is pressed or released puts
shift right. The release byte 0xF0 of the key 0x70 is the prefix of set 2. -/
def Agree : (set : Nat) → (pending ctrl shift caps : Bool) → List Scancode → Prop
  | _, _, _, _, _, [] => True
  | set, pending, ctrl, shift, caps, b :: rest =>
    if b = 0xF0#8 then Agree 2 true ctrl shift caps rest
    else
      let (release, key) := keyOf set pending b
      (release = false → (ctrl && isKeyC set key) = false → shownApart set key shift caps = false) ∧
        Agree set false (if isCtrl set key then !release else ctrl) (shift && !isShift set key) caps
          rest

/-- While nothing is wrong, nothing shows it. -/
theorem agree_right (bytes : List Scancode) : ∀ (set : Nat) (pending ctrl : Bool),
    Agree set pending ctrl false false bytes := by
  induction bytes with
  | nil => exact fun _ _ _ => trivial
  | cons b rest ih =>
    intro set pending ctrl
    rw [Agree]
    split
    · exact ih 2 true ctrl
    · exact ⟨fun _ _ => by simp [shownApart], ih _ _ _⟩

/-- The presses that are taken for keys of set 2 and give a character: `[`, `]`, enter, left ctrl,
left shift, backslash, comma, period, slash, right shift, caps lock, F1 to F4, F7 to F10, num lock,
scroll lock and keys of the keypad. -/
def misread : List Scancode :=
  [0x1A#8, 0x1B#8, 0x1C#8, 0x1D#8, 0x2A#8, 0x2B#8, 0x33#8, 0x34#8, 0x35#8, 0x36#8, 0x3A#8, 0x3B#8,
   0x3C#8, 0x3D#8, 0x3E#8, 0x41#8, 0x42#8, 0x43#8, 0x44#8, 0x45#8, 0x46#8, 0x49#8, 0x4A#8, 0x4B#8,
   0x4C#8, 0x4D#8, 0x4E#8, 0x52#8, 0x54#8, 0x55#8, 0x5A#8, 0x5B#8, 0x5D#8, 0x66#8]

/-- No press is misread before the first one that gives a character, and from that one on nothing
shows what F12 (0x58) and the equals key of the keypad (0x59) have done to caps lock and shift. -/
def Recognised : (shift caps : Bool) → List Scancode → Prop
  | _, _, [] => True
  | shift, caps, b :: rest =>
    if b = 0xF0#8 then Agree 2 true false shift caps rest
    else if b &&& 0x80#8 ≠ 0#8 then Recognised (shift && !isShift 1 (b &&& 0x7F#8)) caps rest
    else if b = 0x58#8 then Recognised shift (!caps) rest
    else if b = 0x59#8 then Recognised true caps rest
    else if b ∈ misread then False
    else if sc1Normal b = nul then Recognised shift caps rest
    else Agree 1 false false shift caps (b :: rest)

/-! ## A byte when the set is known -/

/-- A byte that is no prefix. -/
theorem kbdDecodeScancode_known {set : Nat} {pending : Bool} {st : KbdState} {b : Scancode}
    (known : st.scancodeSet = set) (oneOrTwo : set = 1 ∧ pending = false ∨ set = 2)
    (released : st.set2Release = pending) (notE0 : b ≠ 0xE0#8) (notF0 : b ≠ 0xF0#8) :
    kbdDecodeScancode b st = decodeKey set (keyOf set pending b).1 (keyOf set pending b).2
      { st with set2Release := false } := by
  rw [kbdDecodeScancode, if_neg notE0, if_neg notF0]
  rcases oneOrTwo with ⟨rfl, rfl⟩ | rfl
  · have one : ¬ (st.scancodeSet = 2 ∨ st.set2Release = true) := by
      simp [known, released]
    rw [splitScancode, if_neg one, if_pos known]
    rfl
  · rw [splitScancode, if_pos (.inl known), released]
    rfl

/-- The decoder knows the set and no prefix 0xE0 is open. -/
structure InMode (set : Nat) (pending ctrl : Bool) (st : KbdState) : Prop where
  known : st.scancodeSet = set
  oneOrTwo : set = 1 ∧ pending = false ∨ set = 2
  pending : st.set2Release = pending
  ctrl : st.ctrlHeld = ctrl
  closed : st.extended = false

/-- The decoder with shift and caps lock the other way, where asked for. -/
def KbdState.apart (shift caps : Bool) (st : KbdState) : KbdState :=
  { st with shift := st.shift ^^ shift, caps := st.caps ^^ caps }

theorem InMode.apart {set : Nat} {pending ctrl : Bool} {st : KbdState}
    (mode : InMode set pending ctrl st) (shift caps : Bool) :
    InMode set pending ctrl (st.apart shift caps) :=
  ⟨mode.known, mode.oneOrTwo, mode.pending, mode.ctrl, mode.closed⟩

theorem InMode.set {set : Nat} {pending ctrl : Bool} {st : KbdState}
    (mode : InMode set pending ctrl st) : set = 1 ∨ set = 2 :=
  mode.oneOrTwo.imp_left And.left

theorem InMode.decode {set : Nat} {pending ctrl : Bool} {st : KbdState} {b : Scancode}
    (mode : InMode set pending ctrl st) (notE0 : b ≠ 0xE0#8) (notF0 : b ≠ 0xF0#8) :
    kbdDecodeScancode b st = decodeKey set (keyOf set pending b).1 (keyOf set pending b).2
      { st with set2Release := false } :=
  kbdDecodeScancode_known mode.known mode.oneOrTwo mode.pending notE0 notF0

theorem updateModifier_apart {set : Nat} {key : Scancode} (known : set = 1 ∨ set = 2)
    (release shift caps : Bool) (st : KbdState) :
    updateModifier set key release (st.apart shift caps) =
      (updateModifier set key release st).apart (shift && !isShift set key) caps := by
  rcases known with rfl | rfl <;>
  · simp only [updateModifier, isShift, KbdState.apart]
    split_ifs <;> simp_all [Bool.xor_comm]

theorem updateModifier_mode {set : Nat} {key : Scancode} {st : KbdState} (known : set = 1 ∨ set = 2)
    (release : Bool) :
    (updateModifier set key release st).ctrlHeld = (if isCtrl set key then !release else st.ctrlHeld) ∧
      (updateModifier set key release st).set2Release = st.set2Release ∧
      (updateModifier set key release st).extended = st.extended := by
  rcases known with rfl | rfl <;>
  · simp only [updateModifier, isCtrl]
    split_ifs <;> simp_all

theorem InMode.decode_state {set : Nat} {pending ctrl : Bool} {st : KbdState} {b : Scancode}
    (mode : InMode set pending ctrl st) (notE0 : b ≠ 0xE0#8) (notF0 : b ≠ 0xF0#8) :
    (kbdDecodeScancode b st).2 = updateModifier set (keyOf set pending b).2 (keyOf set pending b).1
      { st with set2Release := false } := by
  rw [mode.decode notE0 notF0]
  exact decodeKey_state mode.closed mode.known

theorem InMode.next {set : Nat} {pending ctrl : Bool} {st : KbdState} {b : Scancode}
    (mode : InMode set pending ctrl st) (notE0 : b ≠ 0xE0#8) (notF0 : b ≠ 0xF0#8) :
    InMode set false
      (if isCtrl set (keyOf set pending b).2 then !(keyOf set pending b).1 else ctrl)
      (kbdDecodeScancode b st).2 := by
  rw [mode.decode_state notE0 notF0]
  obtain ⟨ctrl_, pending_, closed⟩ :=
    @updateModifier_mode set (keyOf set pending b).2 { st with set2Release := false } mode.set
      (keyOf set pending b).1
  refine ⟨(updateModifier_set _ _ _ _).trans mode.known, ?_, pending_, ?_, closed.trans mode.closed⟩
  · exact mode.oneOrTwo.imp_left fun one => ⟨one.1, rfl⟩
  · rw [ctrl_, ← mode.ctrl]

/-- The prefix 0xF0 puts the decoder into set 2, also when set 1 was known. -/
theorem InMode.releasePrefix {set : Nat} {pending ctrl : Bool} {st : KbdState}
    (mode : InMode set pending ctrl st) :
    InMode 2 true ctrl { st with set2Release := true, scancodeSet := 2 } :=
  ⟨rfl, .inr rfl, rfl, mode.ctrl, mode.closed⟩

/-- The character of a key that is pressed, `nul` when it has none. -/
def shown (set : Nat) (st : KbdState) (key : Scancode) : Char :=
  if useUpper st (normalOf set key) then shiftedOf set key else normalOf set key

/-- Codes from 128 on have no character. -/
theorem table_high : ∀ key : Scancode, 128 ≤ key.toNat →
    sc1Normal key = nul ∧ sc1Shifted key = nul ∧ sc2Normal key = nul ∧ sc2Shifted key = nul := by
  decide +kernel

theorem translate_shown (set : Nat) (key : Scancode) (st : KbdState) :
    translate set key st = shown set st key := by
  by_cases low : key.toNat < 128
  · exact translate_low low st
  · have high : 128 ≤ key.toNat := by omega
    obtain ⟨normal1, shifted1, normal2, shifted2⟩ := table_high key high
    rw [translate, if_pos high]
    simp [shown, normalOf, shiftedOf, normal1, shifted1, normal2, shifted2]

theorem modifier_shows_nothing : ∀ key : Scancode,
    (isModifierSet1 key = true → sc1Normal key = nul ∧ sc1Shifted key = nul) ∧
      (isModifierSet2 key = true → sc2Normal key = nul ∧ sc2Shifted key = nul) := by
  decide +kernel

theorem shown_modifier {set : Nat} {key : Scancode} (modifier : IsModifier set key)
    (st : KbdState) : shown set st key = nul := by
  obtain ⟨one, two⟩ := modifier_shows_nothing key
  rcases modifier with ⟨rfl, yes⟩ | ⟨rfl, yes⟩
  · simp [shown, normalOf, shiftedOf, one yes]
  · simp [shown, normalOf, shiftedOf, two yes]

theorem isKeyC_iff {set : Nat} {key : Scancode} (known : set = 1 ∨ set = 2) :
    (set = 1 ∧ key = 0x2E#8 ∨ set = 2 ∧ key = 0x21#8) ↔ isKeyC set key = true := by
  rcases known with rfl | rfl <;> simp [isKeyC]

theorem keyC_plain : ∀ {set : Nat} {key : Scancode}, set = 1 ∨ set = 2 →
    isKeyC set key = true → ¬ IsModifier set key := by
  rintro set key (rfl | rfl) yes
  · have code : key = 0x2E#8 := by simpa [isKeyC] using yes
    subst code
    decide
  · have code : key = 0x21#8 := by simpa [isKeyC] using yes
    subst code
    decide

/-- What a key gives: nothing on release, Ctrl-C, or its character. -/
theorem decodeKey_output {set : Nat} {key : Scancode} {st : KbdState} (known : set = 1 ∨ set = 2)
    (closed : st.extended = false) (release : Bool) :
    (decodeKey set release key st).1 =
      if release then none
      else if (st.ctrlHeld && isKeyC set key) = true then some etx
      else if shown set st key ≠ nul then some (shown set st key) else none := by
  rw [decodeKey, closed, if_neg Bool.false_ne_true]
  dsimp only
  by_cases modifier : IsModifier set key
  · have noC : isKeyC set key = false := by
      by_contra yes
      exact keyC_plain known (by simpa using yes) modifier
    rw [if_pos (or_assoc.mp (.inl modifier)), shown_modifier modifier, noC]
    simp
  · simp only [updateModifier_plain known modifier, isKeyC_iff known, translate_shown]
    cases release with
    | true => simp
    | false =>
      have quiet : ¬ (set = 1 ∧ isModifierSet1 key = true ∨ set = 2 ∧ isModifierSet2 key = true ∨
          false = true) := by
        simpa [IsModifier] using modifier
      rw [if_neg quiet, if_neg Bool.false_ne_true]
      simp only [Bool.and_eq_true]
      by_cases held : st.ctrlHeld = true ∧ isKeyC set key = true
      · rw [if_pos held, if_pos held]
      · rw [if_neg held, if_neg held]
        by_cases text : shown set st key ≠ nul
        · rw [if_pos text, if_pos text]
        · rw [if_neg text, if_neg text]

theorem table_facts : ∀ key : Fin 128,
    (sc1Normal (.ofNat 8 key) = nul ↔ sc1Shifted (.ofNat 8 key) = nul) ∧
      (sc2Normal (.ofNat 8 key) = nul ↔ sc2Shifted (.ofNat 8 key) = nul) ∧
      (isAlpha (sc1Normal (.ofNat 8 key)) = true →
        sc1Normal (.ofNat 8 key) ≠ sc1Shifted (.ofNat 8 key)) ∧
      (isAlpha (sc2Normal (.ofNat 8 key)) = true →
        sc2Normal (.ofNat 8 key) ≠ sc2Shifted (.ofNat 8 key)) := by
  decide +kernel

theorem normalOf_facts (set : Nat) (key : Scancode) :
    (normalOf set key = nul ↔ shiftedOf set key = nul) ∧
      (isAlpha (normalOf set key) = true → normalOf set key ≠ shiftedOf set key) := by
  by_cases low : key.toNat < 128
  · have facts := table_facts ⟨key.toNat, low⟩
    simp only [BitVec.ofNat_toNat, BitVec.setWidth_eq] at facts
    obtain ⟨nul1, nul2, alpha1, alpha2⟩ := facts
    unfold normalOf shiftedOf
    split
    · exact ⟨nul1, alpha1⟩
    · exact ⟨nul2, alpha2⟩
  · obtain ⟨normal1, shifted1, normal2, shifted2⟩ := table_high key (by omega)
    have noLetter : ¬ isAlpha nul = true := by decide
    simp [normalOf, shiftedOf, normal1, shifted1, normal2, shifted2, noLetter]

theorem shown_apart (set : Nat) (key : Scancode) (shift caps : Bool) (st : KbdState) :
    shown set (st.apart shift caps) key = shown set st key ↔
      shownApart set key shift caps = false := by
  have letter := (normalOf_facts set key).2
  have upper : useUpper (st.apart shift caps) (normalOf set key) =
      (useUpper st (normalOf set key) ^^
        if isAlpha (normalOf set key) then shift ^^ caps else shift) := by
    unfold useUpper KbdState.apart
    cases isAlpha (normalOf set key) <;> simp [Bool.xor_left_comm]
  rw [shown, upper, shown, shownApart]
  cases alpha : isAlpha (normalOf set key) with
  | true =>
    have differ := letter alpha
    cases useUpper st (normalOf set key) <;> cases shift ^^ caps <;> simp [differ, differ.symm]
  | false =>
    cases useUpper st (normalOf set key) <;> cases shift <;> simp
    exact eq_comm

theorem shown_nul (set : Nat) (key : Scancode) (st : KbdState) :
    shown set st key = nul ↔ normalOf set key = nul := by
  unfold shown
  split
  · exact (normalOf_facts set key).1.symm
  · exact Iff.rfl

theorem InMode.output {set : Nat} {pending ctrl : Bool} {st : KbdState} {b : Scancode}
    (mode : InMode set pending ctrl st) (notE0 : b ≠ 0xE0#8) (notF0 : b ≠ 0xF0#8) :
    (kbdDecodeScancode b st).1 =
      if (keyOf set pending b).1 then none
      else if (ctrl && isKeyC set (keyOf set pending b).2) = true then some etx
      else if shown set st (keyOf set pending b).2 ≠ nul then some (shown set st (keyOf set pending b).2)
      else none := by
  have output := @decodeKey_output set (keyOf set pending b).2 { st with set2Release := false }
    mode.set mode.closed (keyOf set pending b).1
  rw [← mode.ctrl, mode.decode notE0 notF0]
  exact output

/-- The two decoders give the same for a byte iff it does not show the difference. -/
theorem InMode.output_apart {set : Nat} {pending ctrl : Bool} {st : KbdState} {b : Scancode}
    (mode : InMode set pending ctrl st) (notE0 : b ≠ 0xE0#8) (notF0 : b ≠ 0xF0#8)
    (shift caps : Bool) :
    (kbdDecodeScancode b (st.apart shift caps)).1.toList = (kbdDecodeScancode b st).1.toList ↔
      ((keyOf set pending b).1 = false →
        (ctrl && isKeyC set (keyOf set pending b).2) = false →
        shownApart set (keyOf set pending b).2 shift caps = false) := by
  rw [(mode.apart shift caps).output notE0 notF0, mode.output notE0 notF0]
  generalize (keyOf set pending b).1 = release
  generalize (keyOf set pending b).2 = key
  cases release with
  | true => simp
  | false =>
    cases ctrl && isKeyC set key with
    | true => simp
    | false =>
      rw [← shown_apart set key shift caps st]
      have hidden := shown_nul set key st
      have hidden' := shown_nul set key (st.apart shift caps)
      by_cases text : normalOf set key = nul
      · simp [hidden.mpr text, hidden'.mpr text]
      · have some_ := mt hidden.mp text
        have some' := mt hidden'.mp text
        simp [some_, some']

/-! ## Sequences of bytes -/

theorem sameCharacters_nil (st st' : KbdState) : SameCharacters st st' [] := by
  intro n
  rw [List.take_nil]
  rfl

theorem sameCharacters_cons {st st' : KbdState} {b : Scancode} {rest : List Scancode} :
    SameCharacters st st' (b :: rest) ↔
      (kbdDecodeScancode b st).1.toList = (kbdDecodeScancode b st').1.toList ∧
        SameCharacters (kbdDecodeScancode b st).2 (kbdDecodeScancode b st').2 rest := by
  constructor
  · intro same
    have first := same 1
    simp only [List.take_succ_cons, List.take_zero, kbdDecode, List.append_nil] at first
    refine ⟨first, fun n => ?_⟩
    have next := same (n + 1)
    simp only [List.take_succ_cons, kbdDecode] at next
    rw [first] at next
    exact List.append_cancel_left next
  · rintro ⟨first, later⟩ (_ | n)
    · rfl
    · simp only [List.take_succ_cons, kbdDecode]
      rw [first, later n]

/-- With the set known, `Agree` is what it takes; by induction on the bytes, the difference going
along with the two states. -/
theorem sameCharacters_apart {bytes : List Scancode} (plain : ∀ b ∈ bytes, b ≠ 0xE0#8) :
    ∀ {set : Nat} {pending ctrl : Bool} {st : KbdState}, InMode set pending ctrl st →
    ∀ shift caps : Bool, SameCharacters (st.apart shift caps) st bytes ↔
      Agree set pending ctrl shift caps bytes := by
  induction bytes with
  | nil =>
    intro set pending ctrl st _ shift caps
    exact iff_of_true (sameCharacters_nil _ _) trivial
  | cons b rest ih =>
    intro set pending ctrl st mode shift caps
    have notE0 := plain b (by simp)
    have rest_ : ∀ x ∈ rest, x ≠ 0xE0#8 := fun x member => plain x (List.mem_cons_of_mem _ member)
    rw [sameCharacters_cons, Agree]
    by_cases notF0 : b = 0xF0#8
    · subst notF0
      rw [if_pos rfl]
      have read : ∀ st : KbdState, kbdDecodeScancode 0xF0#8 st =
          (none, { st with set2Release := true, scancodeSet := 2 }) := fun _ => rfl
      rw [read, read, eq_self, true_and]
      exact ih rest_ mode.releasePrefix shift caps
    · rw [if_neg notF0, mode.output_apart notE0 notF0, (mode.apart shift caps).decode_state notE0 notF0]
      have moved := @updateModifier_apart set (keyOf set pending b).2 mode.set
        (keyOf set pending b).1 shift caps { st with set2Release := false }
      have same : { st.apart shift caps with set2Release := false } =
          KbdState.apart shift caps { st with set2Release := false } := rfl
      rw [same, moved, ← mode.decode_state notE0 notF0, ih rest_ (mode.next notE0 notF0)]

/-! ## Before the first character -/

/-- The decoder with the set guessed, and with set 1. -/
def guessing (shift caps alt : Bool) : KbdState := ⟨shift, caps, false, alt, false, false, 0⟩

def fixed (alt : Bool) : KbdState := ⟨false, false, false, alt, false, false, 1⟩

theorem decode_guessing {b : Scancode} (notE0 : b ≠ 0xE0#8) (notF0 : b ≠ 0xF0#8)
    (shift caps alt : Bool) :
    kbdDecodeScancode b (guessing shift caps alt) =
      if b &&& 0x80#8 ≠ 0#8 then decodeKey 1 true (b &&& 0x7F#8) (guessing shift caps alt)
      else decodeKey (inferSet b) false b (guessing shift caps alt) := by
  have unknown : ¬ ((guessing shift caps alt).scancodeSet = 2 ∨
      (guessing shift caps alt).set2Release = true) := by
    simp [guessing]
  have notOne : ¬ (guessing shift caps alt).scancodeSet = 1 := by simp [guessing]
  rw [kbdDecodeScancode, if_neg notE0, if_neg notF0, splitScancode, if_neg unknown, if_neg notOne]
  by_cases release : b &&& 0x80#8 ≠ 0#8
  · rw [if_pos release, if_pos release]
    rfl
  · rw [if_neg release, if_neg release]
    rfl

theorem fixed_mode (alt : Bool) : InMode 1 false false (fixed alt) :=
  ⟨rfl, .inl ⟨rfl, rfl⟩, rfl, rfl, rfl⟩

/-- With the set guessed, shift and caps lock apart, the decoder has the state of set 1. -/
theorem guessing_apart (shift caps alt : Bool) :
    { guessing shift caps alt with scancodeSet := 1 } = (fixed alt).apart shift caps := by
  simp [guessing, fixed, KbdState.apart]

theorem decodeKey_release {st : KbdState} (set : Nat) (key : Scancode)
    (closed : st.extended = false) :
    decodeKey set true key st = (none, updateModifier set key true st) := by
  rw [decodeKey, closed, if_neg Bool.false_ne_true]
  dsimp only
  rw [if_pos (.inr (.inr rfl))]

theorem decodeKey_silent {set : Nat} {key : Scancode} {st : KbdState} (known : set = 1 ∨ set = 2)
    (closed : st.extended = false) (notC : isKeyC set key = false)
    (none_ : normalOf set key = nul) :
    decodeKey set false key st = (none, updateModifier set key false st) := by
  have noText : ∀ st', ¬ translate set key st' ≠ nul := fun st' =>
    not_not.mpr ((translate_shown set key st').trans ((shown_nul set key st').mpr none_))
  rw [decodeKey, closed, if_neg Bool.false_ne_true]
  dsimp only
  simp only [isKeyC_iff known, notC, Bool.false_eq_true, and_false, if_false, if_neg (noText _),
    ite_self]

/-- The modifiers of set 1 while ctrl is up; the guess and set 1 differ in `set`. -/
theorem updateModifier_up (key : Scancode) (shift caps alt : Bool) (set : Nat) :
    updateModifier 1 key true ⟨shift, caps, false, alt, false, false, set⟩ =
      ⟨shift && !isShift 1 key, caps, false, alt && key != 0x38#8, false, false, set⟩ := by
  by_cases left : key = 0x2A#8
  · subst left
    simp [updateModifier, isShift]
  by_cases right : key = 0x36#8
  · subst right
    simp [updateModifier, isShift]
  by_cases ctrl : key = 0x1D#8
  · subst ctrl
    simp [updateModifier, isShift]
  by_cases alt_ : key = 0x38#8
  · subst alt_
    simp [updateModifier, isShift]
  simp [updateModifier, isShift, left, right, ctrl, alt_]

theorem decode_release {b : Scancode} (notE0 : b ≠ 0xE0#8) (notF0 : b ≠ 0xF0#8)
    (release : b &&& 0x80#8 ≠ 0#8) (shift caps alt : Bool) : ∃ alt',
    kbdDecodeScancode b (guessing shift caps alt) =
        (none, guessing (shift && !isShift 1 (b &&& 0x7F#8)) caps alt') ∧
      kbdDecodeScancode b (fixed alt) = (none, fixed alt') := by
  have key : keyOf 1 false b = (true, b &&& 0x7F#8) := by simp [keyOf, release]
  refine ⟨alt && b &&& 0x7F#8 != 0x38#8, ?_, ?_⟩
  · rw [decode_guessing notE0 notF0, if_pos release, decodeKey_release _ _ rfl, guessing,
      updateModifier_up]
    rfl
  · rw [(fixed_mode alt).decode notE0 notF0, key, decodeKey_release _ _ rfl]
    exact congrArg (none, ·) (updateModifier_up _ false false alt 1)

/-- A press that is not misread is taken for one of set 1. -/
theorem inferSet_one : ∀ b : Scancode, b &&& 0x80#8 = 0#8 → b ≠ 0x58#8 → b ≠ 0x59#8 → b ∉ misread →
    inferSet b = 1 := by
  decide +kernel

theorem press_facts : ∀ b : Scancode, b &&& 0x80#8 = 0#8 →
    b ≠ 0xE0#8 ∧ b ≠ 0xF0#8 ∧ keyOf 1 false b = (false, b) := by
  decide +kernel

theorem decode_silent {b : Scancode} (press : b &&& 0x80#8 = 0#8) (notF12 : b ≠ 0x58#8)
    (notEquals : b ≠ 0x59#8) (right : b ∉ misread) (none_ : sc1Normal b = nul)
    (shift caps alt : Bool) : ∃ alt',
    kbdDecodeScancode b (guessing shift caps alt) = (none, guessing shift caps alt') ∧
      kbdDecodeScancode b (fixed alt) = (none, fixed alt') := by
  have one := inferSet_one b press notF12 notEquals right
  obtain ⟨notE0, notF0, key⟩ := press_facts b press
  have notC : isKeyC 1 b = false := by
    have other : b ≠ 0x2E#8 := by
      rintro rfl
      exact absurd none_ (by decide)
    simp [isKeyC, other]
  obtain ⟨notLeft, notRight, notCaps, notCtrl⟩ :
      b ≠ 0x2A#8 ∧ b ≠ 0x36#8 ∧ b ≠ 0x3A#8 ∧ b ≠ 0x1D#8 := by
    refine ⟨?_, ?_, ?_, ?_⟩ <;>
    · rintro rfl
      exact right (by decide)
  have moved : ∀ shift caps set,
      updateModifier 1 b false ⟨shift, caps, false, alt, false, false, set⟩ =
        ⟨shift, caps, false, alt || b == 0x38#8, false, false, set⟩ := by
    intro shift caps set
    by_cases alt_ : b = 0x38#8
    · simp [updateModifier, alt_]
    · simp [updateModifier, notLeft, notRight, notCaps, notCtrl, alt_]
  refine ⟨alt || b == 0x38#8, ?_, ?_⟩
  · rw [decode_guessing notE0 notF0, if_neg (not_not.mpr press), one,
      decodeKey_silent (.inl rfl) rfl notC none_, guessing, moved]
    rfl
  · rw [(fixed_mode alt).decode notE0 notF0, key, decodeKey_silent (.inl rfl) rfl notC none_]
    exact congrArg (none, ·) (moved false false 1)

/-- F12 and the equals key of the keypad. -/
theorem decode_f12 : ∀ shift caps alt : Bool,
    kbdDecodeScancode 0x58#8 (guessing shift caps alt) = (none, guessing shift (!caps) alt) ∧
      kbdDecodeScancode 0x58#8 (fixed alt) = (none, fixed alt) := by
  decide +kernel

theorem decode_equals : ∀ shift caps alt : Bool,
    kbdDecodeScancode 0x59#8 (guessing shift caps alt) = (none, guessing true caps alt) ∧
      kbdDecodeScancode 0x59#8 (fixed alt) = (none, fixed alt) := by
  decide +kernel

theorem decode_misread : ∀ b ∈ misread, ∀ shift caps alt : Bool,
    (kbdDecodeScancode b (guessing shift caps alt)).1.toList ≠
      (kbdDecodeScancode b (fixed alt)).1.toList := by
  decide +kernel

/-- A press that is recognised and gives a character is decoded as with set 1, and set 1 is kept. -/
theorem decode_text {b : Scancode} (press : b &&& 0x80#8 = 0#8) (right : b ∉ misread)
    (text : sc1Normal b ≠ nul) (shift caps alt : Bool) :
    kbdDecodeScancode b (guessing shift caps alt) =
      kbdDecodeScancode b ((fixed alt).apart shift caps) := by
  have one : inferSet b = 1 := by
    refine inferSet_one b press ?_ ?_ right <;>
    · rintro rfl
      exact text (by decide)
  have plain : isModifierSet1 b = false := by
    by_contra yes
    exact text ((modifier_shows_nothing b).1 (by simpa using yes)).1
  obtain ⟨notE0, notF0, key⟩ := press_facts b press
  have quiet : ¬ IsModifier 1 b := by simp [IsModifier, plain]
  have some_ : ∀ st, shown 1 st b ≠ nul := fun st => mt (shown_nul 1 b st).mp text
  rw [decode_guessing notE0 notF0, if_neg (not_not.mpr press), one,
    ((fixed_mode alt).apart shift caps).decode notE0 notF0, key, ← guessing_apart]
  simp only [decodeKey, updateModifier_plain (.inl rfl) quiet, translate_shown]
  rw [if_pos (some_ _), if_pos (some_ _)]
  simp [guessing, plain, shown, useUpper]

theorem sameCharacters_guessing {bytes : List Scancode} (plain : ∀ b ∈ bytes, b ≠ 0xE0#8) :
    ∀ {shift caps alt : Bool},
    SameCharacters (guessing shift caps alt) (fixed alt) bytes ↔ Recognised shift caps bytes := by
  induction bytes with
  | nil =>
    intro shift caps alt
    exact iff_of_true (sameCharacters_nil _ _) trivial
  | cons b rest ih =>
    intro shift caps alt
    have notE0 := plain b (by simp)
    have rest_ : ∀ x ∈ rest, x ≠ 0xE0#8 := fun x member => plain x (List.mem_cons_of_mem _ member)
    -- a byte that gives no character and leaves the guess open
    have quiet : ∀ {shift' caps' alt' : Bool},
        kbdDecodeScancode b (guessing shift caps alt) = (none, guessing shift' caps' alt') ∧
          kbdDecodeScancode b (fixed alt) = (none, fixed alt') →
        (SameCharacters (guessing shift caps alt) (fixed alt) (b :: rest) ↔
          Recognised shift' caps' rest) := by
      rintro shift' caps' alt' ⟨guess, known⟩
      rw [sameCharacters_cons, guess, known, eq_self, true_and]
      exact ih rest_
    rw [Recognised]
    split
    · rename_i prefix_
      subst prefix_
      have read : ∀ st : KbdState, kbdDecodeScancode 0xF0#8 st =
          (none, { st with set2Release := true, scancodeSet := 2 }) := fun _ => rfl
      have both := sameCharacters_apart rest_ (fixed_mode alt).releasePrefix shift caps
      rw [sameCharacters_cons, read, read, eq_self, true_and, ← both]
      have same : { guessing shift caps alt with set2Release := true, scancodeSet := 2 } =
          KbdState.apart shift caps { fixed alt with set2Release := true, scancodeSet := 2 } := by
        simp [guessing, fixed, KbdState.apart]
      rw [same]
    rename_i notF0
    split
    · rename_i release
      obtain ⟨_, both⟩ := decode_release notE0 notF0 release shift caps alt
      exact quiet both
    rename_i press
    have press_ := not_not.mp press
    split
    · rename_i f12
      subst f12
      exact quiet (decode_f12 shift caps alt)
    rename_i notF12
    split
    · rename_i equals
      subst equals
      exact quiet (decode_equals shift caps alt)
    rename_i notEquals
    split
    · rename_i wrong
      rw [sameCharacters_cons]
      exact iff_of_false (fun same => decode_misread b wrong shift caps alt same.1) id
    rename_i right
    split
    · rename_i none_
      obtain ⟨_, both⟩ := decode_silent press_ notF12 notEquals right none_ shift caps alt
      exact quiet both
    rename_i text
    rw [sameCharacters_cons, decode_text press_ right text, ← sameCharacters_cons]
    exact sameCharacters_apart plain (fixed_mode alt) shift caps

/-- From the state `kbd_init` leaves, a sequence of press and release bytes of set 1 without prefix
gives after every byte the characters it gives with the set fixed to 1, iff the guess is right. -/
theorem detection_keeps_set1_iff {bytes : List Scancode} (plain : ∀ b ∈ bytes, b ≠ 0xE0#8) :
    SameCharacters (kbdDecodeSetScancodeSet 0 kbdDecodeReset)
      (kbdDecodeSetScancodeSet 1 kbdDecodeReset) bytes ↔ Recognised false false bytes :=
  sameCharacters_guessing plain

/-- The word of the test, typed first. -/
theorem detection_keeps_set1_iff_help :
    SameCharacters (kbdDecodeSetScancodeSet 0 kbdDecodeReset)
      (kbdDecodeSetScancodeSet 1 kbdDecodeReset) [0x23#8, 0xA3#8, 0x12#8, 0x92#8] :=
  (detection_keeps_set1_iff (by decide)).mpr (by
    rw [Recognised, if_neg (by decide), if_neg (by decide), if_neg (by decide), if_neg (by decide),
      if_neg (by decide), if_neg (by decide)]
    exact agree_right _ _ _ _)

/-- Enter and then `a`: the decoder takes the enter for the `a` of set 2. -/
theorem detection_garbles_enter :
    (kbdDecode [0x1C#8, 0x9C#8, 0x1E#8, 0x9E#8] (kbdDecodeSetScancodeSet 0 kbdDecodeReset)).1 =
        ['a', '2'] ∧
      (kbdDecode [0x1C#8, 0x9C#8, 0x1E#8, 0x9E#8] (kbdDecodeSetScancodeSet 1 kbdDecodeReset)).1 =
        ['\n', 'a'] := by
  decide

end LithiumKernel.Drivers
