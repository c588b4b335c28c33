import Mathlib.Data.List.Basic

/-!
# Keyboard decoding (drivers/char/ps2kbd.c)

The scancode decoder with its tables, its modifiers and the mode it finds out by itself. A
character is `nul` where the tables of the source have 0; `none` is the return value false.
Over it stands the keyboard: the keys that both scancode sets have, what each is for, and what
an event of one does. With the set fixed to 1 or to 2 the decoder is that keyboard, so the two
sets agree on every sequence of events.
-/
namespace LithiumKernel.Drivers

abbrev Scancode := BitVec 8

def nul : Char := Char.ofNat 0

/-- Ctrl-C. -/
def etx : Char := Char.ofNat 3

/-! ## The tables -/

def sc1NormalTable : List Char :=
  [nul, nul, '1', '2', '3', '4', '5', '6', '7', '8', '9', '0', '-', '=', '\x08',
   '\t', 'q', 'w', 'e', 'r', 't', 'y', 'u', 'i', 'o', 'p', '[', ']', '\n',
   nul, 'a', 's', 'd', 'f', 'g', 'h', 'j', 'k', 'l', ';', '\x27', '\x60',
   nul, '\\', 'z', 'x', 'c', 'v', 'b', 'n', 'm', ',', '.', '/',
   nul, '*', nul, ' ']

def sc1ShiftedTable : List Char :=
  [nul, nul, '!', '@', '#', '$', '%', '^', '&', '*', '(', ')', '_', '+', '\x08',
   '\t', 'Q', 'W', 'E', 'R', 'T', 'Y', 'U', 'I', 'O', 'P', '\x7b', '\x7d', '\n',
   nul, 'A', 'S', 'D', 'F', 'G', 'H', 'J', 'K', 'L', ':', '\x22', '~',
   nul, '|', 'Z', 'X', 'C', 'V', 'B', 'N', 'M', '<', '>', '?',
   nul, '*', nul, ' ']

def sc1Normal (key : Scancode) : Char := sc1NormalTable.getD key.toNat nul

def sc1Shifted (key : Scancode) : Char := sc1ShiftedTable.getD key.toNat nul

def sc2Normal (key : Scancode) : Char :=
  match key.toNat with
  | 0x0D => '\t'
  | 0x0E => '\x60'
  | 0x15 => 'q' | 0x16 => '1'
  | 0x1A => 'z' | 0x1B => 's' | 0x1C => 'a' | 0x1D => 'w'
  | 0x1E => '2'
  | 0x21 => 'c' | 0x22 => 'x' | 0x23 => 'd' | 0x24 => 'e'
  | 0x25 => '4' | 0x26 => '3'
  | 0x29 => ' '
  | 0x2A => 'v' | 0x2B => 'f' | 0x2C => 't' | 0x2D => 'r'
  | 0x2E => '5'
  | 0x31 => 'n' | 0x32 => 'b' | 0x33 => 'h' | 0x34 => 'g'
  | 0x35 => 'y' | 0x36 => '6'
  | 0x3A => 'm' | 0x3B => 'j' | 0x3C => 'u' | 0x3D => '7'
  | 0x3E => '8'
  | 0x41 => ',' | 0x42 => 'k' | 0x43 => 'i' | 0x44 => 'o'
  | 0x45 => '0' | 0x46 => '9'
  | 0x49 => '.' | 0x4A => '/' | 0x4B => 'l' | 0x4C => ';'
  | 0x4D => 'p' | 0x4E => '-'
  | 0x52 => '\x27' | 0x54 => '[' | 0x55 => '='
  | 0x5A => '\n' | 0x5B => ']' | 0x5D => '\\'
  | 0x66 => '\x08'
  | _ => nul

def sc2Shifted (key : Scancode) : Char :=
  match key.toNat with
  | 0x0D => '\t'
  | 0x0E => '~'
  | 0x15 => 'Q' | 0x16 => '!'
  | 0x1A => 'Z' | 0x1B => 'S' | 0x1C => 'A' | 0x1D => 'W'
  | 0x1E => '@'
  | 0x21 => 'C' | 0x22 => 'X' | 0x23 => 'D' | 0x24 => 'E'
  | 0x25 => '$' | 0x26 => '#'
  | 0x29 => ' '
  | 0x2A => 'V' | 0x2B => 'F' | 0x2C => 'T' | 0x2D => 'R'
  | 0x2E => '%'
  | 0x31 => 'N' | 0x32 => 'B' | 0x33 => 'H' | 0x34 => 'G'
  | 0x35 => 'Y' | 0x36 => '^'
  | 0x3A => 'M' | 0x3B => 'J' | 0x3C => 'U' | 0x3D => '&'
  | 0x3E => '*'
  | 0x41 => '<' | 0x42 => 'K' | 0x43 => 'I' | 0x44 => 'O'
  | 0x45 => ')' | 0x46 => '('
  | 0x49 => '>' | 0x4A => '?' | 0x4B => 'L' | 0x4C => ':'
  | 0x4D => 'P' | 0x4E => '_'
  | 0x52 => '\x22' | 0x54 => '\x7b' | 0x55 => '+'
  | 0x5A => '\n' | 0x5B => '\x7d' | 0x5D => '|'
  | 0x66 => '\x08'
  | _ => nul

def isAlpha (c : Char) : Bool := decide ('a' ≤ c ∧ c ≤ 'z' ∨ 'A' ≤ c ∧ c ≤ 'Z')

def isAlnum (c : Char) : Bool := isAlpha c || decide ('0' ≤ c ∧ c ≤ '9')

def isModifierSet1 (key : Scancode) : Bool :=
  key = 0x2A#8 ∨ key = 0x36#8 ∨ key = 0x3A#8 ∨ key = 0x1D#8 ∨ key = 0x38#8

def isModifierSet2 (key : Scancode) : Bool :=
  key = 0x12#8 ∨ key = 0x59#8 ∨ key = 0x58#8 ∨ key = 0x14#8 ∨ key = 0x11#8

/-! ## The decoder -/

structure KbdState where
  shift : Bool
  caps : Bool
  ctrlHeld : Bool
  altHeld : Bool
  set2Release : Bool
  extended : Bool
  /-- 0 is not known yet. -/
  scancodeSet : Nat
  deriving DecidableEq

def updateModifier (set : Nat) (key : Scancode) (release : Bool) (st : KbdState) : KbdState :=
  if set = 1 then
    if key = 0x2A#8 ∨ key = 0x36#8 then { st with shift := !release }
    else if key = 0x3A#8 ∧ release = false then { st with caps := st.caps ^^ true }
    else if key = 0x1D#8 then { st with ctrlHeld := !release }
    else if key = 0x38#8 then { st with altHeld := !release }
    else st
  else
    if key = 0x12#8 ∨ key = 0x59#8 then { st with shift := !release }
    else if key = 0x58#8 ∧ release = false then { st with caps := st.caps ^^ true }
    else if key = 0x14#8 then { st with ctrlHeld := !release }
    else if key = 0x11#8 then { st with altHeld := !release }
    else st

/-- The choice `translate` makes between the two tables of a set. -/
def useUpper (st : KbdState) (normal : Char) : Bool :=
  if isAlpha normal then st.shift ^^ st.caps else st.shift

def translate (set : Nat) (key : Scancode) (st : KbdState) : Char :=
  if 128 ≤ key.toNat then nul
  else if set = 1 then
    if useUpper st (sc1Normal key) then sc1Shifted key else sc1Normal key
  else
    if useUpper st (sc2Normal key) then sc2Shifted key else sc2Normal key

def isControlKey (c : Char) : Bool := c = '\n' ∨ c = Char.ofNat 8 ∨ c = '\t'

def inferSet (key : Scancode) : Nat :=
  let c1 := sc1Normal key
  let c2 := sc2Normal key
  if c2 ≠ nul ∧ c1 = nul then 2
  else if c1 ≠ nul ∧ c2 = nul then 1
  else if c1 ≠ nul ∧ c2 ≠ nul then
    if isControlKey c1 ∧ isAlpha c2 then 2
    else if isControlKey c1 ∧ ¬ isAlpha c2 then 1
    else if ¬ isAlnum c1 ∧ isAlnum c2 then 2
    else 1
  else if isModifierSet2 key ∧ ¬ isModifierSet1 key then 2
  else 1

def kbdDecodeReset : KbdState := ⟨false, false, false, false, false, false, 0⟩

def kbdDecodeSetScancodeSet (set : Nat) (st : KbdState) : KbdState :=
  if set ≤ 2 then { st with scancodeSet := set } else st

/-- The set, the release flag and the key of a scancode, in the order the source tries them. -/
def splitScancode (scancode : Scancode) (st : KbdState) : Nat × Bool × Scancode :=
  if st.scancodeSet = 2 ∨ st.set2Release then (2, st.set2Release, scancode)
  else if st.scancodeSet = 1 then (1, scancode &&& 0x80#8 ≠ 0#8, scancode &&& 0x7F#8)
  else if scancode &&& 0x80#8 ≠ 0#8 then (1, true, scancode &&& 0x7F#8)
  else (inferSet scancode, false, scancode)

/-- What `kbd_decode_scancode` does once it knows the key. -/
def decodeKey (set : Nat) (release : Bool) (key : Scancode) (st : KbdState) :
    Option Char × KbdState :=
  if st.extended then
    (none, { st with
      extended := false
      ctrlHeld := if set = 2 ∧ key = 0x14#8 then !release else st.ctrlHeld })
  else
    let st := updateModifier set key release st
    if set = 1 ∧ isModifierSet1 key ∨ set = 2 ∧ isModifierSet2 key ∨ release then (none, st)
    else if st.ctrlHeld ∧ (set = 1 ∧ key = 0x2E#8 ∨ set = 2 ∧ key = 0x21#8) then (some etx, st)
    else
      let c := translate set key st
      if c ≠ nul then (some c, { st with scancodeSet := set }) else (none, st)

def kbdDecodeScancode (scancode : Scancode) (st : KbdState) : Option Char × KbdState :=
  if scancode = 0xE0#8 then (none, { st with extended := true })
  else if scancode = 0xF0#8 then (none, { st with set2Release := true, scancodeSet := 2 })
  else
    let (set, release, key) := splitScancode scancode st
    decodeKey set release key { st with set2Release := false }

/-- The characters of a sequence of scancodes, and the state after it. -/
def kbdDecode : List Scancode → KbdState → List Char × KbdState
  | [], st => ([], st)
  | scancode :: rest, st =>
    let (c, st) := kbdDecodeScancode scancode st
    let (cs, st) := kbdDecode rest st
    (c.toList ++ cs, st)

theorem kbdDecode_append (xs ys : List Scancode) (st : KbdState) :
    kbdDecode (xs ++ ys) st =
      ((kbdDecode xs st).1 ++ (kbdDecode ys (kbdDecode xs st).2).1,
        (kbdDecode ys (kbdDecode xs st).2).2) := by
  induction xs generalizing st with
  | nil => rfl
  | cons x xs ih => simp only [List.cons_append, kbdDecode, ih, List.append_assoc]

@[simp] theorem updateModifier_set (set : Nat) (key : Scancode) (release : Bool) (st : KbdState) :
    (updateModifier set key release st).scancodeSet = st.scancodeSet := by
  unfold updateModifier
  split_ifs <;> rfl

/-- The state after a key of the set that is known. -/
theorem decodeKey_state {set : Nat} {key : Scancode} {release : Bool} {st : KbdState}
    (closed : st.extended = false) (known : st.scancodeSet = set) :
    (decodeKey set release key st).2 = updateModifier set key release st := by
  have same : { updateModifier set key release st with scancodeSet := set } =
      updateModifier set key release st := by
    have stays := (updateModifier_set set key release st).trans known
    generalize updateModifier set key release st = st' at stays
    rw [← stays]
  rw [decodeKey, closed, if_neg Bool.false_ne_true]
  dsimp only
  split_ifs
  · rfl
  · rfl
  · exact same
  · rfl

/-! ## The keyboard -/

/-- The keys without prefix that both scancode sets have. -/
inductive Key where
  | backquote | digit1 | digit2 | digit3 | digit4 | digit5 | digit6 | digit7
  | digit8 | digit9 | digit0 | minus | equals | backspace | tab | q
  | w | e | r | t | y | u | i | o
  | p | leftBracket | rightBracket | enter | a | s | d | f
  | g | h | j | k | l | semicolon | quote | backslash
  | z | x | c | v | b | n | m | comma
  | period | slash | space | leftShift | rightShift | capsLock | leftCtrl | leftAlt
  deriving DecidableEq

inductive KeyAction where
  | shift
  | caps
  | ctrl
  | alt
  | text (normal shifted : Char)
  deriving DecidableEq

namespace Key

def set1 : Key → Scancode
  | .backquote => 0x29#8 | .digit1 => 0x02#8 | .digit2 => 0x03#8 | .digit3 => 0x04#8
  | .digit4 => 0x05#8 | .digit5 => 0x06#8 | .digit6 => 0x07#8 | .digit7 => 0x08#8
  | .digit8 => 0x09#8 | .digit9 => 0x0A#8 | .digit0 => 0x0B#8 | .minus => 0x0C#8
  | .equals => 0x0D#8 | .backspace => 0x0E#8 | .tab => 0x0F#8 | .q => 0x10#8
  | .w => 0x11#8 | .e => 0x12#8 | .r => 0x13#8 | .t => 0x14#8
  | .y => 0x15#8 | .u => 0x16#8 | .i => 0x17#8 | .o => 0x18#8
  | .p => 0x19#8 | .leftBracket => 0x1A#8 | .rightBracket => 0x1B#8 | .enter => 0x1C#8
  | .a => 0x1E#8 | .s => 0x1F#8 | .d => 0x20#8 | .f => 0x21#8
  | .g => 0x22#8 | .h => 0x23#8 | .j => 0x24#8 | .k => 0x25#8
  | .l => 0x26#8 | .semicolon => 0x27#8 | .quote => 0x28#8 | .backslash => 0x2B#8
  | .z => 0x2C#8 | .x => 0x2D#8 | .c => 0x2E#8 | .v => 0x2F#8
  | .b => 0x30#8 | .n => 0x31#8 | .m => 0x32#8 | .comma => 0x33#8
  | .period => 0x34#8 | .slash => 0x35#8 | .space => 0x39#8 | .leftShift => 0x2A#8
  | .rightShift => 0x36#8 | .capsLock => 0x3A#8 | .leftCtrl => 0x1D#8 | .leftAlt => 0x38#8

def set2 : Key → Scancode
  | .backquote => 0x0E#8 | .digit1 => 0x16#8 | .digit2 => 0x1E#8 | .digit3 => 0x26#8
  | .digit4 => 0x25#8 | .digit5 => 0x2E#8 | .digit6 => 0x36#8 | .digit7 => 0x3D#8
  | .digit8 => 0x3E#8 | .digit9 => 0x46#8 | .digit0 => 0x45#8 | .minus => 0x4E#8
  | .equals => 0x55#8 | .backspace => 0x66#8 | .tab => 0x0D#8 | .q => 0x15#8
  | .w => 0x1D#8 | .e => 0x24#8 | .r => 0x2D#8 | .t => 0x2C#8
  | .y => 0x35#8 | .u => 0x3C#8 | .i => 0x43#8 | .o => 0x44#8
  | .p => 0x4D#8 | .leftBracket => 0x54#8 | .rightBracket => 0x5B#8 | .enter => 0x5A#8
  | .a => 0x1C#8 | .s => 0x1B#8 | .d => 0x23#8 | .f => 0x2B#8
  | .g => 0x34#8 | .h => 0x33#8 | .j => 0x3B#8 | .k => 0x42#8
  | .l => 0x4B#8 | .semicolon => 0x4C#8 | .quote => 0x52#8 | .backslash => 0x5D#8
  | .z => 0x1A#8 | .x => 0x22#8 | .c => 0x21#8 | .v => 0x2A#8
  | .b => 0x32#8 | .n => 0x31#8 | .m => 0x3A#8 | .comma => 0x41#8
  | .period => 0x49#8 | .slash => 0x4A#8 | .space => 0x29#8 | .leftShift => 0x12#8
  | .rightShift => 0x59#8 | .capsLock => 0x58#8 | .leftCtrl => 0x14#8 | .leftAlt => 0x11#8

/-- What is printed on the key. -/
def action : Key → KeyAction
  | .backquote => .text '\x60' '~' | .digit1 => .text '1' '!' | .digit2 => .text '2' '@'
  | .digit3 => .text '3' '#' | .digit4 => .text '4' '$' | .digit5 => .text '5' '%'
  | .digit6 => .text '6' '^' | .digit7 => .text '7' '&' | .digit8 => .text '8' '*'
  | .digit9 => .text '9' '(' | .digit0 => .text '0' ')' | .minus => .text '-' '_'
  | .equals => .text '=' '+' | .backspace => .text '\x08' '\x08' | .tab => .text '\t' '\t'
  | .q => .text 'q' 'Q' | .w => .text 'w' 'W' | .e => .text 'e' 'E'
  | .r => .text 'r' 'R' | .t => .text 't' 'T' | .y => .text 'y' 'Y'
  | .u => .text 'u' 'U' | .i => .text 'i' 'I' | .o => .text 'o' 'O'
  | .p => .text 'p' 'P' | .leftBracket => .text '[' '\x7b' | .rightBracket => .text ']' '\x7d'
  | .enter => .text '\n' '\n' | .a => .text 'a' 'A' | .s => .text 's' 'S'
  | .d => .text 'd' 'D' | .f => .text 'f' 'F' | .g => .text 'g' 'G'
  | .h => .text 'h' 'H' | .j => .text 'j' 'J' | .k => .text 'k' 'K'
  | .l => .text 'l' 'L' | .semicolon => .text ';' ':' | .quote => .text '\x27' '\x22'
  | .backslash => .text '\\' '|' | .z => .text 'z' 'Z' | .x => .text 'x' 'X'
  | .c => .text 'c' 'C' | .v => .text 'v' 'V' | .b => .text 'b' 'B'
  | .n => .text 'n' 'N' | .m => .text 'm' 'M' | .comma => .text ',' '<'
  | .period => .text '.' '>' | .slash => .text '/' '?' | .space => .text ' ' ' '
  | .leftShift => .shift | .rightShift => .shift | .capsLock => .caps
  | .leftCtrl => .ctrl | .leftAlt => .alt

def all : List Key :=
  [.backquote, .digit1, .digit2, .digit3, .digit4, .digit5, .digit6, .digit7,
   .digit8, .digit9, .digit0, .minus, .equals, .backspace, .tab, .q,
   .w, .e, .r, .t, .y, .u, .i, .o,
   .p, .leftBracket, .rightBracket, .enter, .a, .s, .d, .f,
   .g, .h, .j, .k, .l, .semicolon, .quote, .backslash,
   .z, .x, .c, .v, .b, .n, .m, .comma,
   .period, .slash, .space, .leftShift, .rightShift, .capsLock, .leftCtrl, .leftAlt]

end Key

/-- The modifiers of the keyboard. -/
structure Modifiers where
  shift : Bool
  caps : Bool
  ctrl : Bool
  alt : Bool
  deriving DecidableEq

/-- A key goes down or, with `release`, up. -/
structure KeyEvent where
  key : Key
  release : Bool
  deriving DecidableEq

namespace KeyEvent

def encode1 (event : KeyEvent) : List Scancode :=
  [if event.release then event.key.set1 ||| 0x80#8 else event.key.set1]

def encode2 (event : KeyEvent) : List Scancode :=
  if event.release then [0xF0#8, event.key.set2] else [event.key.set2]

end KeyEvent

/-- What an event does: letters follow shift and caps lock, other keys follow shift, and
Ctrl-C is a character of its own. -/
def Modifiers.event (m : Modifiers) (event : KeyEvent) : Option Char × Modifiers :=
  match event.key.action with
  | .shift => (none, { m with shift := !event.release })
  | .caps => (none, if event.release then m else { m with caps := !m.caps })
  | .ctrl => (none, { m with ctrl := !event.release })
  | .alt => (none, { m with alt := !event.release })
  | .text normal shifted =>
    if event.release then (none, m)
    else if m.ctrl ∧ event.key = .c then (some etx, m)
    else
      let upper := if isAlpha normal then m.shift ^^ m.caps else m.shift
      (some (if upper then shifted else normal), m)

/-- The events one after the other. -/
def Modifiers.events : List KeyEvent → Modifiers → List Char × Modifiers
  | [], m => ([], m)
  | event :: rest, m =>
    let (c, m) := m.event event
    let (cs, m) := Modifiers.events rest m
    (c.toList ++ cs, m)

/-! ## The decoder is the keyboard -/

/-- The decoder between two events, with its set fixed. -/
def Modifiers.decoder (set : Nat) (m : Modifiers) : KbdState :=
  ⟨m.shift, m.caps, m.ctrl, m.alt, false, false, set⟩

def IsModifier (set : Nat) (key : Scancode) : Prop :=
  set = 1 ∧ isModifierSet1 key ∨ set = 2 ∧ isModifierSet2 key

instance (set : Nat) (key : Scancode) : Decidable (IsModifier set key) :=
  inferInstanceAs (Decidable (_ ∨ _))

/-- The entries of the tables of a set. -/
def normalOf (set : Nat) (code : Scancode) : Char :=
  if set = 1 then sc1Normal code else sc2Normal code

def shiftedOf (set : Nat) (code : Scancode) : Char :=
  if set = 1 then sc1Shifted code else sc2Shifted code

/-- `code` is, in one of the sets, a key with a text. -/
def TextCode (set : Nat) (code : Scancode) (key : Key) : Prop :=
  ¬ IsModifier set code ∧ code.toNat < 128 ∧
    ((set = 1 ∧ code = 0x2E#8 ∨ set = 2 ∧ code = 0x21#8) ↔ key = .c) ∧
    key.action = .text (normalOf set code) (shiftedOf set code) ∧
    normalOf set code ≠ nul ∧ shiftedOf set code ≠ nul

instance (set : Nat) (code : Scancode) (key : Key) : Decidable (TextCode set code key) :=
  inferInstanceAs (Decidable (_ ∧ _))

theorem updateModifier_plain {set : Nat} {code : Scancode} (known : set = 1 ∨ set = 2)
    (plain : ¬ IsModifier set code) (release : Bool) (st : KbdState) :
    updateModifier set code release st = st := by
  rcases known with rfl | rfl
  · simp only [IsModifier, isModifierSet1, decide_eq_true_eq] at plain
    simp only [updateModifier]
    grind
  · simp only [IsModifier, isModifierSet2, decide_eq_true_eq] at plain
    simp only [updateModifier]
    grind

theorem translate_low {set : Nat} {code : Scancode} (low : code.toNat < 128) (st : KbdState) :
    translate set code st =
      if useUpper st (normalOf set code) then shiftedOf set code else normalOf set code := by
  rw [translate, if_neg (by omega)]
  unfold normalOf shiftedOf
  split <;> rfl

/-- What a step of the decoder has to return for an event of the keyboard. -/
def Modifiers.decoded (set : Nat) (m : Modifiers) (event : KeyEvent) : Option Char × KbdState :=
  ((m.event event).1, (m.event event).2.decoder set)

/-- A key with a text, in either set. -/
theorem decodeKey_text {set : Nat} {code : Scancode} {key : Key} (known : set = 1 ∨ set = 2)
    (text : TextCode set code key) (release : Bool) (m : Modifiers) :
    decodeKey set release code (m.decoder set) = m.decoded set ⟨key, release⟩ := by
  obtain ⟨plain, low, ctrlC, action, normalOk, shiftedOk⟩ := text
  have closed : ¬ (m.decoder set).extended = true := Bool.false_ne_true
  simp only [decodeKey, if_neg closed, Modifiers.decoded, Modifiers.event, action,
    updateModifier_plain known plain]
  cases release with
  | true => simp
  | false =>
    have quiet : ¬ (set = 1 ∧ isModifierSet1 code = true ∨
        set = 2 ∧ isModifierSet2 code = true ∨ false = true) := by
      simpa [IsModifier] using plain
    rw [if_neg quiet, if_neg Bool.false_ne_true, translate_low low]
    simp only [ctrlC]
    by_cases ctrl : m.ctrl = true ∧ key = .c
    · rw [if_pos ctrl, if_pos (show (m.decoder set).ctrlHeld = true ∧ key = .c from ctrl)]
    · rw [if_neg ctrl, if_neg (show ¬ ((m.decoder set).ctrlHeld = true ∧ key = .c) from ctrl)]
      have shown : (if useUpper (m.decoder set) (normalOf set code) then shiftedOf set code
          else normalOf set code) ≠ nul := by
        cases useUpper (m.decoder set) (normalOf set code) with
        | true => exact shiftedOk
        | false => exact normalOk
      rw [if_pos shown]
      rfl

theorem Modifiers.decoded_caps (set : Nat) (m : Modifiers) :
    (none, { m.decoder set with caps := m.caps ^^ true }) = m.decoded set ⟨.capsLock, false⟩ := by
  rw [Bool.xor_true]
  rfl

theorem decodeKey_set1 (key : Key) (release : Bool) (m : Modifiers) :
    decodeKey 1 release key.set1 (m.decoder 1) = m.decoded 1 ⟨key, release⟩ := by
  cases key
  case capsLock =>
    cases release with
    | true => rfl
    | false => exact m.decoded_caps 1
  case leftShift | rightShift | leftCtrl | leftAlt => cases release <;> rfl
  all_goals exact decodeKey_text (.inl rfl) (by decide) release m

theorem decodeKey_set2 (key : Key) (release : Bool) (m : Modifiers) :
    decodeKey 2 release key.set2 (m.decoder 2) = m.decoded 2 ⟨key, release⟩ := by
  cases key
  case capsLock =>
    cases release with
    | true => rfl
    | false => exact m.decoded_caps 2
  case leftShift | rightShift | leftCtrl | leftAlt => cases release <;> rfl
  all_goals exact decodeKey_text (.inr rfl) (by decide) release m

/-- Set 1 marks a release in the highest bit, and no code looks like a prefix. -/
theorem Key.set1_byte (key : Key) (release : Bool) :
    let byte := if release then key.set1 ||| 0x80#8 else key.set1
    byte ≠ 0xE0#8 ∧ byte ≠ 0xF0#8 ∧ decide (byte &&& 0x80#8 ≠ 0#8) = release ∧
      byte &&& 0x7F#8 = key.set1 := by
  cases key <;> cases release <;> decide

theorem Key.set2_byte (key : Key) : key.set2 ≠ 0xE0#8 ∧ key.set2 ≠ 0xF0#8 := by
  cases key <;> decide

theorem decode_encode1 (m : Modifiers) (event : KeyEvent) :
    kbdDecode event.encode1 (m.decoder 1) =
      ((m.event event).1.toList, (m.event event).2.decoder 1) := by
  obtain ⟨key, release⟩ := event
  obtain ⟨notE0, notF0, released, code⟩ := key.set1_byte release
  have split : splitScancode (if release then key.set1 ||| 0x80#8 else key.set1) (m.decoder 1) =
      (1, release, key.set1) := by
    have mode : ¬ ((m.decoder 1).scancodeSet = 2 ∨ (m.decoder 1).set2Release = true) := by
      simp [Modifiers.decoder]
    rw [splitScancode, if_neg mode, if_pos (show (m.decoder 1).scancodeSet = 1 from rfl), released,
      code]
  have step : kbdDecodeScancode (if release then key.set1 ||| 0x80#8 else key.set1) (m.decoder 1) =
      m.decoded 1 ⟨key, release⟩ := by
    rw [kbdDecodeScancode, if_neg notE0, if_neg notF0, split]
    exact decodeKey_set1 key release m
  rw [KeyEvent.encode1, kbdDecode, step]
  simp [Modifiers.decoded, kbdDecode]

theorem decode_encode2 (m : Modifiers) (event : KeyEvent) :
    kbdDecode event.encode2 (m.decoder 2) =
      ((m.event event).1.toList, (m.event event).2.decoder 2) := by
  obtain ⟨key, release⟩ := event
  obtain ⟨notE0, notF0⟩ := key.set2_byte
  -- the prefix of a release only sets the flag that the key then takes back
  have step : kbdDecodeScancode key.set2 { m.decoder 2 with set2Release := release } =
      m.decoded 2 ⟨key, release⟩ := by
    rw [kbdDecodeScancode, if_neg notE0, if_neg notF0, splitScancode, if_pos (.inl rfl)]
    exact decodeKey_set2 key release m
  cases release with
  | false =>
    rw [KeyEvent.encode2, if_neg Bool.false_ne_true, kbdDecode]
    have same : { m.decoder 2 with set2Release := false } = m.decoder 2 := rfl
    rw [same] at step
    rw [step]
    simp [Modifiers.decoded, kbdDecode]
  | true =>
    have flagged : kbdDecodeScancode 0xF0#8 (m.decoder 2) =
        (none, { m.decoder 2 with set2Release := true }) := rfl
    rw [KeyEvent.encode2, if_pos rfl, kbdDecode, flagged]
    dsimp only
    rw [kbdDecode, step]
    simp [Modifiers.decoded, kbdDecode]

theorem decode_events {set : Nat} {encode : KeyEvent → List Scancode}
    (one : ∀ m event, kbdDecode (encode event) (Modifiers.decoder set m) =
      ((m.event event).1.toList, (m.event event).2.decoder set)) (events : List KeyEvent)
    (m : Modifiers) :
    kbdDecode (events.flatMap encode) (m.decoder set) =
      ((Modifiers.events events m).1, (Modifiers.events events m).2.decoder set) := by
  induction events generalizing m with
  | nil => rfl
  | cons event rest ih =>
    rw [List.flatMap_cons, kbdDecode_append, one, ih]
    rfl

/-- After a reset with set 1 and after a reset with set 2, the decoder gives the same
characters for the same events, and its modifiers are the same. -/
theorem scancode_sets_agree (events : List KeyEvent) :
    let first := kbdDecode (events.flatMap KeyEvent.encode1)
      (kbdDecodeSetScancodeSet 1 kbdDecodeReset)
    let second := kbdDecode (events.flatMap KeyEvent.encode2)
      (kbdDecodeSetScancodeSet 2 kbdDecodeReset)
    first.1 = second.1 ∧ first.2.shift = second.2.shift ∧ first.2.caps = second.2.caps ∧
      first.2.ctrlHeld = second.2.ctrlHeld ∧ first.2.altHeld = second.2.altHeld := by
  have one : kbdDecodeSetScancodeSet 1 kbdDecodeReset =
      Modifiers.decoder 1 ⟨false, false, false, false⟩ := rfl
  have two : kbdDecodeSetScancodeSet 2 kbdDecodeReset =
      Modifiers.decoder 2 ⟨false, false, false, false⟩ := rfl
  rw [one, two, decode_events decode_encode1, decode_events decode_encode2]
  exact ⟨rfl, rfl, rfl, rfl, rfl⟩

/-- The keys of the keyboard are those of the tables: every entry and every modifier of set 2,
and of set 1 all but the star of the keypad. -/
theorem keys_cover_tables :
    (∀ code : Fin 128, sc2Normal (.ofNat 8 code.val) ≠ nul ∨ isModifierSet2 (.ofNat 8 code.val) →
      ∃ key ∈ Key.all, key.set2 = .ofNat 8 code.val) ∧
    ∀ code : Fin 128, code.val ≠ 0x37 →
      sc1Normal (.ofNat 8 code.val) ≠ nul ∨ isModifierSet1 (.ofNat 8 code.val) →
      ∃ key ∈ Key.all, key.set1 = .ofNat 8 code.val := by
  decide +kernel

end LithiumKernel.Drivers
