import LithiumKernel.Drivers.Detection

/-!
# Keys that are held down (drivers/char/ps2kbd.c)

The decoder has one flag for the two shift keys and one for the two ctrl keys. The board below
knows which of the four are down. Releasing one key of a pair clears the flag while the other is
still down, and in set 1 the right ctrl key, which is sent with the prefix 0xE0, is not seen at all.
As long as nothing of this happens the flags are those of the board, and so are the characters.
-/
namespace LithiumKernel.Drivers

/-! ## The board -/

/-- The shift and ctrl keys that are down, and whether caps lock has been pressed an odd number of
times. -/
structure Board where
  leftShift : Bool
  rightShift : Bool
  leftCtrl : Bool
  rightCtrl : Bool
  caps : Bool
  deriving DecidableEq

/-- Any key is pressed or, with `release`, released; `extended` keys send the prefix 0xE0. Pause
sends one sequence when it is pressed and nothing when it is released. -/
inductive BoardEvent where
  | key (extended : Bool) (code : Scancode) (release : Bool)
  | pause
  deriving DecidableEq

namespace Board

def released : Board := ⟨false, false, false, false, false⟩

def shift (board : Board) : Bool := board.leftShift || board.rightShift

def ctrl (board : Board) : Bool := board.leftCtrl || board.rightCtrl

def modifiers (board : Board) (alt : Bool) : Modifiers := ⟨board.shift, board.caps, board.ctrl, alt⟩

end Board

def Key.code (set : Nat) (key : Key) : Scancode := if set = 1 then key.set1 else key.set2

def Board.after (set : Nat) (board : Board) : BoardEvent → Board
  | .key false code release =>
    if code = Key.leftShift.code set then { board with leftShift := !release }
    else if code = Key.rightShift.code set then { board with rightShift := !release }
    else if code = Key.capsLock.code set then { board with caps := board.caps ^^ !release }
    else if code = Key.leftCtrl.code set then { board with leftCtrl := !release }
    else board
  | .key true code release =>
    if code = Key.leftCtrl.code set then { board with rightCtrl := !release } else board
  | .pause => board

/-! ## Its bytes -/

def lastByte (set : Nat) (code : Scancode) (release : Bool) : Scancode :=
  if set = 1 ∧ release then code ||| 0x80#8 else code

def codeBytes (set : Nat) (code : Scancode) (release : Bool) : List Scancode :=
  (if set = 2 ∧ release then [0xF0#8] else []) ++ [lastByte set code release]

namespace BoardEvent

def encode (set : Nat) : BoardEvent → List Scancode
  | .key extended code release => (if extended then [0xE0#8] else []) ++ codeBytes set code release
  | .pause =>
    if set = 1 then [0xE1#8, 0x1D#8, 0x45#8, 0xE1#8, 0x9D#8, 0xC5#8]
    else [0xE1#8, 0x14#8, 0x77#8, 0xE1#8, 0xF0#8, 0x14#8, 0xF0#8, 0x77#8]

/-- The byte is one of the set and no prefix. In set 1 the release bytes of 0x60 and 0x70 are the
two prefixes. -/
def Coded (set : Nat) : BoardEvent → Prop
  | .key _ code release => (set = 1 → code &&& 0x80#8 = 0#8) ∧
      lastByte set code release ≠ 0xE0#8 ∧ lastByte set code release ≠ 0xF0#8
  | .pause => True

end BoardEvent

/-! ## What is asked -/

/-- After every event shift, ctrl and caps lock are those of the board. A key with a text gives the
character it has under them. -/
def Follows (set : Nat) : KbdState → Board → List BoardEvent → Prop
  | _, _, [] => True
  | st, board, event :: rest =>
    let (characters, st') := kbdDecode (event.encode set) st
    let board' := board.after set event
    (st'.shift = board'.shift ∧ st'.ctrlHeld = board'.ctrl ∧ st'.caps = board'.caps) ∧
      (∀ key normal shifted, event = .key false (key.code set) false →
        key.action = .text normal shifted →
        characters = ((board.modifiers false).event ⟨key, false⟩).1.toList) ∧
      Follows set st' board' rest

/-- A key is not released while the other one of its pair is down. In set 1 right ctrl is pressed
while left ctrl is down. Pause ends with a release of ctrl. -/
def Orderly (set : Nat) (board : Board) : BoardEvent → Prop
  | .key false code release => release = true →
      (code = Key.leftShift.code set → board.rightShift = false) ∧
      (code = Key.rightShift.code set → board.leftShift = false) ∧
      (code = Key.leftCtrl.code set → board.rightCtrl = false)
  | .key true code release => code = Key.leftCtrl.code set →
      if set = 1 then release = false → board.leftCtrl = true
      else release = true → board.leftCtrl = false
  | .pause => board.leftCtrl = false ∧ board.rightCtrl = false

def AllOrderly (set : Nat) : Board → List BoardEvent → Prop
  | _, [] => True
  | board, event :: rest => Orderly set board event ∧ AllOrderly set (board.after set event) rest

/-! ## One event -/

theorem release_byte : ∀ code : Scancode, code &&& 0x80#8 = 0#8 →
    (code ||| 0x80#8) &&& 0x80#8 ≠ 0#8 ∧ (code ||| 0x80#8) &&& 0x7F#8 = code ∧
      code &&& 0x7F#8 = code := by
  decide +kernel

theorem keyOf_lastByte {set : Nat} {code : Scancode} (known : set = 1 ∨ set = 2)
    (low : set = 1 → code &&& 0x80#8 = 0#8) (release : Bool) :
    keyOf set (decide (set = 2) && release) (lastByte set code release) = (release, code) := by
  rcases known with rfl | rfl
  · obtain ⟨high, code_, same⟩ := release_byte code (low rfl)
    cases release <;> simp [keyOf, lastByte, low rfl, high, code_, same]
  · simp [keyOf, lastByte]

/-- The bytes of a code come down to one call of `decodeKey`, whether or not the prefix 0xE0 came
before them. -/
theorem decode_codeBytes {set : Nat} {code : Scancode} {release : Bool} {st : KbdState}
    (known : set = 1 ∨ set = 2) (set_ : st.scancodeSet = set) (quiet : st.set2Release = false)
    (coded : (set = 1 → code &&& 0x80#8 = 0#8) ∧ lastByte set code release ≠ 0xE0#8 ∧
      lastByte set code release ≠ 0xF0#8) :
    kbdDecode (codeBytes set code release) st =
      ((decodeKey set release code st).1.toList, (decodeKey set release code st).2) := by
  obtain ⟨low, notE0, notF0⟩ := coded
  have key := keyOf_lastByte known low release
  have last : ∀ st' : KbdState, st'.scancodeSet = set →
      st'.set2Release = (decide (set = 2) && release) →
      { st' with set2Release := false } = st →
      kbdDecodeScancode (lastByte set code release) st' = decodeKey set release code st := by
    intro st' same pending back
    have modes : set = 1 ∧ (decide (set = 2) && release) = false ∨ set = 2 := by
      rcases known with rfl | rfl <;> simp
    rw [kbdDecodeScancode_known same modes pending notE0 notF0, key, back]
  rw [codeBytes]
  split
  · rename_i prefixed
    have flagged : kbdDecodeScancode 0xF0#8 st =
        (none, { st with set2Release := true, scancodeSet := 2 }) := rfl
    have back : { st with set2Release := false, scancodeSet := 2 } = st := by
      rw [← quiet, ← prefixed.1, ← set_]
    rw [List.cons_append, List.nil_append, kbdDecode, flagged]
    dsimp only
    rw [kbdDecode, last _ prefixed.1.symm (by simp [prefixed.1, prefixed.2]) back]
    simp [kbdDecode]
  · rename_i plain
    have pending : st.set2Release = (decide (set = 2) && release) := by
      rw [quiet]
      by_cases two : set = 2
      · have up : release = false := by
          by_contra down
          exact plain ⟨two, by simpa using down⟩
        simp [up]
      · simp [two]
    have back : { st with set2Release := false } = st := by
      rw [← quiet]
    rw [List.nil_append, kbdDecode, last st set_ pending back]
    simp [kbdDecode]

theorem decode_pause : ∀ shift caps ctrl alt : Bool,
    kbdDecode (BoardEvent.pause.encode 1) ⟨shift, caps, ctrl, alt, false, false, 1⟩ =
        ([], ⟨shift, caps, false, alt, false, false, 1⟩) ∧
      kbdDecode (BoardEvent.pause.encode 2) ⟨shift, caps, ctrl, alt, false, false, 2⟩ =
        ([], ⟨shift, caps, false, alt, false, false, 2⟩) := by
  decide +kernel

theorem updateModifier_flags {set : Nat} {code : Scancode} (known : set = 1 ∨ set = 2)
    (release : Bool) (st : KbdState) :
    (updateModifier set code release st).shift =
        (if code = Key.leftShift.code set ∨ code = Key.rightShift.code set then !release
          else st.shift) ∧
      (updateModifier set code release st).caps =
        (if code = Key.capsLock.code set then st.caps ^^ !release else st.caps) ∧
      (updateModifier set code release st).ctrlHeld =
        (if code = Key.leftCtrl.code set then !release else st.ctrlHeld) := by
  rcases known with rfl | rfl <;>
  · cases release <;>
    · simp only [updateModifier, Key.code, Key.set1, Key.set2]
      split_ifs <;> simp_all

/-! ## The run -/

/-- The decoder is right about the board. In set 1 it stays right about ctrl because right ctrl is
only down together with left ctrl. -/
structure Right (set : Nat) (board : Board) (st : KbdState) : Prop where
  mode : InMode set false board.ctrl st
  shift : st.shift = board.shift
  caps : st.caps = board.caps
  nested : set = 1 → board.rightCtrl = true → board.leftCtrl = true

def Flags (board : Board) (st : KbdState) : Prop :=
  st.shift = board.shift ∧ st.ctrlHeld = board.ctrl ∧ st.caps = board.caps

theorem modifier_codes {set : Nat} (known : set = 1 ∨ set = 2) :
    Key.rightShift.code set ≠ Key.leftShift.code set ∧
      Key.capsLock.code set ≠ Key.leftShift.code set ∧
      Key.capsLock.code set ≠ Key.rightShift.code set ∧
      Key.leftCtrl.code set ≠ Key.leftShift.code set ∧
      Key.leftCtrl.code set ≠ Key.rightShift.code set ∧
      Key.leftCtrl.code set ≠ Key.capsLock.code set := by
  rcases known with rfl | rfl <;> decide

theorem flags_plain {set : Nat} {board : Board} {st : KbdState} (right : Right set board st)
    (code : Scancode) (release : Bool) :
    Flags (board.after set (.key false code release)) (updateModifier set code release st) ↔
      Orderly set board (.key false code release) := by
  obtain ⟨shift, caps, ctrl⟩ := @updateModifier_flags set code right.mode.set release st
  obtain ⟨rightLeft, capsLeft, capsRight, ctrlLeft, ctrlRight, ctrlCaps⟩ :=
    modifier_codes right.mode.set
  simp only [Flags, shift, caps, ctrl, right.shift, right.caps, right.mode.ctrl, Board.after, Orderly]
  by_cases left : code = Key.leftShift.code set
  · subst left
    cases release <;>
      simp [rightLeft.symm, capsLeft.symm, ctrlLeft.symm, Board.shift, Board.ctrl]
  by_cases right_ : code = Key.rightShift.code set
  · subst right_
    cases release <;>
      simp [rightLeft, capsRight.symm, ctrlRight.symm, Board.shift, Board.ctrl]
  by_cases capsLock : code = Key.capsLock.code set
  · subst capsLock
    cases release <;> simp [capsLeft, capsRight, ctrlCaps.symm, Board.shift, Board.ctrl]
  by_cases leftCtrl : code = Key.leftCtrl.code set
  · subst leftCtrl
    cases release <;>
      simp [ctrlLeft, ctrlRight, ctrlCaps, Board.shift, Board.ctrl]
  simp [left, right_, capsLock, leftCtrl]

/-- The state after an extended key: only right ctrl of set 2 does anything. -/
def afterExtended (set : Nat) (code : Scancode) (release : Bool) (st : KbdState) : KbdState :=
  { st with ctrlHeld := if set = 2 ∧ code = 0x14#8 then !release else st.ctrlHeld }

theorem flags_extended {set : Nat} {board : Board} {st : KbdState} (right : Right set board st)
    (code : Scancode) (release : Bool) :
    Flags (board.after set (.key true code release)) (afterExtended set code release st) ↔
      Orderly set board (.key true code release) := by
  have ctrl := right.mode.ctrl
  simp only [Flags, afterExtended, right.shift, right.caps, ctrl, Board.after, Orderly]
  rcases right.mode.set with rfl | rfl
  · have nested := right.nested rfl
    by_cases rightCtrl : code = Key.leftCtrl.code 1
    · cases release <;> simpa [rightCtrl, Board.shift, Board.ctrl] using nested
    · simp [rightCtrl]
  · by_cases rightCtrl : code = Key.leftCtrl.code 2
    · have same : code = 0x14#8 := rightCtrl
      cases release <;> simp [rightCtrl, Key.code, Key.set2, Board.shift, Board.ctrl]
    · have other : ¬ code = 0x14#8 := rightCtrl
      simp [rightCtrl, other]

theorem flags_pause {set : Nat} {board : Board} {st : KbdState} (right : Right set board st) :
    Flags (board.after set .pause) { st with ctrlHeld := false } ↔ Orderly set board .pause := by
  simp [Flags, Board.after, Orderly, right.shift, right.caps, Board.ctrl]

/-- What an event leaves, and what it gives when it is a press without prefix. -/
theorem decode_event {set : Nat} {board : Board} {st : KbdState} {event : BoardEvent}
    (right : Right set board st) (coded : event.Coded set) :
    (Flags (board.after set event) (kbdDecode (event.encode set) st).2 ↔ Orderly set board event) ∧
      InMode set false (kbdDecode (event.encode set) st).2.ctrlHeld
        (kbdDecode (event.encode set) st).2 ∧
      ∀ code, event = .key false code false →
        (kbdDecode (event.encode set) st).1 = (decodeKey set false code st).1.toList := by
  have mode := right.mode
  cases event with
  | key extended code release =>
    cases extended with
    | false =>
      have bytes := decode_codeBytes mode.set mode.known mode.pending coded
      have state := @decodeKey_state set code release st mode.closed mode.known
      obtain ⟨_, pending, closed⟩ := @updateModifier_mode set code st mode.set release
      rw [BoardEvent.encode, if_neg Bool.false_ne_true, List.nil_append, bytes]
      dsimp only
      rw [state]
      refine ⟨flags_plain right code release, ⟨?_, ?_, ?_, rfl, ?_⟩, ?_⟩
      · exact (updateModifier_set set code release st).trans mode.known
      · exact mode.oneOrTwo
      · exact pending.trans mode.pending
      · exact closed.trans mode.closed
      · rintro code' same
        cases same
        rfl
    | true =>
      have bytes : kbdDecode (codeBytes set code release) { st with extended := true } = _ :=
        decode_codeBytes mode.set mode.known mode.pending coded
      have step : kbdDecode (BoardEvent.encode set (.key true code release)) st =
          ([], afterExtended set code release st) := by
        rw [BoardEvent.encode, if_pos rfl, List.cons_append, List.nil_append, kbdDecode]
        have flagged : kbdDecodeScancode 0xE0#8 st = (none, { st with extended := true }) := rfl
        rw [flagged]
        dsimp only
        rw [bytes, decodeKey, if_pos rfl]
        have closed := mode.closed
        cases st
        simp_all [afterExtended]
      rw [step]
      refine ⟨flags_extended right code release, ⟨mode.known, mode.oneOrTwo, mode.pending, rfl,
        mode.closed⟩, ?_⟩
      rintro code' ⟨⟩
  | pause =>
    have step : kbdDecode (BoardEvent.encode set .pause) st = ([], { st with ctrlHeld := false }) := by
      have known := mode.known
      have pending := mode.pending
      have closed := mode.closed
      have pauses := decode_pause st.shift st.caps st.ctrlHeld st.altHeld
      cases st
      dsimp only at known pending closed pauses ⊢
      subst known pending closed
      rcases mode.set with one | two
      · rw [one]
        exact pauses.1
      · rw [two]
        exact pauses.2
    rw [step]
    refine ⟨flags_pause right, ⟨mode.known, mode.oneOrTwo, mode.pending, rfl, mode.closed⟩, ?_⟩
    rintro code' ⟨⟩

theorem nested_after {board : Board} {event : BoardEvent}
    (nested : board.rightCtrl = true → board.leftCtrl = true) (orderly : Orderly 1 board event) :
    (board.after 1 event).rightCtrl = true → (board.after 1 event).leftCtrl = true := by
  cases event with
  | key extended code release =>
    cases extended with
    | false =>
      simp only [Board.after]
      split_ifs with left right caps ctrl
      · exact nested
      · exact nested
      · exact nested
      · cases release with
        | false => simp
        | true => simp [(orderly rfl).2.2 ctrl]
      · exact nested
    | true =>
      simp only [Board.after]
      split_ifs with ctrl
      · cases release with
        | false =>
          have held : board.leftCtrl = true := orderly ctrl rfl
          simp [held]
        | true => simp
      · exact nested
  | pause => exact nested

theorem event_alt (m : Modifiers) (alt : Bool) (event : KeyEvent) :
    ({ m with alt := alt }.event event).1 = (m.event event).1 := by
  unfold Modifiers.event
  cases event.key.action with
  | shift => rfl
  | caps => rfl
  | ctrl => rfl
  | alt => rfl
  | text normal shifted =>
    dsimp only
    split
    · rfl
    · split <;> rfl

theorem Right.typed {set : Nat} {board : Board} {st : KbdState} (right : Right set board st)
    (key : Key) :
    (decodeKey set false (key.code set) st).1 = ((board.modifiers false).event ⟨key, false⟩).1 := by
  have state : st = (board.modifiers st.altHeld).decoder set := by
    obtain ⟨mode, shift, caps, _⟩ := right
    obtain ⟨known, _, pending, ctrl, closed⟩ := mode
    cases st
    simp_all [Board.modifiers, Modifiers.decoder]
  have decoded : decodeKey set false (key.code set) ((board.modifiers st.altHeld).decoder set) =
      (board.modifiers st.altHeld).decoded set ⟨key, false⟩ := by
    rcases right.mode.set with rfl | rfl
    · exact decodeKey_set1 key false _
    · exact decodeKey_set2 key false _
  rw [← state] at decoded
  rw [decoded]
  exact event_alt (board.modifiers false) st.altHeld ⟨key, false⟩

theorem follows_iff {set : Nat} {events : List BoardEvent} (coded : ∀ e ∈ events, e.Coded set) :
    ∀ {st : KbdState} {board : Board}, Right set board st →
    (Follows set st board events ↔ AllOrderly set board events) := by
  induction events with
  | nil => exact fun _ => iff_of_true trivial trivial
  | cons event rest ih =>
    intro st board right
    have later := @ih fun e member => coded e (List.mem_cons_of_mem _ member)
    obtain ⟨flags, mode, output⟩ := decode_event right (coded event (by simp))
    have next : Orderly set board event →
        Right set (board.after set event) (kbdDecode (event.encode set) st).2 := by
      intro orderly
      obtain ⟨shift, ctrl, caps⟩ := flags.mpr orderly
      rw [ctrl] at mode
      refine ⟨mode, shift, caps, ?_⟩
      rintro rfl
      exact nested_after (right.nested rfl) orderly
    rw [Follows, AllOrderly]
    constructor
    · rintro ⟨here, _, after⟩
      have orderly := flags.mp here
      exact ⟨orderly, (later (next orderly)).mp after⟩
    · rintro ⟨orderly, after⟩
      refine ⟨flags.mpr orderly, ?_, (later (next orderly)).mpr after⟩
      intro key normal shifted press _
      rw [output _ press, right.typed key]

/-- From a reset with set 1 or set 2 the decoder follows the board through a sequence of events iff
all of them are orderly. -/
theorem decoder_follows_board_iff {set : Nat} (known : set = 1 ∨ set = 2) {events : List BoardEvent}
    (coded : ∀ e ∈ events, e.Coded set) :
    Follows set (kbdDecodeSetScancodeSet set kbdDecodeReset) Board.released events ↔
      AllOrderly set Board.released events := by
  refine follows_iff coded ?_
  rcases known with rfl | rfl
  · exact ⟨⟨rfl, .inl ⟨rfl, rfl⟩, rfl, rfl, rfl⟩, rfl, rfl, fun _ => nofun⟩
  · exact ⟨⟨rfl, .inr rfl, rfl, rfl, rfl⟩, rfl, rfl, fun _ => nofun⟩

/-- Shift, a letter and right ctrl in set 2. -/
theorem decoder_follows_board_iff_letter :
    Follows 2 (kbdDecodeSetScancodeSet 2 kbdDecodeReset) Board.released
      [.key false 0x12#8 false, .key false 0x1C#8 false, .key false 0x1C#8 true,
        .key false 0x12#8 true, .key true 0x14#8 false, .key true 0x14#8 true] :=
  (decoder_follows_board_iff (.inr rfl) (by simp [BoardEvent.Coded, lastByte])).mpr
    (by simp [AllOrderly, Orderly, Board.after, Board.released, Key.code, Key.set2])

/-- In set 1, left shift goes down, right shift goes down and left shift goes up: right shift is
still down, and the decoder has no shift. -/
theorem decoder_loses_right_shift :
    let events : List BoardEvent :=
      [.key false 0x2A#8 false, .key false 0x36#8 false, .key false 0x2A#8 true]
    (kbdDecode (events.flatMap (BoardEvent.encode 1))
        (kbdDecodeSetScancodeSet 1 kbdDecodeReset)).2.shift = false ∧
      (events.foldl (Board.after 1) Board.released).shift = true := by
  decide

end LithiumKernel.Drivers
