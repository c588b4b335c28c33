import LithiumKernel.Lib.CString
import Mathlib.Data.List.DropRight

/-!
# The line of the shell (user/sh.c)

`run_command` trims the line, cuts it into words in place and takes the redirections out of the
words. The line is a character array, a pointer into it is an index, and `argv` an array of such
pointers. `split_args` leaves its loop at 11 words, so what follows them is not looked at.
-/
namespace LithiumKernel.User

open LithiumKernel.Lib

/-! ## The source -/

abbrev Line := List (BitVec 8)

/-- `char *argv[ARG_MAX]`; a null pointer is `none`. -/
abbrev Argv := Nat → Option Nat

def argMax : Nat := 12

def Line.byte (line : Line) (p : Nat) : BitVec 8 := line.getD p 0#8

/-- ' ' or '\t' -/
def isBlank (c : BitVec 8) : Bool := c = 32#8 || c = 9#8

/-- ' ', '\t', '\n' or '\r' -/
def isTail (c : BitVec 8) : Bool := isBlank c || c = 10#8 || c = 13#8

def isWordChar (c : BitVec 8) : Bool := c ≠ 0#8 && !isBlank c

/-- A loop that moves a pointer over characters of one kind; the line has no more than `fuel`
characters. -/
def scan (f : BitVec 8 → Bool) (line : Line) : Nat → Nat → Nat
  | 0, p => p
  | fuel + 1, p => if f (line.byte p) then scan f line fuel (p + 1) else p

def skipSpaces (line : Line) (s : Nat) : Nat := scan isBlank line line.length s

/-- `while (*p && *p != ' ' && *p != '\t') p++;` -/
def skipWord (line : Line) (p : Nat) : Nat := scan isWordChar line line.length p

def trimLoop (line : Line) : Nat → Line
  | 0 => line
  | n + 1 => if isTail (line.byte n) then trimLoop (line.set n 0#8) n else line

def trimTail (line : Line) : Line := trimLoop line (cstr line).length

/-- The loop of `split_args`, with the number of arguments there is still room for. -/
def splitLoop : Nat → Line → Argv → Nat → Nat → Line × Argv × Nat
  | 0, line, argv, argc, _ => (line, argv, argc)
  | left + 1, line, argv, argc, p =>
    if line.byte p = 0#8 then (line, argv, argc)
    else
      let argv := Function.update argv argc (some p)
      let argc := argc + 1
      let p := skipWord line p
      if line.byte p = 0#8 then (line, argv, argc)
      else
        let line := line.set p 0#8
        splitLoop left line argv argc (skipSpaces line (p + 1))

def splitArgs (line : Line) (argv : Argv) : Line × Argv × Nat :=
  let (line, argv, argc) := splitLoop (argMax - 1) line argv 0 (skipSpaces line 0)
  (line, Function.update argv argc none, argc)

structure CommandIo where
  input : Option Nat
  output : Option Nat

inductive ShellError where
  /-- "sh: missing redirection target\n" -/
  | missingTarget
  /-- A read behind the end of `argv`. -/
  | overrun
  deriving DecidableEq

/-- `u_strcmp(argv[i], s) == 0` -/
def isString (line : Line) (p : Nat) (s : CString) : Bool := strAt line p = s

/-- "<" -/
def inputOp : CString := [60#8]

/-- ">" -/
def outputOp : CString := [62#8]

/-- The loop of `parse_redirections` at `argv[i]`, with the slots that are left of `argv`. -/
def redirLoop (line : Line) : Nat → Argv → Nat → Nat → CommandIo →
    Except ShellError (Argv × Nat × CommandIo)
  | 0, _, _, _, _ => .error .overrun
  | left + 1, argv, i, dst, io =>
    match argv i with
    | none => .ok (Function.update argv dst none, dst, io)
    | some p =>
      if isString line p inputOp || isString line p outputOp then
        match left, argv (i + 1) with
        | 0, _ => .error .overrun
        | _ + 1, none => .error .missingTarget
        | left + 1, some target =>
          if line.byte p = 60#8 then redirLoop line left argv (i + 2) dst { io with input := some target }
          else redirLoop line left argv (i + 2) dst { io with output := some target }
      else redirLoop line left (Function.update argv dst (some p)) (i + 1) (dst + 1) io

def parseRedirections (line : Line) (argv : Argv) : Except ShellError (Argv × Nat × CommandIo) :=
  redirLoop line argMax argv 0 0 ⟨none, none⟩

/-- The words and the targets that the pointers stand for. -/
structure Command where
  argv : List CString
  input : Option CString
  output : Option CString
  deriving DecidableEq

/-- The strings of the first `argc` arguments. -/
def strings (line : Line) (argv : Argv) (argc : Nat) : List CString :=
  (List.range argc).map fun i => ((argv i).map (strAt line)).getD []

/-- The words `run_command` has after `split_args`. -/
def splitWords (line : Line) (argv : Argv) : List CString :=
  let (line, argv, argc) := splitArgs (trimTail line) argv
  strings line argv argc

/-- `run_command` up to the choice of the command. -/
def parseCommand (line : Line) (argv : Argv) : Except ShellError Command :=
  let (line, argv, argc) := splitArgs (trimTail line) argv
  if argc = 0 then .ok ⟨[], none, none⟩
  else
    match parseRedirections line argv with
    | .error e => .error e
    | .ok (argv, argc, io) =>
      .ok ⟨strings line argv argc, io.input.map (strAt line), io.output.map (strAt line)⟩

/-! ## Words and redirections -/

/-- The words between the blanks of a text. -/
def words (s : CString) : List CString := (s.splitOnP isBlank).filter (· ≠ [])

/-- The words of a line; the line end is not part of one. -/
def lineWords (s : CString) : List CString := words (s.rdropWhile isTail)

/-- The command of a list of words: what is left without the redirections, and their last targets.
There is none if a redirection has no target. -/
def redirect : List CString → Option Command
  | [] => some ⟨[], none, none⟩
  | [w] => if w = inputOp ∨ w = outputOp then none else some ⟨[w], none, none⟩
  | w :: target :: ws =>
    if w = inputOp then (redirect ws).map fun c => { c with input := c.input.or (some target) }
    else if w = outputOp then (redirect ws).map fun c => { c with output := c.output.or (some target) }
    else (redirect (target :: ws)).map fun c => { c with argv := w :: c.argv }

theorem words_nil : words [] = [] := rfl

theorem words_word {w : CString} (nonempty : w ≠ []) (plain : ∀ c ∈ w, isBlank c = false) :
    words w = [w] := by
  rw [words, List.splitOnP_eq_singleton plain]
  simp [nonempty]

theorem words_cons {w rest : CString} {b : BitVec 8} (nonempty : w ≠ [])
    (plain : ∀ c ∈ w, isBlank c = false) (blank : isBlank b = true) :
    words (w ++ b :: rest) = w :: words rest := by
  rw [words, List.splitOnP_append_cons_of_forall_mem plain b blank]
  simp [nonempty, words]

theorem words_blank {b : BitVec 8} (blank : isBlank b = true) (s : CString) :
    words (b :: s) = words s := by
  have none_ : ∀ c ∈ ([] : CString), isBlank c = false := fun c member => absurd member List.not_mem_nil
  have cut : (b :: s).splitOnP isBlank = [] :: s.splitOnP isBlank :=
    List.splitOnP_append_cons_of_forall_mem none_ b blank s
  rw [words, cut]
  simp [words]

theorem words_dropWhile (s : CString) : words (s.dropWhile isBlank) = words s := by
  induction s with
  | nil => rfl
  | cons b s ih =>
    cases blank : isBlank b with
    | false => rw [List.dropWhile_cons_of_neg (by simp [blank])]
    | true => rw [List.dropWhile_cons_of_pos blank, ih, words_blank blank]

/-! ## Moving over the line -/

variable {line : Line} {argv : Argv} {argc p : Nat}

theorem byte_zero_iff (line : Line) (p : Nat) : line.byte p = 0#8 ↔ strAt line p = [] :=
  (strAt_nil_iff line p).symm

theorem scan_spec {f : BitVec 8 → Bool} (stops : f 0#8 = false) (fuel p : Nat)
    (enough : (strAt line p).length ≤ fuel) :
    scan f line fuel p = p + ((strAt line p).takeWhile f).length ∧
      strAt line (scan f line fuel p) = (strAt line p).dropWhile f := by
  induction fuel generalizing p with
  | zero =>
    have none_ := List.length_eq_zero_iff.mp (Nat.le_zero.mp enough)
    rw [scan, none_]
    exact ⟨rfl, rfl⟩
  | succ fuel ih =>
    rw [scan]
    match here : strAt line p with
    | [] =>
      rw [Line.byte, (strAt_nil_iff line p).mp here, stops, if_neg Bool.false_ne_true, here]
      exact ⟨rfl, rfl⟩
    | c :: s =>
      obtain ⟨_, byte, _, rest⟩ := strAt_cons here
      rw [Line.byte, byte]
      rw [here, List.length_cons] at enough
      cases kind : f c with
      | false =>
        rw [if_neg Bool.false_ne_true, here, List.takeWhile_cons_of_neg (by simp [kind]),
          List.dropWhile_cons_of_neg (by simp [kind])]
        exact ⟨rfl, rfl⟩
      | true =>
        obtain ⟨place, string⟩ := ih (p + 1) (by rw [rest]; omega)
        rw [rest] at place string
        rw [if_pos rfl, List.takeWhile_cons_of_pos kind, List.dropWhile_cons_of_pos kind]
        refine ⟨?_, string⟩
        rw [place, List.length_cons]
        omega

theorem skipSpaces_spec (line : Line) (p : Nat) :
    p ≤ skipSpaces line p ∧ strAt line (skipSpaces line p) = (strAt line p).dropWhile isBlank := by
  have := strAt_length_le line p
  have enough : (strAt line p).length ≤ line.length := by omega
  obtain ⟨place, string⟩ := scan_spec (f := isBlank) rfl line.length p enough
  exact ⟨by rw [skipSpaces, place]; omega, string⟩

theorem skipWord_spec (line : Line) (p : Nat) :
    skipWord line p = p + ((strAt line p).takeWhile isWordChar).length ∧
      strAt line (skipWord line p) = (strAt line p).dropWhile isWordChar := by
  have := strAt_length_le line p
  exact scan_spec rfl line.length p (by omega)

/-! ## The end of the line -/

theorem cstr_byte {n : Nat} (lt : n < (cstr line).length) : line.byte n = (cstr line)[n] := by
  have begins : cstr line <+: line := List.takeWhile_prefix _
  have inside : n < line.length := Nat.lt_of_lt_of_le lt begins.length_le
  rw [Line.byte, List.getD_eq_getElem _ _ inside]
  exact (begins.getElem lt).symm

theorem trimLoop_spec (n : Nat) (length : (cstr line).length = n) :
    cstr (trimLoop line n) = (cstr line).rdropWhile isTail := by
  induction n generalizing line with
  | zero =>
    rw [trimLoop, List.length_eq_zero_iff.mp length]
    rfl
  | succ n ih =>
    have last : cstr line = (cstr line).take n ++ [line.byte n] := by
      rw [cstr_byte (by omega), List.take_append_getElem]
      exact (List.take_of_length_le (by omega)).symm
    rw [trimLoop]
    cases tail : isTail (line.byte n) with
    | false =>
      rw [if_neg Bool.false_ne_true]
      nth_rewrite 2 [last]
      rw [List.rdropWhile_concat_neg _ _ _ (by simp [tail])]
      exact last
    | true =>
      have cut : cstr (line.set n 0#8) = (cstr line).take n := cstr_set_zero (by omega)
      rw [if_pos rfl, ih (by rw [cut, List.length_take]; omega), cut]
      nth_rewrite 2 [last]
      rw [List.rdropWhile_concat_pos _ _ _ tail]

theorem trimTail_spec (line : Line) : cstr (trimTail line) = (cstr line).rdropWhile isTail :=
  trimLoop_spec _ rfl

/-! ## The words -/

/-- The arguments from number `k` on point to the given strings. -/
def Points (line : Line) (argv : Argv) (k : Nat) (ws : List CString) : Prop :=
  ∀ i (lt : i < ws.length), ∃ p, argv (k + i) = some p ∧ strAt line p = ws[i]

/-- What a run of the loop of `split_args` leaves: the words at `p`, as many as there is room for,
behind the arguments there were, and the strings that end in front of `p` as they were. -/
structure Split (left : Nat) (line : Line) (argv : Argv) (argc p : Nat) (r : Line × Argv × Nat) :
    Prop where
  count : r.2.2 = argc + ((words (strAt line p)).take left).length
  points : Points r.1 r.2.1 argc ((words (strAt line p)).take left)
  before : ∀ i < argc, r.2.1 i = argv i
  kept : ∀ q, q + (strAt line q).length < p → strAt r.1 q = strAt line q

theorem Points.nil (line : Line) (argv : Argv) (k : Nat) : Points line argv k [] :=
  fun _ lt => absurd lt (Nat.not_lt_zero _)

theorem Split.refl {left : Nat} (none_ : (words (strAt line p)).take left = []) :
    Split left line argv argc p (line, argv, argc) where
  count := by rw [none_]; rfl
  points := by rw [none_]; exact Points.nil _ _ _
  before _ _ := rfl
  kept _ _ := rfl

theorem Points.cons {k : Nat} {w : CString} {ws : List CString} (first : argv k = some p)
    (string : strAt line p = w) (rest : Points line argv (k + 1) ws) : Points line argv k (w :: ws) := by
  rintro (_ | i) lt
  · exact ⟨p, first, string⟩
  · obtain ⟨q, place, string⟩ := rest i (Nat.lt_of_succ_lt_succ lt)
    rw [Nat.add_right_comm, Nat.add_assoc] at place
    exact ⟨q, place, string⟩

theorem Points.head {k : Nat} {w : CString} {ws : List CString} (h : Points line argv k (w :: ws)) :
    ∃ p, argv k = some p ∧ strAt line p = w := h 0 (Nat.succ_pos _)

theorem Points.tail {k : Nat} {w : CString} {ws : List CString} (h : Points line argv k (w :: ws)) :
    Points line argv (k + 1) ws := by
  intro i lt
  obtain ⟨p, place, string⟩ := h (i + 1) (Nat.succ_lt_succ lt)
  rw [← Nat.add_assoc, Nat.add_right_comm] at place
  exact ⟨p, place, string⟩

theorem Points.congr {argv' : Argv} {k : Nat} {ws : List CString} (h : Points line argv k ws)
    (same : ∀ i, k ≤ i → argv' i = argv i) : Points line argv' k ws := by
  intro i lt
  rw [same (k + i) (Nat.le_add_right k i)]
  exact h i lt

/-- The word at a pointer, and what stands behind it. -/
theorem word_spec {c : BitVec 8} {s : CString} (here : strAt line p = c :: s)
    (begins : (strAt line p).dropWhile isBlank = strAt line p) :
    ∃ w, w ≠ [] ∧ (∀ c ∈ w, isBlank c = false) ∧ skipWord line p = p + w.length ∧
      strAt line p = w ++ strAt line (skipWord line p) ∧
      ∀ b rest, strAt line (skipWord line p) = b :: rest → isBlank b = true := by
  obtain ⟨place, string⟩ := skipWord_spec line p
  have nonzero := (strAt_cons here).2.2.1
  have plain : isBlank c = false := by
    by_contra blank
    rw [here, List.dropWhile_cons_of_pos (by simpa using blank)] at begins
    have shorter := List.Sublist.length_le (List.dropWhile_sublist (l := s) isBlank)
    rw [begins, List.length_cons] at shorter
    omega
  refine ⟨(strAt line p).takeWhile isWordChar, ?_, fun c member => ?_, place, ?_, fun b rest behind => ?_⟩
  · rw [here, List.takeWhile_cons_of_pos (by simp [isWordChar, plain, nonzero])]
    exact List.cons_ne_nil _ _
  · have kind := List.mem_takeWhile_imp member
    simp only [isWordChar, Bool.and_eq_true, Bool.not_eq_true'] at kind
    exact kind.2
  · rw [string, List.takeWhile_append_dropWhile]
  · have stop := List.head?_dropWhile_not isWordChar (strAt line p)
    rw [← string, behind] at stop
    have nonzero := (strAt_cons behind).2.2.1
    simpa [isWordChar, nonzero] using stop

theorem splitLoop_spec (left : Nat) (line : Line) (argv : Argv) (argc p : Nat)
    (begins : (strAt line p).dropWhile isBlank = strAt line p) :
    Split left line argv argc p (splitLoop left line argv argc p) := by
  induction left generalizing line argv argc p with
  | zero => exact .refl (List.take_zero ..)
  | succ left ih =>
    rw [splitLoop]
    match here : strAt line p with
    | [] =>
      rw [if_pos ((byte_zero_iff line p).mpr here)]
      refine .refl ?_
      rw [here, words_nil]
      rfl
    | c :: s =>
      have some_ : line.byte p ≠ 0#8 := by simp [byte_zero_iff, here]
      obtain ⟨w, nonempty, plain, place, split, stop⟩ := word_spec here begins
      rw [if_neg some_]
      dsimp only
      generalize skipWord line p = q at place split stop
      match behind : strAt line q with
      | [] =>
        -- the last word
        have all : (words (strAt line p)).take (left + 1) = [w] := by
          rw [split, behind, List.append_nil, words_word nonempty plain, List.take_succ_cons, List.take_nil]
        rw [if_pos ((byte_zero_iff line q).mpr behind)]
        rw [behind, List.append_nil] at split
        refine ⟨by rw [all]; rfl, ?_, fun i lt => Function.update_of_ne (Nat.ne_of_lt lt) _ _, fun _ _ => rfl⟩
        rw [all]
        exact .cons (Function.update_self ..) split (Points.nil _ _ _)
      | b :: rest =>
        have some_ : line.byte q ≠ 0#8 := by simp [byte_zero_iff, behind]
        have all : words (strAt line p) = w :: words rest := by
          rw [split, behind, words_cons nonempty plain (stop b rest behind)]
        have length : (strAt line p).length = w.length + (rest.length + 1) := by
          rw [split, behind, List.length_append, List.length_cons]
        have cut : strAt (line.set q 0#8) p = w := by
          rw [strAt_set_zero (by omega) (by omega), split, place, Nat.add_sub_cancel_left, List.take_left]
        have next : strAt (line.set q 0#8) (q + 1) = rest := by
          rw [strAt_set_before _ (Nat.lt_succ_self q)]
          exact (strAt_cons behind).2.2.2
        obtain ⟨after, string⟩ := skipSpaces_spec (line.set q 0#8) (q + 1)
        rw [next] at string
        rw [if_neg some_]
        have done := ih (line.set q 0#8) (Function.update argv argc (some p)) (argc + 1)
          (skipSpaces (line.set q 0#8) (q + 1)) (by rw [string, List.dropWhile_idempotent])
        have same : words (strAt (line.set q 0#8) (skipSpaces (line.set q 0#8) (q + 1))) = words rest := by
          rw [string, words_dropWhile]
        have count := done.count
        have points := done.points
        rw [same] at count points
        refine ⟨?_, ?_, fun i lt => ?_, fun q' ends => ?_⟩
        · rw [all, List.take_succ_cons, List.length_cons, count]
          omega
        · rw [all, List.take_succ_cons]
          refine .cons (p := p) ?_ ?_ points
          · rw [done.before argc (Nat.lt_succ_self _), Function.update_self]
          · rw [done.kept p (by rw [cut]; omega), cut]
        · rw [done.before i (by omega), Function.update_of_ne (Nat.ne_of_lt lt)]
        · have far : strAt (line.set q 0#8) q' = strAt line q' := strAt_set_behind _ (by omega)
          rw [done.kept q' (by rw [far]; omega), far]

/-! ## The redirections -/

/-- What `parse_redirections` has made of the words from `argv[i]` on: an error if a redirection has
no target, or the other words behind those it has kept, and the last targets. -/
def Redirects (line : Line) (argv : Argv) (dst : Nat) (io : CommandIo)
    (r : Except ShellError (Argv × Nat × CommandIo)) : Option Command → Prop
  | none => r = .error .missingTarget
  | some c => ∃ argv' io', r = .ok (argv', dst + c.argv.length, io') ∧ Points line argv' dst c.argv ∧
      (∀ j < dst, argv' j = argv j) ∧
      io'.input.map (strAt line) = c.input.or (io.input.map (strAt line)) ∧
      io'.output.map (strAt line) = c.output.or (io.output.map (strAt line))

variable {left i dst target : Nat} {io : CommandIo}

theorem redirLoop_plain (here : argv i = some p) (plain : strAt line p ≠ inputOp ∧ strAt line p ≠ outputOp) :
    redirLoop line (left + 1) argv i dst io =
      redirLoop line left (Function.update argv dst (some p)) (i + 1) (dst + 1) io := by
  rw [redirLoop]
  simp [here, isString, plain.1, plain.2]

theorem redirLoop_missing (here : argv i = some p)
    (op : strAt line p = inputOp ∨ strAt line p = outputOp) (end_ : argv (i + 1) = none) :
    redirLoop line (left + 2) argv i dst io = .error .missingTarget := by
  rw [redirLoop]
  simp [here, isString, op, end_]

theorem redirLoop_input (here : argv i = some p) (op : strAt line p = inputOp)
    (next : argv (i + 1) = some target) :
    redirLoop line (left + 2) argv i dst io =
      redirLoop line left argv (i + 2) dst { io with input := some target } := by
  have byte : line.byte p = 60#8 := (strAt_cons op).2.1
  rw [redirLoop]
  simp [here, isString, op, next, byte]

theorem redirLoop_output (here : argv i = some p) (op : strAt line p = outputOp)
    (next : argv (i + 1) = some target) :
    redirLoop line (left + 2) argv i dst io =
      redirLoop line left argv (i + 2) dst { io with output := some target } := by
  have byte : line.byte p = 62#8 := (strAt_cons op).2.1
  rw [redirLoop]
  simp [here, isString, op, next, byte]

theorem redirLoop_end (here : argv i = none) :
    Redirects line argv dst io (redirLoop line (left + 1) argv i dst io) (some ⟨[], none, none⟩) := by
  rw [redirLoop, here]
  exact ⟨_, io, rfl, Points.nil _ _ _, fun j lt => Function.update_of_ne (Nat.ne_of_lt lt) _ _, rfl, rfl⟩

/-- A word that is kept goes in front of what the rest of the loop keeps. -/
theorem Redirects.keep {r : Except ShellError (Argv × Nat × CommandIo)} {spec : Option Command}
    (h : Redirects line (Function.update argv dst (some p)) (dst + 1) io r spec) :
    Redirects line argv dst io r (spec.map fun c => { c with argv := strAt line p :: c.argv }) := by
  cases spec with
  | none => exact h
  | some c =>
    obtain ⟨argv', io', result, points, before, input, output⟩ := h
    refine ⟨argv', io', ?_, .cons (p := p) ?_ rfl points, fun j lt => ?_, input, output⟩
    · rw [result, Nat.add_assoc, Nat.add_comm 1]
      rfl
    · rw [before dst (Nat.lt_succ_self _), Function.update_self]
    · rw [before j (by omega), Function.update_of_ne (Nat.ne_of_lt lt)]

/-- A target counts if no later one replaces it. -/
theorem or_target (later : Option CString) (line : Line) (target : Nat) (io : Option Nat) :
    later.or ((some target).map (strAt line)) =
      (later.or (some (strAt line target))).or (io.map (strAt line)) := by
  cases later <;> rfl

theorem Redirects.input {r : Except ShellError (Argv × Nat × CommandIo)} {spec : Option Command}
    (h : Redirects line argv dst { io with input := some target } r spec) :
    Redirects line argv dst io r
      (spec.map fun c => { c with input := c.input.or (some (strAt line target)) }) := by
  cases spec with
  | none => exact h
  | some c =>
    obtain ⟨argv', io', result, points, before, input, output⟩ := h
    exact ⟨argv', io', result, points, before, input.trans (or_target _ line target io.input), output⟩

theorem Redirects.output {r : Except ShellError (Argv × Nat × CommandIo)} {spec : Option Command}
    (h : Redirects line argv dst { io with output := some target } r spec) :
    Redirects line argv dst io r
      (spec.map fun c => { c with output := c.output.or (some (strAt line target)) }) := by
  cases spec with
  | none => exact h
  | some c =>
    obtain ⟨argv', io', result, points, before, input, output⟩ := h
    exact ⟨argv', io', result, points, before, input, output.trans (or_target _ line target io.output)⟩

theorem redirLoop_spec (ws : List CString) (left : Nat) (argv : Argv) (i dst : Nat) (io : CommandIo)
    (points : Points line argv i ws) (end_ : argv (i + ws.length) = none) (behind : dst ≤ i)
    (room : ws.length < left) :
    Redirects line argv dst io (redirLoop line left argv i dst io) (redirect ws) := by
  -- the slots behind the current one do not see what is kept
  have apart : ∀ (argv : Argv) (p : Nat) {i dst : Nat}, dst ≤ i → ∀ j, i + 1 ≤ j →
      Function.update argv dst (some p) j = argv j :=
    fun argv p i dst le j lt => Function.update_of_ne (by omega) _ _
  induction ws using redirect.induct generalizing left argv i dst io with
  | case1 =>
    obtain ⟨left, rfl⟩ := Nat.exists_eq_succ_of_ne_zero (Nat.ne_of_gt room)
    exact redirLoop_end end_
  | case2 w op =>
    obtain ⟨left, rfl⟩ := Nat.exists_eq_add_of_le room
    obtain ⟨p, here, rfl⟩ := points.head
    rw [redirect, if_pos op, List.length_singleton, Nat.add_comm]
    exact redirLoop_missing here op end_
  | case3 w plain =>
    obtain ⟨left, rfl⟩ := Nat.exists_eq_add_of_le room
    obtain ⟨p, here, rfl⟩ := points.head
    rw [List.length_singleton, Nat.add_comm, redirLoop_plain here (not_or.mp plain), redirect, if_neg plain]
    have rest : Redirects line (Function.update argv dst (some p)) (dst + 1) io
        (redirLoop line (left + 1) (Function.update argv dst (some p)) (i + 1) (dst + 1) io)
        (some ⟨[], none, none⟩) := by
      refine redirLoop_end ?_
      rw [apart argv p behind (i + 1) (Nat.le_refl _)]
      exact end_
    exact rest.keep
  | case4 target ws ih =>
    obtain ⟨left, rfl⟩ := Nat.exists_eq_add_of_le room
    obtain ⟨p, here, op⟩ := points.head
    obtain ⟨t, next, rfl⟩ := points.tail.head
    rw [redirect, if_pos rfl, show (inputOp :: strAt line t :: ws).length.succ + left =
      (ws.length + 1 + left) + 2 by simp; omega, redirLoop_input here op next]
    refine (ih _ argv (i + 2) dst _ points.tail.tail ?_ (by omega) (by omega)).input
    rw [← end_]
    congr 1
    simp
    omega
  | case5 target ws notInput ih =>
    obtain ⟨left, rfl⟩ := Nat.exists_eq_add_of_le room
    obtain ⟨p, here, op⟩ := points.head
    obtain ⟨t, next, rfl⟩ := points.tail.head
    rw [redirect, if_neg notInput, if_pos rfl, show (outputOp :: strAt line t :: ws).length.succ + left =
      (ws.length + 1 + left) + 2 by simp; omega, redirLoop_output here op next]
    refine (ih _ argv (i + 2) dst _ points.tail.tail ?_ (by omega) (by omega)).output
    rw [← end_]
    congr 1
    simp
    omega
  | case6 w target ws notInput notOutput ih =>
    obtain ⟨left, rfl⟩ := Nat.exists_eq_add_of_le room
    obtain ⟨p, here, rfl⟩ := points.head
    rw [redirect, if_neg notInput, if_neg notOutput, show (strAt line p :: target :: ws).length.succ + left =
      ((target :: ws).length + 1 + left) + 1 by simp; omega, redirLoop_plain here ⟨notInput, notOutput⟩]
    refine (ih _ _ (i + 1) (dst + 1) io (points.tail.congr (apart argv p behind)) ?_ (by omega)
      (by omega)).keep
    rw [apart argv p behind _ (by omega), ← end_]
    congr 1
    simp
    omega

/-! ## The command -/

theorem splitArgs_spec (line : Line) (argv : Argv) :
    (splitArgs line argv).2.2 = ((words (cstr line)).take (argMax - 1)).length ∧
      Points (splitArgs line argv).1 (splitArgs line argv).2.1 0 ((words (cstr line)).take (argMax - 1)) ∧
      (splitArgs line argv).2.1 (splitArgs line argv).2.2 = none := by
  obtain ⟨_, string⟩ := skipSpaces_spec line 0
  have done := splitLoop_spec (argMax - 1) line argv 0 (skipSpaces line 0)
    (by rw [string, List.dropWhile_idempotent])
  have all : words (strAt line (skipSpaces line 0)) = words (cstr line) := by
    rw [string, words_dropWhile]
    rfl
  have count := done.count
  have points := done.points
  rw [all] at count points
  rw [Nat.zero_add] at count
  refine ⟨count, fun i lt => ?_, Function.update_self ..⟩
  obtain ⟨p, place, string⟩ := points i lt
  refine ⟨p, ?_, string⟩
  -- the null pointer behind the arguments is not one of them
  have apart : 0 + i ≠ (splitLoop (argMax - 1) line argv 0 (skipSpaces line 0)).2.2 := by
    rw [count]
    omega
  rw [← place]
  exact Function.update_of_ne apart _ _

theorem strings_eq {ws : List CString} (points : Points line argv 0 ws) :
    strings line argv ws.length = ws := by
  refine List.ext_getElem (by simp [strings]) fun i lt lt' => ?_
  obtain ⟨p, place, string⟩ := points i lt'
  rw [Nat.zero_add] at place
  simp [strings, place, string]

theorem splitWords_eq (line : Line) (argv : Argv) :
    splitWords line argv = (lineWords (cstr line)).take (argMax - 1) := by
  obtain ⟨count, points, _⟩ := splitArgs_spec (trimTail line) argv
  rw [trimTail_spec] at count points
  change strings (splitArgs (trimTail line) argv).1 (splitArgs (trimTail line) argv).2.1
    (splitArgs (trimTail line) argv).2.2 = _
  rw [count]
  exact strings_eq points

/-- The command is that of the first eleven words. -/
theorem parseCommand_eq (line : Line) (argv : Argv) :
    parseCommand line argv = match redirect ((lineWords (cstr line)).take (argMax - 1)) with
      | none => .error .missingTarget
      | some c => .ok c := by
  obtain ⟨count, points, end_⟩ := splitArgs_spec (trimTail line) argv
  rw [trimTail_spec] at count points
  unfold parseCommand
  generalize splitArgs (trimTail line) argv = split at count points end_ ⊢
  obtain ⟨line', argv', argc⟩ := split
  change argc = _ at count
  change Points line' argv' 0 _ at points
  change argv' argc = none at end_
  change (if argc = 0 then _ else _) = match redirect ((words ((cstr line).rdropWhile isTail)).take _) with
    | none => _
    | some c => _
  have small : ((words ((cstr line).rdropWhile isTail)).take (argMax - 1)).length < argMax :=
    Nat.lt_of_le_of_lt (List.length_take_le ..) (by decide)
  generalize (words ((cstr line).rdropWhile isTail)).take (argMax - 1) = ws at count points small ⊢
  by_cases none_ : argc = 0
  · rw [if_pos none_]
    rw [none_] at count
    rw [List.length_eq_zero_iff.mp count.symm]
    rfl
  · rw [count, ← Nat.zero_add ws.length] at end_
    have parsed := redirLoop_spec ws argMax argv' 0 0 ⟨none, none⟩ points end_ (Nat.le_refl 0) small
    rw [if_neg none_]
    unfold parseRedirections
    cases spec : redirect ws with
    | none =>
      rw [spec] at parsed
      rw [show redirLoop line' argMax argv' 0 0 ⟨none, none⟩ = .error .missingTarget from parsed]
    | some c =>
      rw [spec] at parsed
      obtain ⟨argv'', io, result, kept, _, input, output⟩ := parsed
      rw [result, Nat.zero_add]
      dsimp only
      rw [strings_eq kept, input, output, Option.map_none, Option.or_none, Option.or_none]

/-- The shell has taken all words of the line and made their command of them, or has reported an
error. -/
def RunsLine (line : Line) (argv : Argv) : Prop :=
  parseCommand line argv = .error .missingTarget ∨
    splitWords line argv = lineWords (cstr line) ∧
      ∃ c, redirect (lineWords (cstr line)) = some c ∧ parseCommand line argv = .ok c

/-- The line is run as typed exactly if it has at most eleven words, or the eleventh is a redirection
whose target is out of reach, which is reported. -/
theorem shell_runs_line_iff (line : Line) (argv : Argv) :
    RunsLine line argv ↔ (lineWords (cstr line)).length ≤ 11 ∨
      redirect ((lineWords (cstr line)).take 11) = none := by
  unfold RunsLine
  rw [splitWords_eq, parseCommand_eq, show argMax - 1 = 11 from rfl]
  constructor
  · rintro (error | ⟨all, _⟩)
    · cases command : redirect ((lineWords (cstr line)).take 11) with
      | none => exact .inr rfl
      | some c =>
        rw [command] at error
        cases error
    · have length := congrArg List.length all
      rw [List.length_take] at length
      exact .inl (by omega)
  · rintro (all | dangling)
    · rw [List.take_of_length_le all]
      cases command : redirect (lineWords (cstr line)) with
      | none => exact .inl rfl
      | some c => exact .inr ⟨rfl, c, rfl, rfl⟩
    · rw [dangling]
      exact .inl rfl

/-- "a b c d e f g h i j k > o" -/
def longLine : Line :=
  [97#8, 32#8, 98#8, 32#8, 99#8, 32#8, 100#8, 32#8, 101#8, 32#8, 102#8, 32#8, 103#8, 32#8, 104#8, 32#8,
    105#8, 32#8, 106#8, 32#8, 107#8, 32#8, 62#8, 32#8, 111#8, 0#8]

/-- The redirection behind the eleventh word is lost without an error. -/
theorem shell_drops_redirection :
    (∃ c, parseCommand longLine (fun _ => none) = .ok c ∧ c.output = none) ∧
      (redirect (lineWords (cstr longLine))).map Command.output = some (some [111#8]) ∧
      ¬ RunsLine longLine fun _ => none := by
  have all : lineWords (cstr longLine) = [[97#8], [98#8], [99#8], [100#8], [101#8], [102#8], [103#8],
      [104#8], [105#8], [106#8], [107#8], [62#8], [111#8]] := by decide
  unfold RunsLine
  rw [splitWords_eq, parseCommand_eq, all]
  refine ⟨⟨_, rfl, rfl⟩, by decide, ?_⟩
  rintro (error | ⟨words, _⟩)
  · cases error
  · exact absurd words (by decide)

end LithiumKernel.User
