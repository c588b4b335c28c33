import LithiumKernel.Fs.Vfs

/-!
# Normalisation in the caller's buffer (kernel/syscall/syscall.c)

`normalize_absolute_path` keeps its stack of names inside the output string. Below it is modelled
once more with that buffer: every write says where it goes, and one that leaves the buffer is an
error. It follows the model on strings, and that one is a fold over the names of the input: `.` is
skipped, `..` takes the last name away and any other name is put at the end.
-/
namespace LithiumKernel.Fs

open LithiumKernel.Lib

/-! ## Names -/

/-- The names between the slashes. -/
def components (p : CString) : List CString := (p.splitOn slash).filter (· ≠ [])

def stackStep (names : List CString) (c : CString) : List CString :=
  if c = [dot] then names else if c = [dot, dot] then names.dropLast else names ++ [c]

/-- The names that are left of a sequence of names. -/
def stackOf (cs : List CString) : List CString := cs.foldl stackStep []

theorem components_slash (p : CString) : components (slash :: p) = components p := by
  rw [components, List.splitOn_cons_eq_if_modifyHead, if_pos (by simp),
    List.filter_cons_of_neg (by simp)]
  rfl

theorem components_skip (p : CString) : components (p.dropWhile (· = slash)) = components p := by
  induction p with
  | nil => rfl
  | cons b rest ih =>
    by_cases here : b = slash
    · rw [here, components_slash, List.dropWhile_cons_of_pos (by simp)]
      exact ih
    · rw [List.dropWhile_cons_of_neg (by simpa using here)]

theorem components_single {c : CString} (clean : slash ∉ c) (nonempty : c ≠ []) :
    components c = [c] := by
  rw [components, List.splitOn_eq_singleton clean, List.filter_cons_of_pos (by simpa using nonempty)]
  rfl

theorem components_cons {c : CString} (clean : slash ∉ c) (nonempty : c ≠ []) (rest : CString) :
    components (c ++ slash :: rest) = c :: components rest := by
  rw [components, List.splitOn_append_cons_self_of_not_mem clean,
    List.filter_cons_of_pos (by simpa using nonempty)]
  rfl

theorem components_append (p q : CString) :
    components (p ++ slash :: q) = components p ++ components q := by
  rw [components, List.splitOn_append_cons_self, List.filter_append]
  rfl

/-- What is left after the names has a slash in front or is empty. -/
theorem components_rest {c rest : CString} (clean : slash ∉ c) (nonempty : c ≠ [])
    (lead : rest = [] ∨ rest.head? = some slash) : components (c ++ rest) = c :: components rest := by
  rcases lead with rfl | lead
  · rw [List.append_nil]
    exact components_single clean nonempty
  · obtain ⟨tail, rfl⟩ := List.head?_eq_some_iff.mp lead
    rw [components_cons clean nonempty, components_slash]

/-- What a round of the loop makes of the input: the slashes, the name and the rest. -/
structure Round (p part rest : CString) : Prop where
  whole : ∃ n, p = List.replicate n slash ++ (part ++ rest)
  clean : slash ∉ part
  lead : rest = [] ∨ rest.head? = some slash
  names : components p = if part = [] then [] else part :: components rest

theorem round (p : CString) :
    Round p ((p.dropWhile (· = slash)).takeWhile (· ≠ slash))
      ((p.dropWhile (· = slash)).dropWhile (· ≠ slash)) := by
  have begins : ∀ b, (p.dropWhile (· = slash)).head? = some b → b ≠ slash := by
    intro b head
    have not := List.head?_dropWhile_not (fun b => decide (b = slash)) p
    rw [head] at not
    simpa using not
  have names := components_skip p
  have whole : ∃ n, p = List.replicate n slash ++ p.dropWhile (· = slash) := by
    refine ⟨(p.takeWhile (· = slash)).length, ?_⟩
    have same : p.takeWhile (· = slash) = List.replicate (p.takeWhile (· = slash)).length slash :=
      List.eq_replicate_of_mem fun b member => by simpa using List.mem_takeWhile_imp member
    rw [← same, List.takeWhile_append_dropWhile]
  generalize p.dropWhile (· = slash) = start at begins names whole
  have clean : slash ∉ start.takeWhile (· ≠ slash) := by
    intro member
    have := List.mem_takeWhile_imp member
    simp at this
  have lead : start.dropWhile (· ≠ slash) = [] ∨
      (start.dropWhile (· ≠ slash)).head? = some slash := by
    have not := List.head?_dropWhile_not (fun b => decide (b ≠ slash)) start
    cases head : (start.dropWhile (· ≠ slash)).head? with
    | none => exact .inl (List.head?_eq_none_iff.mp head)
    | some b =>
      rw [head] at not
      exact .inr (by simpa using not)
  refine ⟨by rwa [List.takeWhile_append_dropWhile], clean, lead, ?_⟩
  rw [← names]
  split
  · rename_i empty
    cases start with
    | nil => rfl
    | cons b rest =>
      rw [List.takeWhile_cons_of_pos (by simpa using begins b rfl)] at empty
      cases empty
  · rename_i nonempty
    have whole := components_rest clean nonempty lead
    rwa [List.takeWhile_append_dropWhile] at whole

/-- Induction along the rounds. -/
theorem components_induction {motive : CString → Prop}
    (none_ : ∀ p, components p = [] → motive p)
    (next : ∀ p part rest, Round p part rest → part ≠ [] → motive rest → motive p) (p : CString) :
    motive p := by
  induction len : p.length using Nat.strongRecOn generalizing p with
  | ind n ih =>
    have taken := round p
    generalize (p.dropWhile (· = slash)).takeWhile (· ≠ slash) = part at taken
    generalize (p.dropWhile (· = slash)).dropWhile (· ≠ slash) = rest at taken
    by_cases empty : part = []
    · exact none_ p (by rw [taken.names, if_pos empty])
    · obtain ⟨k, whole⟩ := taken.whole
      have length := congrArg List.length whole
      simp only [List.length_append, List.length_replicate] at length
      have := List.length_pos_iff.mpr empty
      exact next p part rest taken empty (ih rest.length (by omega) rest rfl)

theorem components_mem (p : CString) :
    ∀ c ∈ components p, slash ∉ c ∧ c ≠ [] ∧ ∀ b ∈ c, b ∈ p := by
  induction p using components_induction with
  | none_ p empty =>
    rw [empty]
    exact fun _ => nofun
  | next p part rest taken nonempty ih =>
    obtain ⟨n, whole⟩ := taken.whole
    rw [taken.names, if_neg nonempty]
    intro c member
    rcases List.mem_cons.mp member with rfl | later
    · exact ⟨taken.clean, nonempty, fun b inside => by rw [whole]; simp [inside]⟩
    · obtain ⟨clean, some_, inside⟩ := ih c later
      refine ⟨clean, some_, fun b here => ?_⟩
      rw [whole]
      simp [inside b here]

/-- The bytes of the names, each with a slash in front of it. -/
def weight (names : List CString) : Nat := (names.flatMap (slash :: ·)).length

@[simp] theorem weight_nil : weight [] = 0 := rfl

@[simp] theorem weight_append (xs ys : List CString) : weight (xs ++ ys) = weight xs + weight ys := by
  simp [weight]

@[simp] theorem weight_cons (c : CString) (cs : List CString) :
    weight (c :: cs) = c.length + 1 + weight cs := by
  rw [weight, List.flatMap_cons, List.length_append]
  rfl

/-- A path has a slash in front of every name. -/
theorem components_weight (p : CString) (lead : p = [] ∨ p.head? = some slash) :
    weight (components p) ≤ p.length := by
  induction p using components_induction with
  | none_ p empty => simp [empty]
  | next p part rest taken nonempty ih =>
    obtain ⟨n, whole⟩ := taken.whole
    have length := congrArg List.length whole
    simp only [List.length_append, List.length_replicate] at length
    have slashes : n ≠ 0 := by
      rintro rfl
      obtain ⟨b, tail, rfl⟩ := List.exists_cons_of_ne_nil nonempty
      rw [whole] at lead
      rcases lead with lead | lead
      · cases lead
      · obtain rfl : b = slash := by simpa using lead
        exact taken.clean List.mem_cons_self
    have later := ih taken.lead
    rw [taken.names, if_neg nonempty, weight_cons]
    omega

/-! ## The loop on strings is a fold over the names -/

def applyPart (cap : Nat) (out part : CString) : Option CString :=
  if part = [dot] then some out
  else if part = [dot, dot] then some (pathPop out)
  else pathPush cap out part

theorem normalizeFrom_eq (cap : Nat) : ∀ {fuel : Nat} {out p : CString}, p.length ≤ fuel →
    normalizeFrom cap fuel out p = (components p).foldlM (applyPart cap) out := by
  intro fuel
  induction fuel with
  | zero =>
    intro out p low
    obtain rfl : p = [] := List.eq_nil_of_length_eq_zero (by omega)
    rfl
  | succ fuel ih =>
    intro out p low
    obtain ⟨_, _, _, names⟩ := round p
    have shorter : (p.dropWhile (· = slash)).takeWhile (· ≠ slash) ≠ [] →
        ((p.dropWhile (· = slash)).dropWhile (· ≠ slash)).length ≤ fuel := by
      intro some_
      have drop := (List.dropWhile_sublist (l := p) (· = slash)).length_le
      have whole := congrArg List.length
        (@List.takeWhile_append_dropWhile _ (· ≠ slash) (p.dropWhile (· = slash)))
      rw [List.length_append] at whole
      have := List.length_pos_iff.mpr some_
      omega
    rw [normalizeFrom, names]
    dsimp only
    generalize (p.dropWhile (· = slash)).takeWhile (· ≠ slash) = part at names shorter
    generalize (p.dropWhile (· = slash)).dropWhile (· ≠ slash) = rest at names shorter
    by_cases empty : part = []
    · simp [empty]
    have nonempty : p ≠ [] := by
      rintro rfl
      rw [if_neg empty] at names
      cases names
    rw [if_neg nonempty, if_neg empty, if_neg empty, List.foldlM_cons, applyPart]
    split
    · exact ih (shorter empty)
    split
    · exact ih (shorter empty)
    cases pathPush cap out part with
    | none => rfl
    | some pushed => exact ih (shorter empty)

theorem length_render (names : List CString) :
    (render names).length = if names = [] then 1 else weight names := by
  unfold render
  split <;> rfl

/-- What a name between slashes can be. -/
def Part (c : CString) : Prop := slash ∉ c ∧ c ≠ [] ∧ 0#8 ∉ c

theorem stackStep_ok {names : List CString} {c : CString} (ok : ∀ d ∈ names, Component d)
    (part : Part c) : ∀ d ∈ stackStep names c, Component d := by
  unfold stackStep
  split
  · exact ok
  split
  · exact fun d member => ok d ((List.dropLast_sublist names).mem member)
  rename_i notDot notDotDot
  intro d member
  rcases List.mem_append.mp member with old | new
  · exact ok d old
  · obtain rfl := List.mem_singleton.mp new
    exact ⟨part.2.1, part.1, part.2.2, notDot, notDotDot⟩

theorem weight_dropLast (names : List CString) : weight names.dropLast ≤ weight names := by
  rcases List.eq_nil_or_concat names with rfl | ⟨front, c, rfl⟩
  · exact le_refl _
  · rw [List.concat_eq_append, List.dropLast_concat, weight_append]
    omega

theorem weight_stackStep (names : List CString) (c : CString) :
    weight (stackStep names c) ≤ weight names + (c.length + 1) := by
  have drop := weight_dropLast names
  unfold stackStep
  split
  · omega
  split
  · omega
  simp

theorem pathPop_render {names : List CString} (ok : ∀ c ∈ names, Component c) :
    pathPop (render names) = render names.dropLast := by
  rcases List.eq_nil_or_concat names with rfl | ⟨front, c, rfl⟩
  · rfl
  · rw [List.concat_eq_append] at ok ⊢
    rw [pathPop_snoc (fun d member => ok d (by simp [member])) (ok c (by simp)), List.dropLast_concat]

/-- One name: the stack in the string makes the same step, unless it has no room. -/
theorem applyPart_eq {cap : Nat} {names : List CString} {c : CString}
    (ok : ∀ d ∈ names, Component d) (part : Part c) :
    applyPart cap (render names) c = some (render (stackStep names c)) ∨
      applyPart cap (render names) c = none ∧ cap ≤ weight names + (c.length + 1) := by
  unfold applyPart stackStep
  split
  · exact .inl rfl
  split
  · exact .inl (by rw [pathPop_render ok])
  rw [pathPush_render ok part.2.1]
  split
  · rename_i full
    rw [length_render, if_neg (by simp), weight_append, weight_cons, weight_nil] at full
    exact .inr ⟨rfl, by omega⟩
  · exact .inl rfl

theorem fold_eq {cap : Nat} : ∀ {cs names : List CString}, (∀ c ∈ names, Component c) →
    (∀ c ∈ cs, Part c) →
    (cs.foldlM (applyPart cap) (render names) = some (render (cs.foldl stackStep names)) ∨
      cs.foldlM (applyPart cap) (render names) = none ∧ cap ≤ weight names + weight cs) ∧
    (∀ c ∈ cs.foldl stackStep names, Component c) ∧
    weight (cs.foldl stackStep names) ≤ weight names + weight cs := by
  intro cs
  induction cs with
  | nil => exact fun ok _ => ⟨.inl rfl, ok, le_refl _⟩
  | cons c cs ih =>
    intro names ok parts
    have part := parts c List.mem_cons_self
    obtain ⟨run, okLast, light⟩ := ih (stackStep_ok ok part)
      fun d member => parts d (List.mem_cons_of_mem _ member)
    have step := weight_stackStep names c
    rw [List.foldlM_cons, List.foldl_cons, weight_cons]
    refine ⟨?_, okLast, by omega⟩
    rcases @applyPart_eq cap _ _ ok part with here | ⟨here, full⟩
    · rw [here]
      rcases run with done | ⟨failed, full⟩
      · exact .inl done
      · exact .inr ⟨failed, by omega⟩
    · rw [here]
      exact .inr ⟨rfl, by omega⟩

theorem components_part {p : CString} (clean : 0#8 ∉ p) : ∀ c ∈ components p, Part c := by
  intro c member
  obtain ⟨noSlash, nonempty, inside⟩ := components_mem p c member
  exact ⟨noSlash, nonempty, fun zero => clean (inside _ zero)⟩

/-- What normalisation gives, on strings. It fails only for an input that does not fit. -/
theorem normalizeAbsolutePath_eq {cap : Nat} {input : CString} (room : 2 ≤ cap)
    (absolute : input.head? = some slash) (clean : 0#8 ∉ input) :
    (normalizeAbsolutePath cap input = some (render (stackOf (components input))) ∨
      normalizeAbsolutePath cap input = none ∧ cap ≤ input.length) ∧
    (∀ c ∈ stackOf (components input), Component c) ∧
    weight (stackOf (components input)) ≤ input.length := by
  have light := components_weight input (.inr absolute)
  obtain ⟨run, ok, weight_⟩ := @fold_eq cap _ [] (fun _ => nofun) (components_part clean)
  rw [weight_nil] at run weight_
  refine ⟨?_, ok, by rw [stackOf]; omega⟩
  have start : normalizeAbsolutePath cap input =
      (components input).foldlM (applyPart cap) (render []) := by
    rw [normalizeAbsolutePath, if_neg (by simp [absolute]; omega), normalizeFrom_eq cap (le_refl _)]
    rfl
  rw [start]
  rcases run with done | ⟨failed, full⟩
  · exact .inl done
  · exact .inr ⟨failed, by omega⟩

/-! ## A canonical path is its own normal form -/

theorem components_render {names : List CString} (ok : ∀ c ∈ names, Component c) :
    components (render names) = names := by
  have all : ∀ names : List CString, (∀ c ∈ names, Component c) →
      components (names.flatMap (slash :: ·)) = names := by
    intro names
    induction names with
    | nil => exact fun _ => rfl
    | cons c cs ih =>
      intro ok
      have component := ok c List.mem_cons_self
      have lead : cs.flatMap (slash :: ·) = [] ∨ (cs.flatMap (slash :: ·)).head? = some slash := by
        cases cs with
        | nil => exact .inl rfl
        | cons d ds => exact .inr rfl
      rw [List.flatMap_cons, List.cons_append, components_slash,
        components_rest component.noSlash component.nonempty lead,
        ih fun d member => ok d (List.mem_cons_of_mem _ member)]
  unfold render
  split
  · rename_i none_
    rw [none_]
    exact components_slash []
  · exact all names ok

theorem stackOf_names {names : List CString} (ok : ∀ c ∈ names, Component c) :
    stackOf names = names := by
  have all : ∀ cs front : List CString, (∀ c ∈ cs, Component c) →
      cs.foldl stackStep front = front ++ cs := by
    intro cs
    induction cs with
    | nil => exact fun front _ => (List.append_nil front).symm
    | cons c cs ih =>
      intro front ok
      have component := ok c List.mem_cons_self
      rw [List.foldl_cons, ih _ fun d member => ok d (List.mem_cons_of_mem _ member), stackStep,
        if_neg component.notDot, if_neg component.notDotDot, List.append_assoc]
      rfl
  exact all names [] ok

/-! ## The buffer -/

/-- The result of the model with the buffer; the error is a write or read outside of it. -/
abbrev InBuffer := Except VfsHalt

/-- `memcpy` into the buffer, or the assignment of a single byte. -/
def putBytes (buf : List Byte) (k : Nat) (bytes : List Byte) : InBuffer (List Byte) :=
  if k + bytes.length ≤ buf.length then .ok (buf.take k ++ (bytes ++ buf.drop (k + bytes.length)))
  else .error .outOfBounds

def getByte (buf : List Byte) (k : Nat) : InBuffer Byte :=
  match buf[k]? with
  | some b => .ok b
  | none => .error .outOfBounds

/-- `while (*len > 1 && out[*len - 1] != '/') (*len)--`. -/
def backInBuffer (buf : List Byte) : Nat → InBuffer Nat
  | len + 2 => do
    let b ← getByte buf (len + 1)
    if b = slash then pure (len + 2) else backInBuffer buf (len + 1)
  | len => pure len

/-- `out` and `*len` after the call. -/
def popInBuffer (buf : List Byte) (len : Nat) : InBuffer (List Byte × Nat) :=
  if len ≤ 1 then pure (buf, len)
  else do
    let back ← backInBuffer buf len
    let len := if 1 < back then back - 1 else back
    let buf ← putBytes buf len [0#8]
    pure (buf, len)

/-- `none` is `-EINVAL`. -/
def pushInBuffer (cap : Nat) (buf : List Byte) (len : Nat) (name : CString) :
    InBuffer (Option (List Byte × Nat)) :=
  if name = [] then pure none
  else
    let sep := if 1 < len then [slash] else []
    if cap < len + sep.length + name.length + 1 then pure none
    else do
      let buf ← putBytes buf len sep
      let buf ← putBytes buf (len + sep.length) name
      let buf ← putBytes buf (len + sep.length + name.length) [0#8]
      pure (some (buf, len + sep.length + name.length))

def normalizeInBufferFrom (cap : Nat) : Nat → List Byte → Nat → CString →
    InBuffer (Option (List Byte))
  | 0, buf, _, _ => pure (some buf)
  | fuel + 1, buf, len, p =>
    if p = [] then pure (some buf)
    else
      let start := p.dropWhile (· = slash)
      let part := start.takeWhile (· ≠ slash)
      let rest := start.dropWhile (· ≠ slash)
      if part = [] then pure (some buf)
      else if part = [dot] then normalizeInBufferFrom cap fuel buf len rest
      else if part = [dot, dot] then do
        let (buf, len) ← popInBuffer buf len
        normalizeInBufferFrom cap fuel buf len rest
      else do
        match ← pushInBuffer cap buf len part with
        | none => pure none
        | some (buf, len) => normalizeInBufferFrom cap fuel buf len rest

/-- `normalize_absolute_path(input, out, out_size)`; the result is the buffer after a return of 0. -/
def normalizeInBuffer (cap : Nat) (buf : List Byte) (input : CString) :
    InBuffer (Option (List Byte)) :=
  if cap < 2 ∨ input.head? ≠ some slash then pure none
  else do
    let buf ← putBytes buf 0 [slash]
    let buf ← putBytes buf 1 [0#8]
    normalizeInBufferFrom cap input.length buf 1 input

/-! ## The buffer follows the string -/

/-- The buffer has `cap` bytes and holds the string with its terminator. -/
structure Holds (cap : Nat) (buf : List Byte) (out : CString) : Prop where
  size : buf.length = cap
  begins : out ++ [0#8] <+: buf

theorem putBytes_ok {buf : List Byte} {out bytes : List Byte} {k : Nat} (begins : out <+: buf)
    (inside : k ≤ out.length) (fits : k + bytes.length ≤ buf.length) :
    ∃ buf', putBytes buf k bytes = .ok buf' ∧ buf'.length = buf.length ∧
      out.take k ++ bytes <+: buf' := by
  refine ⟨_, if_pos fits, ?_, ?_⟩
  · simp
    omega
  · have same : buf.take k = out.take k := by
      obtain ⟨rest, rfl⟩ := begins
      rw [List.take_append_of_le_length inside]
    rw [same, ← List.append_assoc]
    exact List.prefix_append _ _

theorem Holds.string {cap : Nat} {buf : List Byte} {out : CString} (holds : Holds cap buf out)
    (clean : 0#8 ∉ out) : cstr buf = out ∧ Terminated buf := by
  obtain ⟨rest, whole⟩ := holds.begins
  rw [List.append_assoc] at whole
  rw [← whole]
  exact ⟨cstr_append clean rest, by simp [Terminated]⟩

theorem Holds.start {cap : Nat} {buf : List Byte} {out : CString} (holds : Holds cap buf out) :
    out <+: buf := (List.prefix_append out [0#8]).trans holds.begins

theorem Holds.room {cap : Nat} {buf : List Byte} {out : CString} (holds : Holds cap buf out) :
    out.length < cap := by
  have := holds.begins.length_le
  rw [List.length_append, holds.size] at this
  exact this

theorem getByte_eq {buf out : List Byte} (begins : out <+: buf) {k : Nat} {b : Byte}
    (here : out[k]? = some b) : getByte buf k = .ok b := by
  obtain ⟨rest, rfl⟩ := begins
  have inside : k < out.length := by
    by_contra past
    rw [List.getElem?_eq_none (by omega)] at here
    cases here
  rw [getByte, List.getElem?_append_left inside, here]

theorem backInBuffer_eq {buf out : List Byte} (begins : out <+: buf) :
    ∀ len ≤ out.length, backInBuffer buf len = .ok (backToSlash out len)
  | 0, _ => rfl
  | 1, _ => rfl
  | len + 2, inside => by
    have here := List.getElem?_eq_getElem (show len + 1 < out.length by omega)
    rw [backInBuffer, backToSlash, getByte_eq begins here, here]
    change (if out[len + 1] = slash then pure (len + 2) else backInBuffer buf (len + 1)) = _
    by_cases last : out[len + 1] = slash
    · rw [if_pos last, if_pos (by rw [last])]
      rfl
    · rw [if_neg last, if_neg (by simpa using last)]
      exact backInBuffer_eq begins (len + 1) (by omega)

theorem backToSlash_le (out : CString) : ∀ len, backToSlash out len ≤ len
  | 0 => le_refl _
  | 1 => le_refl _
  | len + 2 => by
    rw [backToSlash]
    split
    · exact le_refl _
    · exact (backToSlash_le out (len + 1)).trans (by omega)

theorem popInBuffer_eq {cap : Nat} {buf : List Byte} {out : CString} (holds : Holds cap buf out) :
    ∃ buf', popInBuffer buf out.length = .ok (buf', (pathPop out).length) ∧
      Holds cap buf' (pathPop out) := by
  unfold popInBuffer pathPop
  by_cases root : out.length ≤ 1
  · rw [if_pos root, if_pos root]
    exact ⟨buf, rfl, holds⟩
  · rw [if_neg root, if_neg root, backInBuffer_eq holds.start _ (le_refl _)]
    have le := backToSlash_le out out.length
    dsimp only
    generalize backToSlash out out.length = back at le
    have short : (if 1 < back then back - 1 else back) ≤ out.length := by
      split <;> omega
    have room := holds.room
    obtain ⟨buf', put, size, begins⟩ := @putBytes_ok buf out [0#8] _ holds.start short
      (by rw [holds.size]; simp; omega)
    refine ⟨buf', ?_, size.trans holds.size, begins⟩
    rw [List.length_take, Nat.min_eq_left short]
    change (do
      let buf ← putBytes buf (if 1 < back then back - 1 else back) [0#8]
      pure (buf, if 1 < back then back - 1 else back)) = _
    rw [put]
    rfl

theorem pushInBuffer_eq {cap : Nat} {buf : List Byte} {out : CString} (holds : Holds cap buf out)
    (name : CString) :
    (pathPush cap out name = none ∧ pushInBuffer cap buf out.length name = .ok none) ∨
      ∃ pushed buf', pathPush cap out name = some pushed ∧
        pushInBuffer cap buf out.length name = .ok (some (buf', pushed.length)) ∧
        Holds cap buf' pushed := by
  unfold pathPush pushInBuffer
  by_cases empty : name = []
  · rw [if_pos empty, if_pos empty]
    exact .inl ⟨rfl, rfl⟩
  rw [if_neg empty, if_neg empty]
  dsimp only
  generalize (if 1 < out.length then [slash] else []) = sep
  by_cases full : cap < out.length + sep.length + name.length + 1
  · rw [if_pos full, if_pos full]
    exact .inl ⟨rfl, rfl⟩
  rw [if_neg full, if_neg full]
  have size := holds.size
  -- the three writes, each at the end of what is there
  obtain ⟨buf₁, put₁, size₁, begins₁⟩ := @putBytes_ok buf out sep out.length holds.start (le_refl _)
    (by omega)
  rw [List.take_length] at begins₁
  have length₁ : (out ++ sep).length = out.length + sep.length := List.length_append
  obtain ⟨buf₂, put₂, size₂, begins₂⟩ := @putBytes_ok buf₁ (out ++ sep) name _ begins₁ (le_refl _)
    (by omega)
  rw [List.take_length] at begins₂
  have length₂ : (out ++ sep ++ name).length = out.length + sep.length + name.length := by
    rw [List.length_append, length₁]
  obtain ⟨buf₃, put₃, size₃, begins₃⟩ := @putBytes_ok buf₂ (out ++ sep ++ name) [0#8] _ begins₂
    (le_refl _) (by simp only [List.length_singleton]; omega)
  rw [List.take_length] at begins₃
  refine .inr ⟨_, buf₃, rfl, ?_, ⟨by omega, begins₃⟩⟩
  rw [length₁] at put₂
  rw [length₂] at put₃
  rw [put₁, length₂]
  change (do
    let buf ← putBytes buf₁ (out.length + sep.length) name
    let buf ← putBytes buf (out.length + sep.length + name.length) [0#8]
    pure (some (buf, out.length + sep.length + name.length))) = _
  rw [put₂]
  change (do
    let buf ← putBytes buf₂ (out.length + sep.length + name.length) [0#8]
    pure (some (buf, out.length + sep.length + name.length))) = _
  rw [put₃]
  rfl

/-- The model with the buffer ends as the one on strings does. -/
def Outcome (cap : Nat) (result : InBuffer (Option (List Byte))) : Option CString → Prop
  | none => result = .ok none
  | some out => ∃ buf, result = .ok (some buf) ∧ Holds cap buf out

theorem normalizeInBufferFrom_eq {cap : Nat} : ∀ {fuel : Nat} {buf : List Byte} {out p : CString},
    Holds cap buf out →
    Outcome cap (normalizeInBufferFrom cap fuel buf out.length p) (normalizeFrom cap fuel out p) := by
  intro fuel
  induction fuel with
  | zero => exact fun holds => ⟨_, rfl, holds⟩
  | succ fuel ih =>
    intro buf out p holds
    rw [normalizeInBufferFrom, normalizeFrom]
    dsimp only
    generalize (p.dropWhile (· = slash)).takeWhile (· ≠ slash) = part
    generalize (p.dropWhile (· = slash)).dropWhile (· ≠ slash) = rest
    by_cases nothing : p = []
    · rw [if_pos nothing, if_pos nothing]
      exact ⟨_, rfl, holds⟩
    rw [if_neg nothing, if_neg nothing]
    by_cases empty : part = []
    · rw [if_pos empty, if_pos empty]
      exact ⟨_, rfl, holds⟩
    rw [if_neg empty, if_neg empty]
    by_cases isDot : part = [dot]
    · rw [if_pos isDot, if_pos isDot]
      exact ih holds
    rw [if_neg isDot, if_neg isDot]
    by_cases isDotDot : part = [dot, dot]
    · obtain ⟨buf', popped, after⟩ := popInBuffer_eq holds
      rw [if_pos isDotDot, if_pos isDotDot, popped]
      exact ih after
    rw [if_neg isDotDot, if_neg isDotDot]
    rcases pushInBuffer_eq holds part with ⟨failed, same⟩ | ⟨pushed, buf', done, same, after⟩
    · rw [failed, same]
      rfl
    · rw [done, same]
      exact ih after

theorem normalizeInBuffer_eq {cap : Nat} {buf : List Byte} (size : buf.length = cap)
    (input : CString) :
    Outcome cap (normalizeInBuffer cap buf input) (normalizeAbsolutePath cap input) := by
  unfold normalizeInBuffer normalizeAbsolutePath
  by_cases refused : cap < 2 ∨ input.head? ≠ some slash
  · rw [if_pos refused, if_pos refused]
    rfl
  rw [if_neg refused, if_neg refused]
  have room : 2 ≤ cap := by
    by_contra small
    exact refused (.inl (by omega))
  obtain ⟨buf₁, put₁, size₁, begins₁⟩ := @putBytes_ok buf [] [slash] 0 (List.nil_prefix) (le_refl _)
    (by simp only [List.length_singleton]; omega)
  obtain ⟨buf₂, put₂, size₂, begins₂⟩ := @putBytes_ok buf₁ [slash] [0#8] 1 begins₁ (le_refl _)
    (by simp only [List.length_singleton]; omega)
  rw [put₁]
  change Outcome cap (do
    let buf ← putBytes buf₁ 1 [0#8]
    normalizeInBufferFrom cap input.length buf 1 input) _
  rw [put₂]
  exact normalizeInBufferFrom_eq ⟨by omega, begins₂⟩

/-- Normalisation into a buffer of `cap` bytes, of any contents. No write leaves the buffer. It does
not fail when the input fits. The output spells the stack of the input's names, which is canonical
and no longer than the input, and is its own normal form. -/
theorem normalize_in_buffer {cap : Nat} (room : 2 ≤ cap) {input : CString} (clean : 0#8 ∉ input)
    (absolute : input.head? = some slash) {buf : List Byte} (size : buf.length = cap) :
    ∃ outcome, normalizeInBuffer cap buf input = .ok outcome ∧
      (input.length < cap → outcome.isSome = true) ∧
      ∀ out, outcome = some out →
        out.length = cap ∧ Terminated out ∧ cstr out = render (stackOf (components input)) ∧
        (∀ c ∈ stackOf (components input), Component c) ∧
        (cstr out).length ≤ input.length ∧
        ∀ buf' : List Byte, buf'.length = cap →
          ∃ again, normalizeInBuffer cap buf' (cstr out) = .ok (some again) ∧
            cstr again = cstr out := by
  obtain ⟨run, ok, light⟩ := normalizeAbsolutePath_eq room absolute clean
  have follows := normalizeInBuffer_eq size input
  have noNul := render_noNul ok
  rcases run with done | ⟨failed, full⟩
  · rw [done] at follows
    obtain ⟨out, result, holds⟩ := follows
    obtain ⟨string, terminated⟩ := holds.string noNul
    refine ⟨some out, result, fun _ => rfl, ?_⟩
    rintro _ ⟨⟩
    have shorter : (render (stackOf (components input))).length ≤ input.length := by
      have := List.length_pos_iff.mpr (show input ≠ [] by rintro rfl; cases absolute)
      rw [length_render]
      split <;> omega
    refine ⟨holds.size, terminated, string, ok, by rw [string]; exact shorter, ?_⟩
    intro buf' size'
    rw [string]
    obtain ⟨again, _, _⟩ := normalizeAbsolutePath_eq room (render_head _) noNul
    rw [components_render ok, stackOf_names ok] at again
    have fits := holds.room
    have same := again.resolve_right fun no => absurd no.2 (by omega)
    have second := normalizeInBuffer_eq size' (render (stackOf (components input)))
    rw [same] at second
    obtain ⟨out', result', holds'⟩ := second
    exact ⟨out', result', (holds'.string noNul).1⟩
  · rw [failed] at follows
    exact ⟨none, follows, fun fits => absurd full (by omega), fun _ => nofun⟩

/-- `/a//./b/../c` in a buffer of 16 bytes. -/
theorem normalize_in_buffer_small :
    ∃ outcome, normalizeInBuffer 16 (List.replicate 16 0xFF#8)
        (asciiBytes ['/', 'a', '/', '/', '.', '/', 'b', '/', '.', '.', '/', 'c']) = .ok outcome ∧
      outcome.isSome = true :=
  have normal := @normalize_in_buffer 16 (by decide)
    (asciiBytes ['/', 'a', '/', '/', '.', '/', 'b', '/', '.', '.', '/', 'c']) (by decide) (by decide)
    (List.replicate 16 0xFF#8) (by decide)
  let ⟨outcome, run, some_, _⟩ := normal
  ⟨outcome, run, some_ (by decide)⟩

end LithiumKernel.Fs
