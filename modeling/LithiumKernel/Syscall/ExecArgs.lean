import LithiumKernel.Proc.Elf
import LithiumKernel.Syscall.UserCopy

/-!
# The arguments of a new program (kernel/syscall/syscall.c, user/lib/crt0.asm)

`execve` collects the strings of `argv` and `envp` from the memory of the caller and builds
the last page of the new program's stack from them: strings from the top down, below them the
two arrays of pointers, and at the bottom the count. The start code of the program finds
them there. The stack page is a byte memory of 4096 addresses; the program sees it at
`stackBase`.
-/
namespace LithiumKernel.Syscall

open LithiumKernel.Lib LithiumKernel.Lib.ByteMem LithiumKernel.Mm LithiumKernel.Proc

def execMaxArgs : Nat := 16
def execStrMax : Nat := 128

/-! ## Collecting the strings -/

/-- The loop of `collect_exec_vector`, with the rounds that are left and the index. -/
def collectExecFrom (mem : PhysMem) (root : Nat) (vec : Word) :
    Nat → Nat → Except Errno (List CString)
  | 0, _ => .error .e2big
  | left + 1, i =>
    match copyFromUser mem root (vec + BitVec.ofNat 64 (i * 8)) 8 with
    | none => .error .efault
    | some bytes =>
      let userStr := littleEndianValue bytes
      if userStr = 0 then .ok []
      else
        match copyUserString mem root (BitVec.ofNat 64 userStr) execStrMax with
        | .error .einval => .error .e2big
        | .error e => .error e
        | .ok s => (collectExecFrom mem root vec left (i + 1)).map (s :: ·)

def collectExecVector (mem : PhysMem) (root : Nat) (vec : Word) : Except Errno (List CString) :=
  if vec = 0#64 then .ok [] else collectExecFrom mem root vec execMaxArgs 0

/-! ## Building the stack -/

/-- `args->stack` and `sp`. -/
structure ExecStack where
  bytes : ByteMem
  sp : Nat

/-- The address of the page in the new program. -/
def stackBase : Nat := (userStackTop - pageSize).toNat

/-- The page after `memset`. -/
def blankStack : ExecStack := ⟨fill (fun _ => none) 0 4096 0#8, 4096⟩

def pushExecQword (st : ExecStack) (value : Nat) : Except Errno ExecStack :=
  if st.sp < 8 then .error .e2big
  else .ok ⟨put st.bytes 8 (st.sp - 8) value, st.sp - 8⟩

/-- The string with its terminator goes below what is there; its user address is returned. -/
def placeExecString (st : ExecStack) (s : CString) : Except Errno (ExecStack × Nat) :=
  let len := s.length + 1
  if st.sp < len then .error .e2big
  else .ok (⟨write st.bytes (st.sp - len) (s ++ [0#8]), st.sp - len⟩, stackBase + (st.sp - len))

/-- The loops over `argv` and `envp`, with the pointers they collect. -/
def placeExecStrings (st : ExecStack) : List CString → Except Errno (ExecStack × List Nat)
  | [] => .ok (st, [])
  | s :: strs => do
    let (st, p) ← placeExecString st s
    let (st, ps) ← placeExecStrings st strs
    pure (st, p :: ps)

/-- `sp` is rounded down, and moved once more if the pointers would end up off by 8. -/
def alignExecStack (st : ExecStack) (pointerBytes : Nat) : Except Errno ExecStack :=
  let sp := st.sp / 16 * 16
  if sp < pointerBytes then .error .e2big
  else if (sp - pointerBytes) % 16 ≠ 0 then
    if sp < 8 then .error .e2big else .ok { st with sp := sp - 8 }
  else .ok { st with sp := sp }

def pushExecPointers (st : ExecStack) (argvPtrs envpPtrs : List Nat) : Except Errno ExecStack := do
  let st ← pushExecQword st 0
  let st ← envpPtrs.reverse.foldlM pushExecQword st
  let st ← pushExecQword st 0
  let st ← argvPtrs.reverse.foldlM pushExecQword st
  pushExecQword st argvPtrs.length

/-- The page and the initial stack pointer. -/
def buildExecStack (argv envp : List CString) : Except Errno (ByteMem × Word) :=
  if execMaxArgs < argv.length ∨ execMaxArgs < envp.length then .error .einval
  else do
    let (st, argvPtrs) ← placeExecStrings blankStack argv
    let (st, envpPtrs) ← placeExecStrings st envp
    let st ← alignExecStack st ((1 + argv.length + 1 + envp.length + 1) * 8)
    let st ← pushExecPointers st argvPtrs envpPtrs
    pure (st.bytes, userStackTop - pageSize + BitVec.ofNat 64 st.sp)

/-! ## The start code -/

/-- What `_start` passes to `main`. -/
structure MainArgs where
  argc : Word
  argv : Word
  envp : Word

/-- `mov rdi, [rsp]`, `lea rsi, [rsp + 8]`, `lea rdx, [rsi + rdi * 8 + 8]`. -/
def crt0Start (m : ByteMem) (rsp : Word) : Option MainArgs :=
  (load m 8 rsp.toNat).map fun x =>
    let rdi := BitVec.ofNat 64 x
    let rsi := rsp + 8#64
    ⟨rdi, rsi, rsi + rdi * 8#64 + 8#64⟩

/-! ## What is collected -/

/-- The vector a caller passes: none at all, or an array in its memory. -/
def CallerStrings (mem : PhysMem) (root : Nat) (vec : Word) (strs : List CString) : Prop :=
  if vec = 0#64 then strs = [] else Strings (userBytes mem root) vec.toNat strs

section Collect

variable {mem : PhysMem} {root : Nat} {vec : Word} {strs : List CString}

theorem collectExecFrom_strings {left i : Nat} (fits : vec.toNat + i * 8 < 2 ^ 64)
    (collected : collectExecFrom mem root vec left i = .ok strs) :
    Strings (userBytes mem root) (vec.toNat + i * 8) strs ∧ strs.length < left := by
  induction left generalizing i strs with
  | zero => cases collected
  | succ left ih =>
    have address : (vec + BitVec.ofNat 64 (i * 8)).toNat = vec.toNat + i * 8 := by
      rw [BitVec.toNat_add, BitVec.toNat_ofNat]
      omega
    unfold collectExecFrom at collected
    split at collected
    · cases collected
    rename_i bytes word
    obtain ⟨length, below, stands⟩ := copyFromUser_bytes (by decide) word
    have slot := stands.field
    rw [length, address] at slot
    rw [address] at below
    dsimp only at collected
    split at collected
    · rename_i null
      obtain rfl := Except.ok.inj collected
      rw [null] at slot
      exact ⟨⟨[], slot, .nil⟩, Nat.succ_pos left⟩
    rename_i pointer
    split at collected
    · cases collected
    · cases collected
    rename_i s copied
    cases rest : collectExecFrom mem root vec left (i + 1) with
    | error e =>
      rw [rest] at collected
      cases collected
    | ok tail =>
      rw [rest] at collected
      obtain rfl := Except.ok.inj collected
      obtain ⟨⟨ps, pointers, texts⟩, short⟩ := ih (by omega) rest
      have text := (copyUserString_text copied).1
      have small : littleEndianValue bytes < 2 ^ 64 := slot.lt
      rw [BitVec.toNat_ofNat, Nat.mod_eq_of_lt small] at text
      rw [Nat.succ_mul, ← Nat.add_assoc] at pointers
      exact ⟨⟨_ :: ps, ⟨slot, pointer, pointers⟩, .cons text texts⟩, Nat.succ_lt_succ short⟩

/-- What `collect_exec_vector` returns is the vector of the caller, of at most 15 strings. -/
theorem collectExecVector_strings (collected : collectExecVector mem root vec = .ok strs) :
    CallerStrings mem root vec strs ∧ strs.length < execMaxArgs := by
  unfold collectExecVector at collected
  unfold CallerStrings
  split at collected
  · obtain rfl := Except.ok.inj collected
    rename_i null
    rw [if_pos null]
    exact ⟨rfl, by decide⟩
  · rename_i real
    rw [if_neg real]
    exact collectExecFrom_strings (i := 0) vec.isLt collected

theorem CallerStrings.unique {xs ys : List CString} (hx : CallerStrings mem root vec xs)
    (hy : CallerStrings mem root vec ys) : xs = ys := by
  unfold CallerStrings at hx hy
  split at hx
  · rename_i null
    rw [if_pos null] at hy
    rw [hx, hy]
  · rename_i real
    rw [if_neg real] at hy
    exact hx.unique hy

theorem CallerStrings.clean (h : CallerStrings mem root vec strs) : ∀ s ∈ strs, 0#8 ∉ s := by
  unfold CallerStrings at h
  split at h
  · rw [h]
    exact fun s member => absurd member List.not_mem_nil
  · exact h.clean

end Collect

/-! ## What is built -/

/-- The bytes the strings take on the stack. -/
def textSize (strs : List CString) : Nat := (strs.map fun s => s.length + 1).sum

theorem textSize_cons (s : CString) (strs : List CString) :
    textSize (s :: strs) = s.length + 1 + textSize strs := rfl

/-- The strings have been placed, and what was above them is untouched. -/
structure StringsPlaced (st : ExecStack) (strs : List CString) (st' : ExecStack) (ps : List Nat) :
    Prop where
  sp : st'.sp + textSize strs = st.sp
  above : Above st.bytes st'.bytes st.sp
  texts : List.Forall₂ (Text (st'.bytes.shift stackBase)) ps strs
  bounds : ∀ p ∈ ps, stackBase + st'.sp ≤ p ∧ p < stackBase + st.sp

variable {st st' : ExecStack}

/-- Strings stay where they are when the stack grows below them. -/
theorem texts_above {ps : List Nat} {strs : List CString} {sp : Nat}
    (texts : List.Forall₂ (Text (st.bytes.shift stackBase)) ps strs)
    (high : ∀ p ∈ ps, stackBase + sp ≤ p) (same : Above st.bytes st'.bytes sp) :
    List.Forall₂ (Text (st'.bytes.shift stackBase)) ps strs := by
  have moved := same.shift stackBase
  induction texts with
  | nil => exact .nil
  | cons text _ ih =>
    refine .cons ((moved.mono (high _ List.mem_cons_self)).text text) ?_
    exact ih fun p member => high p (List.mem_cons_of_mem _ member)

theorem placeExecString_placed (st : ExecStack) {s : CString} (clean : 0#8 ∉ s)
    (fits : s.length + 1 ≤ st.sp) :
    ∃ st' p, placeExecString st s = .ok (st', p) ∧ StringsPlaced st [s] st' [p] := by
  refine ⟨_, _, if_neg (by omega), ?_, ?_, ?_, ?_⟩
  · change st.sp - (s.length + 1) + (s.length + 1 + 0) = st.sp
    omega
  · have kept := @write_above st.bytes (st.sp - (s.length + 1)) (s ++ [0#8])
    rwa [List.length_append, List.length_singleton, Nat.sub_add_cancel fits] at kept
  · exact .cons ((write_text clean).shift stackBase) .nil
  · intro p member
    obtain rfl := List.mem_singleton.mp member
    exact ⟨Nat.le_refl _, by omega⟩

theorem placeExecStrings_placed (st : ExecStack) {strs : List CString}
    (clean : ∀ s ∈ strs, 0#8 ∉ s) (fits : textSize strs ≤ st.sp) :
    ∃ st' ps, placeExecStrings st strs = .ok (st', ps) ∧ StringsPlaced st strs st' ps := by
  induction strs generalizing st with
  | nil =>
    exact ⟨st, [], rfl, rfl, fun _ _ => rfl, .nil, fun p member => absurd member List.not_mem_nil⟩
  | cons s strs ih =>
    rw [textSize_cons] at fits
    obtain ⟨st₁, p, first, one⟩ :=
      placeExecString_placed st (clean s List.mem_cons_self) (by omega)
    have moved : st₁.sp + (s.length + 1 + 0) = st.sp := one.sp
    obtain ⟨st₂, ps, second, rest⟩ :=
      ih st₁ (fun t member => clean t (List.mem_cons_of_mem s member)) (by omega)
    have low := rest.sp
    refine ⟨st₂, p :: ps, ?_, ?_, ?_, ?_, ?_⟩
    · rw [placeExecStrings, first]
      change (placeExecStrings st₁ strs >>= _) = _
      rw [second]
      rfl
    · rw [textSize_cons]
      omega
    · exact one.above.trans (rest.above.mono (by omega))
    · have kept := texts_above one.texts (fun q member => (one.bounds q member).1) rest.above
      exact .cons (List.forall₂_cons.mp kept).1 rest.texts
    · intro q member
      rcases List.mem_cons.mp member with rfl | later
      · have here := one.bounds q List.mem_cons_self
        omega
      · have here := rest.bounds q later
        omega

/-- Without room for all strings the loop fails. -/
theorem placeExecStrings_full (st : ExecStack) {strs : List CString}
    (full : st.sp < textSize strs) :
    placeExecStrings st strs = .error .e2big := by
  induction strs generalizing st with
  | nil => exact absurd full (Nat.not_lt_zero _)
  | cons s strs ih =>
    rw [textSize_cons] at full
    rw [placeExecStrings]
    by_cases fits : st.sp < s.length + 1
    · rw [placeExecString, if_pos fits]
      rfl
    · rw [placeExecString, if_neg fits]
      change (placeExecStrings _ strs >>= _) = _
      rw [ih _ (by change st.sp - (s.length + 1) < _; omega)]
      rfl

/-- Words pushed one after the other stand in memory in the reverse order. -/
theorem pushes_words (st : ExecStack) {values : List Nat}
    (fits : 8 * values.length ≤ st.sp) (small : ∀ x ∈ values, x < 2 ^ 64) :
    ∃ st', values.foldlM pushExecQword st = .ok st' ∧ st'.sp + 8 * values.length = st.sp ∧
      Above st.bytes st'.bytes st.sp ∧ Words st'.bytes st'.sp values.reverse := by
  induction values generalizing st with
  | nil => exact ⟨st, rfl, rfl, fun _ _ => rfl, trivial⟩
  | cons x xs ih =>
    rw [List.length_cons] at fits
    have pushed : pushExecQword st x = .ok ⟨put st.bytes 8 (st.sp - 8) x, st.sp - 8⟩ :=
      if_neg (by omega)
    obtain ⟨st', ran, moved, same, words⟩ :=
      ih ⟨put st.bytes 8 (st.sp - 8) x, st.sp - 8⟩ (by change _ ≤ st.sp - 8; omega)
        fun y member => small y (List.mem_cons_of_mem x member)
    change st'.sp + 8 * xs.length = st.sp - 8 at moved
    have last : Words st'.bytes (st.sp - 8) [x] :=
      same.words ⟨put_field (small x List.mem_cons_self), trivial⟩
    have kept := put_above (m := st.bytes) (n := 8) (a := st.sp - 8) (x := x)
    rw [Nat.sub_add_cancel (by omega)] at kept
    refine ⟨st', ?_, ?_, ?_, ?_⟩
    · rw [List.foldlM_cons, pushed]
      exact ran
    · rw [List.length_cons]
      omega
    · exact kept.trans (same.mono (Nat.sub_le _ _))
    · rw [List.reverse_cons]
      refine words.append ?_
      rwa [List.length_reverse, moved]

theorem pushExecPointers_eq (argvPtrs envpPtrs : List Nat) :
    pushExecPointers st argvPtrs envpPtrs =
      ([0] ++ envpPtrs.reverse ++ [0] ++ argvPtrs.reverse ++ [argvPtrs.length]).foldlM
        pushExecQword st := by
  simp [pushExecPointers, List.foldlM_append]

/-- `alignExecStack` succeeds exactly if the pointers fit, and leaves them ending on 16. -/
theorem alignExecStack_ok (st : ExecStack) (words : Nat) (fits : 8 * words ≤ st.sp / 16 * 16) :
    ∃ sp, alignExecStack st (words * 8) = .ok { st with sp := sp } ∧ 8 * words ≤ sp ∧
      sp ≤ st.sp ∧ (sp - 8 * words) % 16 = 0 := by
  unfold alignExecStack
  dsimp only
  rw [if_neg (by omega)]
  split
  · refine ⟨st.sp / 16 * 16 - 8, if_neg (by omega), ?_, ?_, ?_⟩ <;> omega
  · refine ⟨st.sp / 16 * 16, rfl, ?_, ?_, ?_⟩ <;> omega

/-- The finished page, seen at its user address: the count, both arrays of pointers with
their null pointers, and the strings they lead to, all above the arrays. -/
structure Built (argv envp : List CString) (page : ByteMem) (rsp : Nat) : Prop where
  aligned : rsp % 16 = 0
  inside : stackBase ≤ rsp ∧ rsp < stackBase + 4096
  stands : ∃ ps qs, Words page rsp ([argv.length] ++ (ps ++ [0]) ++ (qs ++ [0])) ∧
    List.Forall₂ (Text page) ps argv ∧ List.Forall₂ (Text page) qs envp ∧
    ∀ p ∈ ps ++ qs, rsp + 8 * (argv.length + envp.length + 3) ≤ p

/-- The pointers fit below the strings. -/
def PointersFit (argv envp : List CString) : Prop :=
  8 * (argv.length + envp.length + 3) ≤ (4096 - (textSize argv + textSize envp)) / 16 * 16

section Build

variable {argv envp : List CString}

theorem buildExecStack_built (few : argv.length ≤ execMaxArgs ∧ envp.length ≤ execMaxArgs)
    (clean : (∀ s ∈ argv, 0#8 ∉ s) ∧ ∀ s ∈ envp, 0#8 ∉ s) (fit : PointersFit argv envp) :
    ∃ stack rsp, buildExecStack argv envp = .ok (stack, rsp) ∧
      Built argv envp (stack.shift stackBase) rsp.toNat := by
  have base : stackBase = 0x400FF000 := rfl
  unfold PointersFit at fit
  obtain ⟨st₁, ps, first, args⟩ := placeExecStrings_placed blankStack clean.1
    (by change _ ≤ 4096; omega)
  have top : st₁.sp + textSize argv = 4096 := args.sp
  obtain ⟨st₂, qs, second, envs⟩ := placeExecStrings_placed st₁ clean.2 (by omega)
  have next := envs.sp
  obtain ⟨sp, aligned, room, low, even⟩ :=
    alignExecStack_ok st₂ (1 + argv.length + 1 + envp.length + 1)
      (by rw [show st₂.sp = 4096 - (textSize argv + textSize envp) by omega]; omega)
  -- the words as they are pushed
  have lengths : ps.length = argv.length ∧ qs.length = envp.length :=
    ⟨args.texts.length_eq, envs.texts.length_eq⟩
  have range : ∀ p ∈ ps ++ qs, stackBase + st₂.sp ≤ p ∧ p < stackBase + 4096 := by
    intro p member
    rcases List.mem_append.mp member with arg | env
    · have := args.bounds p arg
      change _ ∧ p < stackBase + 4096 at this
      omega
    · have := envs.bounds p env
      omega
  obtain ⟨values, list⟩ : ∃ values,
    values = [0] ++ qs.reverse ++ [0] ++ ps.reverse ++ [ps.length] := ⟨_, rfl⟩
  have count : values.length = 1 + argv.length + 1 + envp.length + 1 := by
    simp only [list, List.length_append, List.length_reverse, List.length_singleton, lengths]
    omega
  have small : ∀ x ∈ values, x < 2 ^ 64 := by
    intro x member
    simp only [list, List.mem_append, List.mem_reverse, List.mem_singleton] at member
    have few₁ : argv.length ≤ 16 := few.1
    rcases member with (((rfl | env) | rfl) | arg) | rfl
    · decide
    · have := range x (List.mem_append_right ps env)
      omega
    · decide
    · have := range x (List.mem_append_left qs arg)
      omega
    · omega
  obtain ⟨st₄, pushed, moved, same, words⟩ :=
    pushes_words { st₂ with sp := sp } (by rw [count]; exact room) small
  change st₄.sp + _ = sp at moved
  rw [count] at moved
  have rsp : (userStackTop - pageSize + BitVec.ofNat 64 st₄.sp).toNat = stackBase + st₄.sp := by
    rw [BitVec.toNat_add, BitVec.toNat_ofNat]
    change (stackBase + _) % _ = _
    omega
  refine ⟨st₄.bytes, userStackTop - pageSize + BitVec.ofNat 64 st₄.sp, ?_, ?_⟩
  · have many : ¬ (execMaxArgs < argv.length ∨ execMaxArgs < envp.length) := by omega
    rw [list, ← pushExecPointers_eq] at pushed
    rw [buildExecStack, if_neg many, first]
    change (placeExecStrings st₁ envp >>= _) = _
    rw [second]
    change (alignExecStack st₂ _ >>= _) = _
    rw [aligned]
    change (pushExecPointers _ ps qs >>= _) = _
    rw [pushed]
    rfl
  · rw [rsp]
    have kept : Above st₂.bytes st₄.bytes st₂.sp := same.mono low
    refine ⟨by omega, by omega, ps, qs, ?_, ?_, ?_, ?_⟩
    · have reversed : values.reverse = [argv.length] ++ (ps ++ [0]) ++ (qs ++ [0]) := by
        simp [list, lengths]
      rw [← reversed]
      exact words.shift stackBase
    · have placed := texts_above args.texts (fun p member => (args.bounds p member).1) envs.above
      exact texts_above placed
        (fun p member => (range p (List.mem_append_left qs member)).1) kept
    · exact texts_above envs.texts
        (fun p member => (range p (List.mem_append_right ps member)).1) kept
    · intro p member
      have := range p member
      omega

/-- Otherwise some check of `build_exec_stack` fails. -/
theorem buildExecStack_refused (clean : (∀ s ∈ argv, 0#8 ∉ s) ∧ ∀ s ∈ envp, 0#8 ∉ s)
    (unfit : ¬ PointersFit argv envp) : ∃ e, buildExecStack argv envp = .error e := by
  unfold PointersFit at unfit
  unfold buildExecStack
  by_cases many : execMaxArgs < argv.length ∨ execMaxArgs < envp.length
  · exact ⟨_, if_pos many⟩
  rw [if_neg many]
  by_cases fits₁ : textSize argv ≤ 4096
  · obtain ⟨st₁, ps, first, args⟩ := placeExecStrings_placed blankStack clean.1 fits₁
    have top : st₁.sp + textSize argv = 4096 := args.sp
    rw [first]
    change ∃ e, (placeExecStrings st₁ envp >>= _) = _
    by_cases fits₂ : textSize envp ≤ st₁.sp
    · obtain ⟨st₂, qs, second, envs⟩ := placeExecStrings_placed st₁ clean.2 fits₂
      have next := envs.sp
      rw [second]
      change ∃ e, (alignExecStack st₂ _ >>= _) = _
      have short : st₂.sp / 16 * 16 < (1 + argv.length + 1 + envp.length + 1) * 8 := by
        rw [show st₂.sp = 4096 - (textSize argv + textSize envp) by omega]
        omega
      rw [alignExecStack, if_pos short]
      exact ⟨_, rfl⟩
    · rw [placeExecStrings_full _ (by omega)]
      exact ⟨_, rfl⟩
  · rw [placeExecStrings_full blankStack (by change 4096 < _; omega)]
    exact ⟨_, rfl⟩

theorem buildExecStack_iff (few : argv.length ≤ execMaxArgs ∧ envp.length ≤ execMaxArgs)
    (clean : (∀ s ∈ argv, 0#8 ∉ s) ∧ ∀ s ∈ envp, 0#8 ∉ s) :
    (∃ built, buildExecStack argv envp = .ok built) ↔ PointersFit argv envp := by
  constructor
  · rintro ⟨built, ran⟩
    by_contra unfit
    obtain ⟨e, failed⟩ := buildExecStack_refused clean unfit
    rw [ran] at failed
    cases failed
  · intro fit
    obtain ⟨stack, rsp, ran, _⟩ := buildExecStack_built few clean fit
    exact ⟨_, ran⟩

end Build

/-! ## What the start code reads -/

/-- The start code finds the count and both vectors. -/
theorem Built.start {argv envp : List CString} {page : ByteMem} {rsp : Word}
    (built : Built argv envp page rsp.toNat) (few : argv.length ≤ execMaxArgs) :
    ∃ main, crt0Start page rsp = some main ∧ main.argc.toNat = argv.length ∧
      Strings page main.argv.toNat argv ∧ Strings page main.envp.toNat envp ∧
      ∀ ps, Pointers page main.argv.toNat ps ∨ Pointers page main.envp.toNat ps →
        ∀ p ∈ ps, rsp.toNat + 8 * (argv.length + envp.length + 3) ≤ p := by
  have base : stackBase = 0x400FF000 := rfl
  have few₁ : argv.length ≤ 16 := few
  have inside := built.inside
  obtain ⟨ps, qs, words, args, envs, above⟩ := built.stands
  have length := args.length_eq
  have real : ∀ p ∈ ps ++ qs, p ≠ 0 := by
    intro p member
    have := above p member
    omega
  obtain ⟨front, last⟩ := words.of_append
  obtain ⟨count, middle⟩ := front.of_append
  have argvAt := middle.pointers fun p member => real p (List.mem_append_left qs member)
  have envpAt := last.pointers fun p member => real p (List.mem_append_right ps member)
  rw [List.length_append, List.length_append, List.length_singleton, List.length_singleton,
    length] at envpAt
  rw [List.length_singleton] at argvAt
  have argc : (BitVec.ofNat 64 argv.length).toNat = argv.length := by
    rw [BitVec.toNat_ofNat]
    omega
  have rsi : (rsp + 8#64).toNat = rsp.toNat + 8 * 1 := by
    rw [BitVec.toNat_add]
    change (rsp.toNat + 8) % _ = _
    omega
  have rdx : (rsp + 8#64 + BitVec.ofNat 64 argv.length * 8#64 + 8#64).toNat =
      rsp.toNat + 8 * (1 + (argv.length + 1)) := by
    rw [BitVec.toNat_add, BitVec.toNat_add, BitVec.toNat_mul, rsi, argc]
    change ((_ + argv.length * 8 % _) % _ + 8) % _ = _
    omega
  rw [← rsi] at argvAt
  rw [← rdx] at envpAt
  refine ⟨⟨BitVec.ofNat 64 argv.length, rsp + 8#64,
    rsp + 8#64 + BitVec.ofNat 64 argv.length * 8#64 + 8#64⟩, ?_, argc, ⟨ps, argvAt, args⟩,
    ⟨qs, envpAt, envs⟩, ?_⟩
  · rw [crt0Start, count.1.load]
    rfl
  · rintro rs (first | second) p member
    · rw [first.unique argvAt] at member
      exact above p (List.mem_append_left qs member)
    · rw [second.unique envpAt] at member
      exact above p (List.mem_append_right ps member)

/-- **Argument passing.** Once both vectors of the caller have been collected, the stack page
can be built exactly if the pointer area fits below the strings. The initial stack pointer is
then aligned and inside the page; the start code finds there as many arguments as the caller
passed, and vectors that hold exactly the strings of the caller's; and no string lies in the
area of the pointers. -/
theorem exec_arguments_round_trip {mem : PhysMem} {root : Nat} {argv envp : Word}
    {args envs : List CString} (collected : collectExecVector mem root argv = .ok args)
    (collected' : collectExecVector mem root envp = .ok envs) :
    (CallerStrings mem root argv args ∧ CallerStrings mem root envp envs) ∧
    ((∃ built, buildExecStack args envs = .ok built) ↔
      8 * (args.length + envs.length + 3) ≤
        (4096 - (textSize args + textSize envs)) / 16 * 16) ∧
    ∀ stack rsp, buildExecStack args envs = .ok (stack, rsp) →
      rsp.toNat % 16 = 0 ∧ stackBase ≤ rsp.toNat ∧ rsp.toNat < stackBase + 4096 ∧
      ∃ main, crt0Start (stack.shift stackBase) rsp = some main ∧
        main.argc.toNat = args.length ∧
        (∀ strs, Strings (stack.shift stackBase) main.argv.toNat strs ↔
          CallerStrings mem root argv strs) ∧
        (∀ strs, Strings (stack.shift stackBase) main.envp.toNat strs ↔
          CallerStrings mem root envp strs) ∧
        ∀ ps, Pointers (stack.shift stackBase) main.argv.toNat ps ∨
            Pointers (stack.shift stackBase) main.envp.toNat ps →
          ∀ p ∈ ps, rsp.toNat + 8 * (args.length + envs.length + 3) ≤ p := by
  obtain ⟨callers, short⟩ := collectExecVector_strings collected
  obtain ⟨callers', short'⟩ := collectExecVector_strings collected'
  have few : args.length ≤ execMaxArgs ∧ envs.length ≤ execMaxArgs :=
    ⟨Nat.le_of_lt short, Nat.le_of_lt short'⟩
  have clean := And.intro callers.clean callers'.clean
  refine ⟨⟨callers, callers'⟩, buildExecStack_iff few clean, ?_⟩
  intro stack rsp ran
  have fit := (buildExecStack_iff few clean).mp ⟨_, ran⟩
  obtain ⟨stack', rsp', ran', built⟩ := buildExecStack_built few clean fit
  obtain ⟨rfl, rfl⟩ := Prod.mk.inj (Except.ok.inj (ran'.symm.trans ran))
  obtain ⟨main, started, argc, argvAt, envpAt, apart⟩ := built.start few.1
  refine ⟨built.aligned, built.inside.1, built.inside.2, main, started, argc, ?_, ?_, apart⟩
  · intro strs
    exact argvAt.iff.trans ⟨fun same => same ▸ callers, fun other => other.unique callers⟩
  · intro strs
    exact envpAt.iff.trans ⟨fun same => same ▸ callers', fun other => other.unique callers'⟩

/-- A page with the vectors of `sh -c`, at 0x40200000, and the tables that lead to it. -/
def shellArguments : PhysMem := fun f i =>
  match f, i.val with
  | 1, 0 => 0x2007#64
  | 2, 1 => 0x3007#64
  | 3, 1 => 0x4007#64
  | 4, 0 => 0x5007#64
  -- the pointers of argv, and behind their end those of envp
  | 5, 0 => 0x40200040#64
  | 5, 1 => 0x40200048#64
  | 5, 3 => 0x40200050#64
  | 5, 8 => 0x6873#64
  | 5, 9 => 0x632D#64
  | 5, 10 => 0x623D41#64
  | _, _ => 0#64

/-- The arguments `sh -c` with `A=b` in the environment arrive. -/
theorem exec_arguments_round_trip_shell :
    collectExecVector shellArguments 1 0x40200000#64 =
        .ok [[0x73#8, 0x68#8], [0x2D#8, 0x63#8]] ∧
      collectExecVector shellArguments 1 0x40200018#64 = .ok [[0x41#8, 0x3D#8, 0x62#8]] ∧
      ∃ stack rsp main,
        buildExecStack [[0x73#8, 0x68#8], [0x2D#8, 0x63#8]] [[0x41#8, 0x3D#8, 0x62#8]] =
          .ok (stack, rsp) ∧
        crt0Start (stack.shift stackBase) rsp = some main ∧ main.argc.toNat = 2 := by
  have argv : collectExecVector shellArguments 1 0x40200000#64 =
      .ok [[0x73#8, 0x68#8], [0x2D#8, 0x63#8]] := by decide +kernel
  have envp : collectExecVector shellArguments 1 0x40200018#64 =
      .ok [[0x41#8, 0x3D#8, 0x62#8]] := by decide +kernel
  obtain ⟨_, succeeds, arrives⟩ := exec_arguments_round_trip argv envp
  obtain ⟨⟨stack, rsp⟩, built⟩ := succeeds.mpr (by decide)
  obtain ⟨_, _, _, main, started, argc, _⟩ := arrives stack rsp built
  exact ⟨argv, envp, stack, rsp, main, built, started, argc⟩

end LithiumKernel.Syscall
