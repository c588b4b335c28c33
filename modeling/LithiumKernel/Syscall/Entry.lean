import LithiumKernel.Lib.WordStack
import LithiumKernel.Mm.Pmm

/-!
# Entering and leaving the kernel (kernel/syscall/syscall_entry.asm)

`syscall_entry` saves the user's registers in a `syscall_frame_t` on the kernel stack, calls
`syscall_dispatch` with it and restores them; the registers that `SYSCALL` itself overwrites, RCX
and R11, carry the return address and the flags. On the way out RDX is used to bring the user's
stack pointer into the frame of `iretq`, after the user's RDX has been restored. A fork copies the
frame to the top of the child's stack, from where the child leaves the kernel by the same code.

The assembly is a list of instructions with an interpreter. Memory is that of the kernel, in words;
the two variables of the entry code are fields of their own. The return address of the call of
`syscall_dispatch` lies below the frame and is gone when the call returns, so it is not stored; the
faults of `iretq` (a return address that is not canonical) are left out.
-/
namespace LithiumKernel.Syscall

open LithiumKernel.Lib LithiumKernel.Mm

/-! ## The machine -/

inductive Reg where
  | rax | rbx | rcx | rdx | rsi | rdi | rbp | rsp
  | r8 | r9 | r10 | r11 | r12 | r13 | r14 | r15
  deriving DecidableEq

structure Cpu where
  reg : Reg → Word
  rip : Word
  rflags : Word
  cs : Word
  ss : Word
  mem : WordMem
  syscallSavedUserRsp : Word
  syscallKernelStackTop : Word

def Cpu.set (c : Cpu) (r : Reg) (w : Word) : Cpu := { c with reg := Function.update c.reg r w }

def Cpu.pushWord (c : Cpu) (w : Word) : Cpu :=
  { c.set .rsp (c.reg .rsp - 8#64) with mem := Function.update c.mem (c.reg .rsp - 8#64) w }

inductive Instr where
  /-- `mov [rel syscall_saved_user_rsp], rsp` -/
  | saveUserRsp
  /-- `mov rsp, [rel syscall_kernel_stack_top]` -/
  | loadKernelStack
  /-- `and rsp, -16` -/
  | alignStack
  /-- `push qword [rel syscall_saved_user_rsp]` -/
  | pushUserRsp
  | push (r : Reg)
  | pushImm (w : Word)
  | pop (r : Reg)
  | mov (dst src : Reg)
  | ret
  | iretq

def Instr.exec : Instr → Cpu → Cpu
  | .saveUserRsp, c => { c with syscallSavedUserRsp := c.reg .rsp }
  | .loadKernelStack, c => c.set .rsp c.syscallKernelStackTop
  | .alignStack, c => c.set .rsp (c.reg .rsp &&& 0xFFFFFFFFFFFFFFF0#64)
  | .pushUserRsp, c => c.pushWord c.syscallSavedUserRsp
  | .push r, c => c.pushWord (c.reg r)
  | .pushImm w, c => c.pushWord w
  | .pop r, c => (c.set .rsp (c.reg .rsp + 8#64)).set r (c.mem (c.reg .rsp))
  | .mov dst src, c => c.set dst (c.reg src)
  | .ret, c => { c.set .rsp (c.reg .rsp + 8#64) with rip := c.mem (c.reg .rsp) }
  | .iretq, c =>
    { c.set .rsp (c.mem (wordAt (c.reg .rsp) 3)) with
      rip := c.mem (wordAt (c.reg .rsp) 0)
      cs := c.mem (wordAt (c.reg .rsp) 1)
      rflags := c.mem (wordAt (c.reg .rsp) 2)
      ss := c.mem (wordAt (c.reg .rsp) 4) }

def execAll (p : List Instr) (c : Cpu) : Cpu := p.foldl (fun c i => i.exec c) c

/-! ## The source -/

def syscallFmask : Word := 0x700#64

/-- The `SYSCALL` instruction in user mode; `rip` is the address of the next instruction. The
jump to `syscall_entry` is left out. -/
def syscallInsn (u : Cpu) : Cpu :=
  { (u.set .rcx u.rip).set .r11 u.rflags with rflags := u.rflags &&& ~~~syscallFmask }

def gdtUserCodeRpl3 : Word := 0x1B#64
def gdtUserDataRpl3 : Word := 0x23#64

/-- The order in which `syscall_entry` pushes. -/
def pushed : List Reg :=
  [.r11, .rcx, .rax, .rbx, .rcx, .rdx, .rsi, .rdi, .rbp, .r8, .r9, .r10, .r11, .r12, .r13, .r14, .r15]

/-- `syscall_entry` up to its call. -/
def syscallEntry : List Instr :=
  [.saveUserRsp, .loadKernelStack, .alignStack, .pushUserRsp] ++ pushed.map .push ++ [.mov .rdi .rsp]

/-- The order in which `syscall_return_from_frame` pops; RCX, R11 and RDX come up twice. -/
def popped : List Reg :=
  [.r15, .r14, .r13, .r12, .r11, .r10, .r9, .r8, .rbp, .rdi, .rsi, .rdx, .rcx, .rbx, .rax,
    .rcx, .r11, .rdx]

def syscallReturnFromFrame : List Instr :=
  popped.map .pop ++
    [.pushImm gdtUserDataRpl3, .push .rdx, .push .r11, .pushImm gdtUserCodeRpl3, .push .rcx, .iretq]

/-- The registers that `context_switch` restores. -/
def calleeSaved : List Reg := [.rbx, .rbp, .r12, .r13, .r14, .r15]

/-- The second half of `context_switch`, after `mov rsp, rsi`. -/
def contextRestore : List Instr := calleeSaved.map .pop ++ [.ret]

def forkReturnToUser : List Instr := [.mov .rsp .r12] ++ syscallReturnFromFrame

/-- `syscall_frame_t`. -/
structure SyscallFrame where
  r15 : Word
  r14 : Word
  r13 : Word
  r12 : Word
  r11 : Word
  r10 : Word
  r9 : Word
  r8 : Word
  rbp : Word
  rdi : Word
  rsi : Word
  rdx : Word
  rcx : Word
  rbx : Word
  rax : Word
  userRip : Word
  userRflags : Word
  userRsp : Word

/-- The frame in memory. -/
def SyscallFrame.words (f : SyscallFrame) : List Word :=
  [f.r15, f.r14, f.r13, f.r12, f.r11, f.r10, f.r9, f.r8, f.rbp, f.rdi, f.rsi, f.rdx, f.rcx, f.rbx,
    f.rax, f.userRip, f.userRflags, f.userRsp]

/-- `build_initial_stack`: the address to return to and the words `context_switch` pops, from the
top of the stack down, and the task's stack pointer. -/
def buildInitialStack (mem : WordMem) (stackTop retTarget r12 r13 : Word) : WordMem × Word :=
  storeDown mem stackTop [retTarget, 0#64, 0#64, r13, r12, 0#64, 0#64]

/-- The part of `task_fork_from_frame` that makes the child's stack: a copy of the frame, with 0
for the result, and the initial stack. -/
def forkStack (mem : WordMem) (frame stackTop forkReturn : Word) : WordMem × Word :=
  let childFrame := stackTop - 512#64
  let mem := copyWords mem childFrame frame 18
  let mem := Function.update mem (wordAt childFrame 14) 0#64
  buildInitialStack mem stackTop forkReturn childFrame 0#64

/-! ## Runs of pushes and pops -/

variable {c u : Cpu} {ws rest : List Word} {rs : List Reg} {f : SyscallFrame}

theorem execAll_append (p q : List Instr) (c : Cpu) :
    execAll (p ++ q) c = execAll q (execAll p c) := List.foldl_append

theorem set_other (w : Word) {r r' : Reg} (other : r' ≠ r) : (c.set r w).reg r' = c.reg r' :=
  Function.update_of_ne other _ _

@[simp] theorem set_self (r : Reg) (w : Word) : (c.set r w).reg r = w := Function.update_self ..

theorem pushWord_other (w : Word) {r : Reg} (other : r ≠ .rsp) : (c.pushWord w).reg r = c.reg r :=
  Function.update_of_ne other _ _

theorem pushWord_holds (w : Word) (held : Holds c.mem (c.reg .rsp) ws)
    (small : ws.length < 2 ^ 61 - 1) :
    Holds (c.pushWord w).mem ((c.pushWord w).reg .rsp) (w :: ws) := by
  have sp : (c.pushWord w).reg .rsp = c.reg .rsp - 8#64 := by
    change (c.set .rsp (c.reg .rsp - 8#64)).reg .rsp = _
    exact set_self _ _
  rw [sp]
  exact held.push small

theorem execAll_push (rs : List Reg) (noSp : .rsp ∉ rs) (held : Holds c.mem (c.reg .rsp) ws)
    (small : rs.length + ws.length < 2 ^ 61 - 1) :
    Holds (execAll (rs.map .push) c).mem ((execAll (rs.map .push) c).reg .rsp)
        ((rs.map c.reg).reverse ++ ws) ∧
      ∀ r, r ≠ .rsp → (execAll (rs.map .push) c).reg r = c.reg r := by
  induction rs generalizing c ws with
  | nil => exact ⟨held, fun _ _ => rfl⟩
  | cons r rs ih =>
    rw [List.mem_cons, not_or] at noSp
    obtain ⟨ne, noSp⟩ := noSp
    rw [List.length_cons] at small
    have same : rs.map (c.pushWord (c.reg r)).reg = rs.map c.reg := by
      refine List.map_congr_left fun r' member => pushWord_other _ ?_
      rintro rfl
      exact noSp member
    obtain ⟨pushed, others⟩ := ih noSp (pushWord_holds (c.reg r) held (by omega))
      (by rw [List.length_cons]; omega)
    rw [same] at pushed
    refine ⟨?_, fun r' other => (others r' other).trans (pushWord_other _ other)⟩
    have order : ((r :: rs).map c.reg).reverse ++ ws = (rs.map c.reg).reverse ++ c.reg r :: ws := by
      simp
    rw [order]
    exact pushed

/-- The registers after loading the words one after the other. -/
def assign : List Reg → List Word → (Reg → Word) → Reg → Word
  | r :: rs, w :: ws, g => assign rs ws (Function.update g r w)
  | _, _, g => g

theorem assign_congr {g g' : Reg → Word} (same : ∀ r, r ≠ .rsp → g r = g' r) :
    ∀ r, r ≠ .rsp → assign rs ws g r = assign rs ws g' r := by
  induction rs generalizing ws g g' with
  | nil => exact same
  | cons r₀ rs ih =>
    cases ws with
    | nil => exact same
    | cons w ws =>
      refine ih fun r other => ?_
      by_cases here : r = r₀
      · rw [here, Function.update_self, Function.update_self]
      · rw [Function.update_of_ne here, Function.update_of_ne here, same r other]

theorem execAll_pop (rs : List Reg) (noSp : .rsp ∉ rs) (length : rs.length = ws.length)
    (held : Holds c.mem (c.reg .rsp) (ws ++ rest)) :
    (execAll (rs.map .pop) c).mem = c.mem ∧
      Holds (execAll (rs.map .pop) c).mem ((execAll (rs.map .pop) c).reg .rsp) rest ∧
      ∀ r, r ≠ .rsp → (execAll (rs.map .pop) c).reg r = assign rs ws c.reg r := by
  induction rs generalizing c ws with
  | nil =>
    obtain rfl := List.length_eq_zero_iff.mp length.symm
    exact ⟨rfl, held, fun _ _ => rfl⟩
  | cons r rs ih =>
    cases ws with
    | nil => cases length
    | cons w ws =>
      rw [List.mem_cons, not_or] at noSp
      obtain ⟨ne, noSp⟩ := noSp
      obtain ⟨first, tail⟩ := held
      have sp : ((Instr.pop r).exec c).reg .rsp = c.reg .rsp + 8#64 :=
        (set_other _ ne).trans (set_self _ _)
      obtain ⟨mem, left, values⟩ := ih (c := (Instr.pop r).exec c) noSp (Nat.succ.inj length) (by
        rw [sp]
        exact tail)
      refine ⟨mem, left, fun r' other => (values r' other).trans ?_⟩
      refine assign_congr (fun r' other => ?_) r' other
      change Function.update (Function.update c.reg .rsp _) r (c.mem (c.reg .rsp)) r' = _
      rw [first]
      by_cases here : r' = r
      · rw [here, Function.update_self, Function.update_self]
      · rw [Function.update_of_ne here, Function.update_of_ne here, Function.update_of_ne other]

/-! ## The frame -/

/-- The frame `syscall_entry` makes of the registers of the user. -/
def savedFrame (u : Cpu) : SyscallFrame where
  r15 := u.reg .r15
  r14 := u.reg .r14
  r13 := u.reg .r13
  r12 := u.reg .r12
  r11 := u.rflags
  r10 := u.reg .r10
  r9 := u.reg .r9
  r8 := u.reg .r8
  rbp := u.reg .rbp
  rdi := u.reg .rdi
  rsi := u.reg .rsi
  rdx := u.reg .rdx
  rcx := u.rip
  rbx := u.reg .rbx
  rax := u.reg .rax
  userRip := u.rip
  userRflags := u.rflags
  userRsp := u.reg .rsp

/-- From `SYSCALL` to the call of `syscall_dispatch`. -/
def enter (u : Cpu) : Cpu := execAll syscallEntry (syscallInsn u)

/-- The argument of `syscall_dispatch` is the frame at the stack pointer. -/
theorem enter_frame (u : Cpu) : (enter u).reg .rdi = (enter u).reg .rsp ∧
    Holds (enter u).mem ((enter u).reg .rsp) (savedFrame u).words := by
  unfold enter syscallEntry
  rw [execAll_append, execAll_append]
  generalize begun : execAll [.saveUserRsp, .loadKernelStack, .alignStack, .pushUserRsp]
    (syscallInsn u) = c
  have saved : Holds c.mem (c.reg .rsp) [u.reg .rsp] := by
    subst begun
    have empty : ∀ c : Cpu, Holds c.mem (c.reg .rsp) [] := fun _ => trivial
    exact pushWord_holds (u.reg .rsp) (empty _) (by decide)
  have regs : pushed.map c.reg = pushed.map (syscallInsn u).reg := by
    subst begun
    refine List.map_congr_left fun r member => ?_
    have other : r ≠ .rsp := by
      rintro rfl
      exact absurd member (by decide)
    exact (pushWord_other _ other).trans ((set_other _ other).trans (set_other _ other))
  obtain ⟨held, _⟩ := execAll_push pushed (by decide) saved (by simp [pushed])
  rw [regs] at held
  generalize execAll (pushed.map .push) c = c₁ at held ⊢
  refine ⟨(set_self _ _).trans (set_other _ (by decide)).symm, ?_⟩
  have sp : (execAll [.mov .rdi .rsp] c₁).reg .rsp = c₁.reg .rsp := set_other _ (by decide)
  rw [sp]
  exact held

/-- The registers after `syscall_return_from_frame`. -/
def SyscallFrame.restored (f : SyscallFrame) : Reg → Word
  | .rax => f.rax
  | .rbx => f.rbx
  | .rcx => f.userRip
  | .rdx => f.userRsp
  | .rsi => f.rsi
  | .rdi => f.rdi
  | .rbp => f.rbp
  | .rsp => f.userRsp
  | .r8 => f.r8
  | .r9 => f.r9
  | .r10 => f.r10
  | .r11 => f.userRflags
  | .r12 => f.r12
  | .r13 => f.r13
  | .r14 => f.r14
  | .r15 => f.r15

/-- In user mode, with what the frame says. -/
structure Left (f : SyscallFrame) (c : Cpu) : Prop where
  reg : c.reg = f.restored
  rip : c.rip = f.userRip
  rflags : c.rflags = f.userRflags
  cs : c.cs = gdtUserCodeRpl3
  ss : c.ss = gdtUserDataRpl3

theorem return_left (held : Holds c.mem (c.reg .rsp) f.words) :
    Left f (execAll syscallReturnFromFrame c) := by
  have all : Holds c.mem (c.reg .rsp) (f.words ++ []) := by rwa [List.append_nil]
  obtain ⟨_, _, values⟩ := execAll_pop popped (by decide) rfl all
  unfold syscallReturnFromFrame
  rw [execAll_append]
  generalize execAll (popped.map .pop) c = c₁ at values ⊢
  have value : ∀ r, r ≠ .rsp → c₁.reg r = f.restored r := by
    intro r other
    rw [values r other]
    cases r <;> first | rfl | exact absurd rfl other
  -- the five words for `iretq`
  have last : execAll [.pushImm gdtUserDataRpl3, .push .rdx, .push .r11, .pushImm gdtUserCodeRpl3,
      .push .rcx, .iretq] c₁ = Instr.iretq.exec (((((c₁.pushWord gdtUserDataRpl3).pushWord
        (c₁.reg .rdx)).pushWord (c₁.reg .r11)).pushWord gdtUserCodeRpl3).pushWord (c₁.reg .rcx)) := rfl
  have none_ : Holds c₁.mem (c₁.reg .rsp) [] := trivial
  have frame := pushWord_holds (c₁.reg .rcx) (pushWord_holds gdtUserCodeRpl3
    (pushWord_holds (c₁.reg .r11) (pushWord_holds (c₁.reg .rdx) (pushWord_holds gdtUserDataRpl3 none_
      (by decide)) (by simp)) (by simp)) (by simp)) (by simp)
  have others : ∀ r, r ≠ .rsp → (((((c₁.pushWord gdtUserDataRpl3).pushWord
      (c₁.reg .rdx)).pushWord (c₁.reg .r11)).pushWord gdtUserCodeRpl3).pushWord (c₁.reg .rcx)).reg r =
        f.restored r := by
    intro r other
    rw [pushWord_other _ other, pushWord_other _ other, pushWord_other _ other,
      pushWord_other _ other, pushWord_other _ other, value r other]
  rw [last]
  rw [value .rcx (by decide), value .rdx (by decide), value .r11 (by decide)] at frame others ⊢
  generalize ((((c₁.pushWord gdtUserDataRpl3).pushWord (f.restored .rdx)).pushWord
    (f.restored .r11)).pushWord gdtUserCodeRpl3).pushWord (f.restored .rcx) = c₂ at frame others ⊢
  rw [holds_iff] at frame
  have stack : c₂.mem (wordAt (c₂.reg .rsp) 3) = f.userRsp := frame 3 (by simp)
  refine ⟨funext fun r => ?_, frame 0 (by simp), frame 2 (by simp), frame 1 (by simp),
    frame 4 (by simp)⟩
  by_cases here : r = .rsp
  · rw [here]
    change (c₂.set .rsp (c₂.mem (wordAt (c₂.reg .rsp) 3))).reg .rsp = f.userRsp
    rw [set_self, stack]
  · exact (set_other _ here).trans (others r here)

/-! ## The child of a fork -/

section Fork

variable {mem : WordMem} {frame stackTop forkReturn : Word}

/-- The seven words at the top of the stack, counted from the frame. -/
theorem stackTop_wordAt (j : Nat) :
    wordAt (stackTop - 8#64 - 8#64 - 8#64 - 8#64 - 8#64 - 8#64 - 8#64) j =
      wordAt (stackTop - 512#64) (57 + j) := by
  apply BitVec.eq_of_toNat_eq
  simp only [wordAt, BitVec.toNat_add, BitVec.toNat_sub, BitVec.toNat_ofNat]
  omega

/-- The two parts of the child's stack: the frame 512 bytes below the top, and the seven words at
the top. -/
theorem forkStack_holds (held : Holds mem frame f.words)
    (apart : ∀ i < 18, ∀ j < 18, wordAt frame i ≠ wordAt (stackTop - 512#64) j) :
    Holds (forkStack mem frame stackTop forkReturn).1 (stackTop - 512#64)
        { f with rax := 0#64 }.words ∧
      Holds (forkStack mem frame stackTop forkReturn).1 (forkStack mem frame stackTop forkReturn).2
        [0#64, 0#64, stackTop - 512#64, 0#64, 0#64, 0#64, forkReturn] := by
  have copied : Holds (copyWords mem (stackTop - 512#64) frame 18) (stackTop - 512#64) f.words :=
    held.copy (by simp [SyscallFrame.words]) apart
  have zeroed : Holds (Function.update (copyWords mem (stackTop - 512#64) frame 18)
      (wordAt (stackTop - 512#64) 14) 0#64) (stackTop - 512#64) { f with rax := 0#64 }.words :=
    copied.set (by simp [SyscallFrame.words]) (by simp [SyscallFrame.words])
  have none_ : ∀ mem, Holds mem stackTop [] := fun _ => trivial
  refine ⟨zeroed.congr fun i lt => storeDown_off fun j lt' same => ?_,
    (none_ _).storeDown (by simp)⟩
  simp only [SyscallFrame.words, List.length_cons, List.length_nil] at lt lt'
  have here := wordAt_inj (by omega) (by omega) (same.trans (stackTop_wordAt j))
  omega

/-- A child at its first `context_switch`: `task_fork_from_frame` has made its stack from the frame
of the call of `u`, and nobody has written the top 512 bytes of it since. -/
structure ForkChild (u : Cpu) (forkReturn : Word) (mem : WordMem) (stackTop : Word)
    (child : Cpu) : Prop where
  frame : Holds mem ((enter u).reg .rsp) (savedFrame u).words
  apart : ∀ i < 18, ∀ j < 18, wordAt ((enter u).reg .rsp) i ≠ wordAt (stackTop - 512#64) j
  rsp : child.reg .rsp = (forkStack mem ((enter u).reg .rsp) stackTop forkReturn).2
  stack : ∀ i < 64, child.mem (wordAt (stackTop - 512#64) i) =
    (forkStack mem ((enter u).reg .rsp) stackTop forkReturn).1 (wordAt (stackTop - 512#64) i)

end Fork

/-! ## Transparency -/

/-- The user goes on behind `SYSCALL` with the flags and the stack as they were, with the result
in RAX, and with all registers that the wrappers do not declare clobbered. -/
structure Resumed (u : Cpu) (result : Word) (c : Cpu) : Prop where
  rip : c.rip = u.rip
  rflags : c.rflags = u.rflags
  mode : c.cs = gdtUserCodeRpl3 ∧ c.ss = gdtUserDataRpl3
  rax : c.reg .rax = result
  others : ∀ r, r ∉ [Reg.rax, .rcx, .r11] → c.reg r = u.reg r

/-- `syscall_dispatch` ran a handler that changes nothing of the frame but RAX. -/
structure Dispatched (result : Word) (c c' : Cpu) : Prop where
  rsp : c'.reg .rsp = c.reg .rsp
  frame : ∀ f : SyscallFrame, Holds c.mem (c.reg .rsp) f.words →
    Holds c'.mem (c.reg .rsp) { f with rax := result }.words

/-- `frame->rax = ret`, the end of `syscall_dispatch`. -/
def storeResult (result : Word) (c : Cpu) : Cpu :=
  { c with mem := Function.update c.mem (wordAt (c.reg .rsp) 14) result }

theorem storeResult_dispatched (result : Word) (c : Cpu) : Dispatched result c (storeResult result c) where
  rsp := rfl
  frame _ held := held.set (by simp [SyscallFrame.words]) (by simp [SyscallFrame.words])

theorem resumed_iff {result : Word} (left : Left { savedFrame u with rax := result } c) :
    Resumed u result c ↔ u.reg .rdx = u.reg .rsp := by
  constructor
  · intro resumed
    have restored := resumed.others .rdx (by decide)
    rw [left.reg] at restored
    exact restored.symm
  · intro same
    refine ⟨left.rip, left.rflags, ⟨left.cs, left.ss⟩, by rw [left.reg]; rfl, fun r kept => ?_⟩
    rw [left.reg]
    cases r <;> first | rfl | exact same.symm | exact absurd (by decide) kept

theorem dispatched_left {result : Word} (dispatched : Dispatched result (enter u) c) :
    Left { savedFrame u with rax := result } (execAll syscallReturnFromFrame c) := by
  apply return_left
  rw [dispatched.rsp]
  exact dispatched.frame _ (enter_frame u).2

theorem child_left {forkReturn stackTop : Word} {mem : WordMem} {child : Cpu}
    (born : ForkChild u forkReturn mem stackTop child) :
    (execAll contextRestore child).rip = forkReturn ∧
      Left { savedFrame u with rax := 0#64 } (execAll forkReturnToUser (execAll contextRestore child)) := by
  obtain ⟨frame, top⟩ := forkStack_holds born.frame born.apart
  have frame' : Holds child.mem (stackTop - 512#64) { savedFrame u with rax := 0#64 }.words := by
    refine frame.congr fun i lt => born.stack i ?_
    simp only [SyscallFrame.words, List.length_cons, List.length_nil] at lt
    omega
  have top' : Holds child.mem (child.reg .rsp)
      ([0#64, 0#64, stackTop - 512#64, 0#64, 0#64, 0#64] ++ [forkReturn]) := by
    rw [born.rsp]
    refine top.congr fun i lt => ?_
    simp only [List.length_cons, List.length_nil] at lt
    have place : wordAt (forkStack mem ((enter u).reg .rsp) stackTop forkReturn).2 i =
        wordAt (stackTop - 512#64) (57 + i) := stackTop_wordAt i
    rw [place]
    exact born.stack _ (by omega)
  obtain ⟨mem', return_, values⟩ := execAll_pop calleeSaved (by decide) rfl top'
  have r12 : (execAll (calleeSaved.map .pop) child).reg .r12 = stackTop - 512#64 :=
    values .r12 (by decide)
  unfold contextRestore
  rw [execAll_append]
  generalize execAll (calleeSaved.map .pop) child = c at mem' return_ r12 ⊢
  refine ⟨return_.1, ?_⟩
  unfold forkReturnToUser
  rw [execAll_append]
  apply return_left
  have sp : (execAll [.mov .rsp .r12] (execAll [.ret] c)).reg .rsp = stackTop - 512#64 := r12
  rw [sp]
  have same : (execAll [.mov .rsp .r12] (execAll [.ret] c)).mem = child.mem := mem'
  rw [same]
  exact frame'

/-- Register transparency, for the caller and for a child it forks. RDX is what fails: it comes
back with the user's stack pointer. -/
theorem syscall_transparent_iff (u c : Cpu) (result forkReturn : Word)
    (dispatched : Dispatched result (enter u) c) :
    (Resumed u result (execAll syscallReturnFromFrame c) ∧
      ∀ mem stackTop child, ForkChild u forkReturn mem stackTop child →
        (execAll contextRestore child).rip = forkReturn ∧
          Resumed u 0#64 (execAll forkReturnToUser (execAll contextRestore child))) ↔
      u.reg .rdx = u.reg .rsp := by
  constructor
  · rintro ⟨caller, _⟩
    exact (resumed_iff (dispatched_left dispatched)).mp caller
  · intro same
    refine ⟨(resumed_iff (dispatched_left dispatched)).mpr same, fun mem stackTop child born => ?_⟩
    obtain ⟨rip, left⟩ := child_left born
    exact ⟨rip, (resumed_iff left).mpr same⟩

/-- A user with a count in RDX, about to write; the kernel stack ends at 0xFFFFFFFF80302000. -/
def writingUser (count : Word) : Cpu where
  reg
    | .rax => 1#64
    | .rdx => count
    | .rsp => 0x400FFFF0#64
    | _ => 0#64
  rip := 0x400102#64
  rflags := 0x202#64
  cs := gdtUserCodeRpl3
  ss := gdtUserDataRpl3
  mem _ := 0#64
  syscallSavedUserRsp := 0#64
  syscallKernelStackTop := 0xFFFFFFFF80302000#64

theorem syscall_transparent_iff_equal :
    Dispatched 5#64 (enter (writingUser 0x400FFFF0#64))
        (storeResult 5#64 (enter (writingUser 0x400FFFF0#64))) ∧
      Resumed (writingUser 0x400FFFF0#64) 5#64 (execAll syscallReturnFromFrame
        (storeResult 5#64 (enter (writingUser 0x400FFFF0#64)))) := by
  have dispatched := storeResult_dispatched 5#64 (enter (writingUser 0x400FFFF0#64))
  exact ⟨dispatched, ((syscall_transparent_iff _ _ 5#64 0xFFFFFFFF80001000#64 dispatched).mpr rfl).1⟩

/-- After a write of five bytes the user finds its stack pointer in RDX. -/
theorem syscall_loses_rdx :
    Dispatched 5#64 (enter (writingUser 5#64)) (storeResult 5#64 (enter (writingUser 5#64))) ∧
      (execAll syscallReturnFromFrame (storeResult 5#64 (enter (writingUser 5#64)))).reg .rdx =
        0x400FFFF0#64 ∧
      ¬ Resumed (writingUser 5#64) 5#64
        (execAll syscallReturnFromFrame (storeResult 5#64 (enter (writingUser 5#64)))) := by
  have dispatched := storeResult_dispatched 5#64 (enter (writingUser 5#64))
  have left := dispatched_left dispatched
  refine ⟨dispatched, congrFun left.reg .rdx, fun resumed => ?_⟩
  have same := (resumed_iff left).mp resumed
  exact absurd same (by decide)

end LithiumKernel.Syscall
