import LithiumKernel.Lib.Checked
import LithiumKernel.Syscall.KernelWindow

/-!
# Loading arbitrary bytes

Everything in an ELF file is under the control of whoever wrote it. Here the loader is written
once more with a check at each place where such bytes could do harm: every read of the image
must lie inside it, no 64-bit sum, difference or product may wrap, a page must lie below
`USER_SPACE_TOP` when it is mapped, and the range check of `map_segment_page` must not fail.
The checked loader and the loader turn out to be the same.
-/
namespace LithiumKernel.Proc

open LithiumKernel.Lib LithiumKernel.Mm LithiumKernel.Syscall

inductive LoadFault where
  | outside
  | wraps
  | beyondUser
  | rangeCheck
  deriving DecidableEq

abbrev LoadM := ExceptT LoadFault MmM

/-! ## The checked loader -/

def readField (file : List Byte) (off n : Nat) : Except LoadFault Nat :=
  if off + n ≤ file.length then .ok (field file off n) else .error .outside

def readBytes (file : List Byte) (off n : Nat) : Except LoadFault (List Byte) :=
  if off + n ≤ file.length then .ok ((file.drop off).take n) else .error .outside

def alignUpOk (x a : Word) : Except LoadFault Word := do
  let above ← addOk .wraps x a
  let top ← subOk .wraps above 1#64
  .ok (top &&& ~~~(a - 1#64))

def rangeOkChecked (start size limit : Word) : Except LoadFault Bool :=
  if size ≤ limit then do
    let room ← subOk .wraps limit size
    .ok (decide (start ≤ room))
  else .ok false

/-- The tests of `elf_load_user_image` on the ELF header, with the reads they need. -/
def headerOkChecked (file : List Byte) : Except LoadFault Bool :=
  if file.length < elf64EhdrSize then .ok false
  else do
    let ident ← (List.range 6).mapM (readField file · 1)
    let eType ← readField file 16 2
    let eMachine ← readField file 18 2
    let eVersion ← readField file 20 4
    let eEhsize ← readField file 52 2
    let ePhentsize ← readField file 54 2
    let ePhnum ← readField file 56 2
    let ePhoff ← readField file 32 8
    let eEntry ← readField file 24 8
    if ident ≠ [0x7f, 0x45, 0x4c, 0x46, 2, 1] then .ok false
    else if ¬ (eType = 2 ∧ eMachine = 62 ∧ eVersion = 1) then .ok false
    else if ¬ (eEhsize = elf64EhdrSize ∧ ePhentsize = elf64PhdrSize ∧ ePhnum ≠ 0 ∧ ePhnum ≤ 32) then
      .ok false
    else do
      let size ← mulOk .wraps (BitVec.ofNat 64 ePhnum) (BitVec.ofNat 64 ePhentsize)
      let inside ← rangeOkChecked (BitVec.ofNat 64 ePhoff) size (BitVec.ofNat 64 file.length)
      if ¬ inside then .ok false
      else
        .ok (decide (BitVec.ofNat 64 eEntry ≠ 0#64 ∧ BitVec.ofNat 64 eEntry < userSpaceTop))

/-- `&phdrs[i]` and the fields read through it. -/
def phdrChecked (file : List Byte) (i : Nat) : Except LoadFault Elf64Phdr := do
  let ePhoff ← readField file 32 8
  let index ← mulOk .wraps (BitVec.ofNat 64 i) (BitVec.ofNat 64 elf64PhdrSize)
  let off ← addOk .wraps (BitVec.ofNat 64 ePhoff) index
  let pType ← readField file off.toNat 4
  let pFlags ← readField file (off.toNat + 4) 4
  let pOffset ← readField file (off.toNat + 8) 8
  let pVaddr ← readField file (off.toNat + 16) 8
  let pFilesz ← readField file (off.toNat + 32) 8
  let pMemsz ← readField file (off.toNat + 40) 8
  let pAlign ← readField file (off.toNat + 48) 8
  .ok ⟨pType, pFlags, BitVec.ofNat 64 pOffset, BitVec.ofNat 64 pVaddr, BitVec.ofNat 64 pFilesz,
    BitVec.ofNat 64 pMemsz, BitVec.ofNat 64 pAlign⟩

def segmentOkChecked (file : List Byte) (ph : Elf64Phdr) : Except LoadFault Bool :=
  if ¬ (ph.pFilesz ≤ ph.pMemsz ∧ ph.pMemsz ≠ 0#64) then .ok false
  else do
    let inFile ← rangeOkChecked ph.pOffset ph.pFilesz (BitVec.ofNat 64 file.length)
    if ¬ inFile then .ok false
    else do
      let inUser ← rangeOkChecked ph.pVaddr ph.pMemsz userSpaceTop
      if ¬ inUser then .ok false
      else .ok (decide (ph.pAlign = 0#64 ∨ ph.pAlign = pageSize))

def segmentBytesChecked (file : List Byte) (ph : Elf64Phdr) (page : Word) :
    Except LoadFault (Nat × List Byte) := do
  let pageEnd ← addOk .wraps page pageSize
  let segFileEnd ← addOk .wraps ph.pVaddr ph.pFilesz
  let copyStart := if ph.pVaddr < page then page else ph.pVaddr
  let copyEnd := if pageEnd < segFileEnd then pageEnd else segFileEnd
  if copyStart < copyEnd then do
    let skip ← subOk .wraps copyStart ph.pVaddr
    let fileOff ← addOk .wraps ph.pOffset skip
    let len ← subOk .wraps copyEnd copyStart
    let inside ← rangeOkChecked fileOff len (BitVec.ofNat 64 file.length)
    if inside then do
      let dst ← subOk .wraps copyStart page
      let bytes ← readBytes file fileOff.toNat len.toNat
      .ok (dst.toNat, bytes)
    else .error .rangeCheck
  else .ok (0, [])

def mapSegmentPageChecked (pml4 : Nat) (file : List Byte) (ph : Elf64Phdr) (virt : Word) :
    LoadM Bool := do
  match ← liftM allocFrame with
  | none => pure false
  | some phys =>
    liftM (zeroFrame (frameOf phys))
    let page := alignDown virt pageSize
    let part ← check (segmentBytesChecked file ph page)
    let dst ← check (addOk .wraps phys (BitVec.ofNat 64 part.1))
    liftM (writeBytes dst part.2)
    let target ← check (if page < userSpaceTop then .ok page else .error .beyondUser)
    liftM (mapOrFree pml4 target phys (segmentFlags ph))

/-- The pages of the loop, with its increments. -/
def pagesFrom : Nat → Word → Except LoadFault (List Word)
  | 0, _ => .ok []
  | n + 1, page => do
    let next ← addOk .wraps page pageSize
    let rest ← pagesFrom n next
    .ok (page :: rest)

def segmentPagesChecked (ph : Elf64Phdr) : Except LoadFault (List Word) := do
  let first := alignDown ph.pVaddr pageSize
  let top ← addOk .wraps ph.pVaddr ph.pMemsz
  let last ← alignUpOk top pageSize
  pagesFrom ((last.toNat - first.toNat + 4095) / 4096) first

def loadSegmentChecked (pml4 : Nat) (file : List Byte) (highest : Option Word) (ph : Elf64Phdr) :
    LoadM (Option (Option Word)) :=
  if ph.pType ≠ ptLoad then pure (some highest)
  else do
    let ok ← check (segmentOkChecked file ph)
    if ¬ ok then pure none
    else do
      let pages ← check (segmentPagesChecked ph)
      if ← pages.allM (mapSegmentPageChecked pml4 file ph) then do
        let top ← check (addOk .wraps ph.pVaddr ph.pMemsz)
        pure (some (some (if highest.getD 0#64 < top then top else highest.getD 0#64)))
      else pure none

def loadSegmentsChecked (pml4 : Nat) (file : List Byte) :
    Option Word → List Nat → LoadM (Option (Option Word))
  | highest, [] => pure (some highest)
  | highest, i :: rest => do
    let ph ← check (phdrChecked file i)
    match ← loadSegmentChecked pml4 file highest ph with
    | none => pure none
    | some next => loadSegmentsChecked pml4 file next rest

def elfLoadChecked (pml4 : Nat) (file : List Byte) : LoadM (Option (Word × Word)) := do
  let ok ← check (headerOkChecked file)
  if ok then do
    match ← loadSegmentsChecked pml4 file none (List.range (ePhnum file)) with
    | some (some highest) =>
      let base ← check (alignUpOk highest pageSize)
      let entry ← check (readField file 24 8)
      pure (some (BitVec.ofNat 64 entry, base))
    | _ => pure none
  else pure none

/-! ## No check fails -/

variable {file : List Byte} {ph : Elf64Phdr}

theorem readField_ok {off n : Nat} (inside : off + n ≤ file.length) :
    readField file off n = .ok (field file off n) := if_pos inside

theorem readBytes_ok {off n : Nat} (inside : off + n ≤ file.length) :
    readBytes file off n = .ok ((file.drop off).take n) := if_pos inside

theorem alignUpOk_ok {x : Word} (low : x.toNat ≤ 2 ^ 47) :
    alignUpOk x pageSize = .ok (alignUp x pageSize) := by
  have size : pageSize.toNat = 4096 := rfl
  have sum : (x + pageSize).toNat = x.toNat + 4096 := by
    rw [BitVec.toNat_add, size]
    omega
  have one : (1#64 : Word).toNat ≤ (x + pageSize).toNat := by
    change 1 ≤ _
    omega
  rw [alignUpOk, addOk_ok (by omega)]
  simp only [bind, Except.bind]
  rw [subOk_ok one]
  rfl

theorem rangeOkChecked_ok (start size limit : Word) :
    rangeOkChecked start size limit = .ok (rangeOk start size limit) := by
  unfold rangeOkChecked rangeOk
  split
  · rename_i fits
    rw [subOk_ok fits]
    simp only [bind, Except.bind, fits, true_and]
  · rename_i short
    simp [short]

theorem mapM_ok {α β φ : Type} {f : α → Except φ β} {g : α → β} {xs : List α}
    (each : ∀ x ∈ xs, f x = .ok (g x)) : xs.mapM f = .ok (xs.map g) := by
  induction xs with
  | nil => rfl
  | cons x rest ih =>
    rw [List.mapM_cons, each x (List.mem_cons_self ..),
      ih (fun y member => each y (List.mem_cons_of_mem _ member))]
    rfl

theorem headerOkChecked_ok : headerOkChecked file = .ok (headerOk file) := by
  unfold headerOkChecked headerOk ePhnum ePhoff eEntry
  by_cases short : file.length < elf64EhdrSize
  · rw [if_pos short]
    simp [Nat.not_le.mpr short]
  rw [if_neg short]
  have long : 64 ≤ file.length := Nat.not_lt.mp short
  have ident : (List.range 6).mapM (readField file · 1) =
      Except.ok ((List.range 6).map (field file · 1)) := by
    refine mapM_ok fun i member => readField_ok ?_
    have := List.mem_range.mp member
    omega
  rw [ident, readField_ok (by omega), readField_ok (by omega), readField_ok (by omega),
    readField_ok (by omega), readField_ok (by omega), readField_ok (by omega),
    readField_ok (by omega), readField_ok (by omega)]
  simp only [bind, Except.bind]
  have enough : elf64EhdrSize ≤ file.length := long
  rw [decide_eq_true enough, Bool.true_and]
  split
  · rename_i other
    rw [beq_false_of_ne other]
    rfl
  rename_i magic
  rw [not_not] at magic
  rw [beq_iff_eq.mpr magic, Bool.true_and]
  split
  · rename_i other
    rw [decide_eq_false other]
    rfl
  rename_i machine
  rw [decide_eq_true (not_not.mp machine), Bool.true_and]
  split
  · rename_i other
    rw [decide_eq_false other]
    rfl
  rename_i sizes
  rw [not_not] at sizes
  rw [decide_eq_true sizes, Bool.true_and]
  obtain ⟨_, entsize, _, few⟩ := sizes
  have product : mulOk LoadFault.wraps (BitVec.ofNat 64 (field file 56 2))
      (BitVec.ofNat 64 elf64PhdrSize) = .ok (BitVec.ofNat 64 (field file 56 2 * elf64PhdrSize)) := by
    rw [mulOk_ok, BitVec.ofNat_mul]
    rw [BitVec.toNat_ofNat, BitVec.toNat_ofNat, Nat.mod_eq_of_lt (by omega)]
    change _ * 56 < _
    omega
  rw [entsize, product]
  simp only [rangeOkChecked_ok]
  split
  · rename_i other
    rw [Bool.not_eq_true] at other
    rw [other]
    rfl
  · rename_i inside
    rw [not_not] at inside
    rw [inside, Bool.true_and]

theorem segmentOkChecked_ok : segmentOkChecked file ph = .ok (segmentOk file ph) := by
  unfold segmentOkChecked segmentOk
  split
  · rename_i other
    rw [decide_eq_false other]
    rfl
  rename_i sizes
  rw [decide_eq_true (not_not.mp sizes), Bool.true_and]
  simp only [bind, Except.bind, rangeOkChecked_ok]
  split
  · rename_i other
    rw [Bool.not_eq_true] at other
    rw [other]
    rfl
  rename_i inFile
  rw [not_not.mp inFile, Bool.true_and]
  split
  · rename_i other
    rw [Bool.not_eq_true] at other
    rw [other]
    rfl
  · rename_i inUser
    rw [not_not.mp inUser, Bool.true_and]

/-- The ranges that the checks of a segment establish. -/
theorem segmentOk_ranges (size : file.length < 2 ^ 64) (ok : segmentOk file ph = true) :
    ph.pFilesz.toNat ≤ ph.pMemsz.toNat ∧ ph.pOffset.toNat + ph.pFilesz.toNat ≤ file.length ∧
      ph.pVaddr.toNat + ph.pMemsz.toNat ≤ 2 ^ 47 := by
  simp only [segmentOk, Bool.and_eq_true, decide_eq_true_iff, rangeOk_iff, userSpaceTop_toNat,
    BitVec.toNat_ofNat, Nat.mod_eq_of_lt size] at ok
  exact ⟨ok.1.1.1.1, ok.1.1.2, ok.1.2⟩

/-- The range check of `map_segment_page` repeats what the checks of the segment said. -/
theorem segmentBytesChecked_ok (size : file.length < 2 ^ 64) (ok : segmentOk file ph = true)
    {page : Word} (below : page.toNat < 2 ^ 47) :
    ∃ part, segmentBytes file ph page = some part ∧ segmentBytesChecked file ph page = .ok part ∧
      part.1 < 4096 := by
  obtain ⟨shorter, inFile, inUser⟩ := segmentOk_ranges size ok
  have fileEnd : (ph.pVaddr + ph.pFilesz).toNat = ph.pVaddr.toNat + ph.pFilesz.toNat := by
    rw [BitVec.toNat_add]
    omega
  have pageEnd : (page + pageSize).toNat = page.toNat + 4096 := by
    rw [BitVec.toNat_add, show pageSize.toNat = 4096 from rfl]
    omega
  unfold segmentBytes segmentBytesChecked
  rw [addOk_ok (by rw [show pageSize.toNat = 4096 from rfl]; omega), addOk_ok (by omega)]
  simp only [bind, Except.bind]
  generalize first : (if ph.pVaddr < page then page else ph.pVaddr) = copyStart
  generalize last : (if page + pageSize < ph.pVaddr + ph.pFilesz then page + pageSize
    else ph.pVaddr + ph.pFilesz) = copyEnd
  have start : page.toNat ≤ copyStart.toNat ∧ ph.pVaddr.toNat ≤ copyStart.toNat := by
    rw [← first]
    split
    · rename_i before
      exact ⟨le_refl _, Nat.le_of_lt before⟩
    · rename_i after
      exact ⟨BitVec.not_lt.mp after, le_refl _⟩
  have stop : copyEnd.toNat ≤ page.toNat + 4096 ∧
      copyEnd.toNat ≤ ph.pVaddr.toNat + ph.pFilesz.toNat := by
    rw [← last, ← pageEnd, ← fileEnd]
    split
    · rename_i before
      exact ⟨le_refl _, Nat.le_of_lt before⟩
    · rename_i after
      exact ⟨BitVec.not_lt.mp after, le_refl _⟩
  by_cases copies : copyStart < copyEnd
  · have before : copyStart.toNat < copyEnd.toNat := copies
    have skip : (copyStart - ph.pVaddr).toNat = copyStart.toNat - ph.pVaddr.toNat :=
      BitVec.toNat_sub_of_le (by exact start.2)
    have length : (copyEnd - copyStart).toNat = copyEnd.toNat - copyStart.toNat :=
      BitVec.toNat_sub_of_le (Nat.le_of_lt before)
    have dst : (copyStart - page).toNat = copyStart.toNat - page.toNat :=
      BitVec.toNat_sub_of_le (by exact start.1)
    have fileOff : (ph.pOffset + (copyStart - ph.pVaddr)).toNat =
        ph.pOffset.toNat + (copyStart.toNat - ph.pVaddr.toNat) := by
      rw [BitVec.toNat_add, skip]
      omega
    have inside : rangeOk (ph.pOffset + (copyStart - ph.pVaddr)) (copyEnd - copyStart)
        (BitVec.ofNat 64 file.length) = true := by
      rw [rangeOk_iff, fileOff, length, BitVec.toNat_ofNat, Nat.mod_eq_of_lt size]
      omega
    simp only [if_pos copies, if_pos inside, subOk_ok start.2, subOk_ok start.1,
      subOk_ok (Nat.le_of_lt before),
      addOk_ok (show ph.pOffset.toNat + (copyStart - ph.pVaddr).toNat < 2 ^ 64 by omega),
      rangeOkChecked_ok]
    rw [readBytes_ok (by rw [fileOff, length]; omega)]
    exact ⟨_, rfl, rfl, by rw [dst]; omega⟩
  · simp only [if_neg copies]
    exact ⟨_, rfl, rfl, by decide⟩

theorem allocFrame_aligned (s : MemState) (found : Option Word) (s' : MemState)
    (ran : allocFrame s = .ok found s') : ∀ phys, found = some phys → ∃ f, phys = frameAddr f := by
  have value : found = (pmmAllocFrame s.pmm).1 := by
    cases ran
    rfl
  rintro phys rfl
  unfold pmmAllocFrame at value
  split at value
  · cases value
  · split at value
    · exact ⟨_, Option.some.inj value⟩
    · cases value

/-- An offset into a frame does not carry past the end of the address space. -/
theorem aligned_room {phys : Word} {off : Nat} (aligned : ∃ f, phys = frameAddr f)
    (short : off < 4096) : phys.toNat + (BitVec.ofNat 64 off).toNat < 2 ^ 64 := by
  obtain ⟨f, rfl⟩ := aligned
  rw [frameAddr, BitVec.toNat_ofNat, BitVec.toNat_ofNat, pmmFrameSize]
  omega

theorem mapSegmentPageChecked_safe (size : file.length < 2 ^ 64) (ok : segmentOk file ph = true)
    (pml4 : Nat) {virt : Word} (below : virt.toNat < 2 ^ 47) :
    Safe (mapSegmentPageChecked pml4 file ph virt) (mapSegmentPage pml4 file ph virt) := by
  have page := alignDown_page_toNat virt
  have low : (alignDown virt pageSize).toNat < 2 ^ 47 := by omega
  obtain ⟨part, plain, checked, short⟩ := segmentBytesChecked_ok size ok low
  unfold mapSegmentPageChecked mapSegmentPage
  refine .bind_known (.lift allocFrame) allocFrame_aligned ?_
  rintro (_ | phys) aligned
  · exact .pure false
  refine .bind (.lift _) fun _ => .checked checked ?_
  dsimp only
  rw [plain]
  refine .checked (addOk_ok (aligned_room (aligned phys rfl) short)) ?_
  refine .bind (.lift _) fun _ => .checked (if_pos (lt_userSpaceTop.mpr low)) ?_
  exact .lift _

theorem pagesFrom_ok : ∀ {n : Nat} {page : Word}, page.toNat + n * 4096 < 2 ^ 64 →
    pagesFrom n page = .ok ((List.range n).map fun i => page + BitVec.ofNat 64 (i * 4096)) := by
  intro n
  induction n with
  | zero => exact fun _ => rfl
  | succ n ih =>
    intro page room
    have size : pageSize.toNat = 4096 := rfl
    have next : (page + pageSize).toNat = page.toNat + 4096 := by
      rw [BitVec.toNat_add, size]
      omega
    rw [pagesFrom, addOk_ok (by omega)]
    simp only [bind, Except.bind]
    rw [ih (by omega), List.range_succ_eq_map, List.map_cons, List.map_map]
    have shift : ∀ i, page + pageSize + BitVec.ofNat 64 (i * 4096) =
        page + BitVec.ofNat 64 ((i + 1) * 4096) := by
      intro i
      rw [BitVec.add_assoc, Nat.succ_mul, Nat.add_comm, BitVec.ofNat_add]
      rfl
    simp only [Function.comp_def, Nat.zero_mul, BitVec.add_zero, shift]

theorem segmentPagesChecked_ok (size : file.length < 2 ^ 64) (ok : segmentOk file ph = true) :
    segmentPagesChecked ph = .ok (segmentPages ph) := by
  obtain ⟨_, _, inUser⟩ := segmentOk_ranges size ok
  have top : (ph.pVaddr + ph.pMemsz).toNat = ph.pVaddr.toNat + ph.pMemsz.toNat := by
    rw [BitVec.toNat_add]
    omega
  have first := alignDown_page_toNat ph.pVaddr
  have last := alignUp_page_toNat (ph.pVaddr + ph.pMemsz)
  unfold segmentPagesChecked
  rw [addOk_ok (by omega)]
  simp only [bind, Except.bind]
  rw [alignUpOk_ok (by omega)]
  exact pagesFrom_ok (by omega)

theorem loadSegmentChecked_safe (size : file.length < 2 ^ 64) (pml4 : Nat)
    (highest : Option Word) (ph : Elf64Phdr) :
    Safe (loadSegmentChecked pml4 file highest ph) (loadSegment pml4 file highest ph) := by
  unfold loadSegmentChecked loadSegment
  refine .ite (fun _ => .pure _) fun _ => ?_
  refine .checked segmentOkChecked_ok (.ite (fun _ => .pure _) fun passed => ?_)
  have ok := not_not.mp passed
  obtain ⟨_, _, inUser⟩ := segmentOk_ranges size ok
  have top : (ph.pVaddr + ph.pMemsz).toNat = ph.pVaddr.toNat + ph.pMemsz.toNat := by
    rw [BitVec.toNat_add]
    omega
  have last := alignUp_page_toNat (ph.pVaddr + ph.pMemsz)
  refine .checked (segmentPagesChecked_ok size ok) (.bind (.allM fun v member => ?_) fun done => ?_)
  · have range := mem_pageRange member (by omega)
    exact mapSegmentPageChecked_safe size ok pml4 (by omega)
  · cases done with
    | false => exact .pure none
    | true => exact .checked (addOk_ok (by omega)) (.pure _)

/-- The program headers lie inside the image. -/
theorem headerOk_inside (size : file.length < 2 ^ 64) (ok : headerOk file = true) :
    64 ≤ file.length ∧ ePhnum file ≤ 32 ∧
      (ePhoff file).toNat + ePhnum file * elf64PhdrSize ≤ file.length := by
  simp only [headerOk, Bool.and_eq_true, decide_eq_true_iff, rangeOk_iff, BitVec.toNat_ofNat,
    Nat.mod_eq_of_lt size] at ok
  obtain ⟨⟨⟨⟨⟨long, _⟩, _⟩, _, _, _, few⟩, inside⟩, _⟩ := ok
  have exact_ : ePhnum file * elf64PhdrSize % 2 ^ 64 = ePhnum file * elf64PhdrSize := by
    refine Nat.mod_eq_of_lt ?_
    rw [elf64PhdrSize]
    omega
  rw [exact_] at inside
  exact ⟨long, few, inside⟩

theorem phdrChecked_ok (size : file.length < 2 ^ 64) (ok : headerOk file = true) {i : Nat}
    (lt : i < ePhnum file) :
    phdrChecked file i = .ok (phdrAt file ((ePhoff file).toNat + i * elf64PhdrSize)) := by
  obtain ⟨long, few, inside⟩ := headerOk_inside size ok
  rw [elf64PhdrSize] at inside
  have index : mulOk LoadFault.wraps (BitVec.ofNat 64 i) (BitVec.ofNat 64 elf64PhdrSize) =
      .ok (BitVec.ofNat 64 (i * elf64PhdrSize)) := by
    rw [mulOk_ok, BitVec.ofNat_mul]
    rw [BitVec.toNat_ofNat, BitVec.toNat_ofNat, Nat.mod_eq_of_lt (by omega)]
    change _ * 56 < _
    omega
  have step : (BitVec.ofNat 64 (i * elf64PhdrSize)).toNat = i * elf64PhdrSize := by
    rw [BitVec.toNat_ofNat, Nat.mod_eq_of_lt]
    rw [elf64PhdrSize]
    omega
  have below : i * elf64PhdrSize + elf64PhdrSize ≤ ePhnum file * elf64PhdrSize := by
    rw [elf64PhdrSize]
    omega
  rw [elf64PhdrSize] at below
  have off : (ePhoff file + BitVec.ofNat 64 (i * elf64PhdrSize)).toNat =
      (ePhoff file).toNat + i * elf64PhdrSize := by
    rw [BitVec.toNat_add, step, elf64PhdrSize]
    omega
  have start : addOk LoadFault.wraps (BitVec.ofNat 64 (field file 32 8))
      (BitVec.ofNat 64 (i * elf64PhdrSize)) =
      .ok (ePhoff file + BitVec.ofNat 64 (i * elf64PhdrSize)) := by
    refine addOk_ok ?_
    change (ePhoff file).toNat + _ < _
    rw [step, elf64PhdrSize]
    omega
  unfold phdrChecked
  rw [readField_ok (by omega)]
  simp only [bind, Except.bind, index, start, off]
  rw [elf64PhdrSize] at *
  rw [readField_ok (by omega), readField_ok (by omega), readField_ok (by omega),
    readField_ok (by omega), readField_ok (by omega), readField_ok (by omega),
    readField_ok (by omega)]
  rfl

theorem loadSegmentsChecked_safe (size : file.length < 2 ^ 64) (ok : headerOk file = true)
    (pml4 : Nat) {is : List Nat} : ∀ {highest : Option Word}, (∀ i ∈ is, i < ePhnum file) →
    Safe (loadSegmentsChecked pml4 file highest is) (loadSegments pml4 file highest
      (is.map fun i => phdrAt file ((ePhoff file).toNat + i * elf64PhdrSize))) := by
  induction is with
  | nil => exact fun _ => .pure _
  | cons i rest ih =>
    intro highest few
    rw [loadSegmentsChecked, List.map_cons, loadSegments]
    refine .checked (phdrChecked_ok size ok (few i (List.mem_cons_self ..))) ?_
    refine .bind (loadSegmentChecked_safe size pml4 highest _) ?_
    rintro (_ | next)
    · exact .pure none
    · exact ih fun j member => few j (List.mem_cons_of_mem _ member)

/-- Whatever the memory, the loaded segments end in the user half. -/
theorem loadSegments_end (pml4 : Nat) {phs : List Elf64Phdr} :
    ∀ {highest : Option Word} {s : MemState}, (∀ top, highest = some top → top.toNat ≤ 2 ^ 47) →
    wp (loadSegments pml4 file highest phs) (fun result _ => ∀ top, result = some (some top) →
      top.toNat ≤ 2 ^ 47) (fun _ _ => True) s := by
  induction phs with
  | nil =>
    rintro highest s ends top ⟨rfl⟩
    exact ends top rfl
  | cons ph rest ih =>
    intro highest s ends
    have one : wp (loadSegment pml4 file highest ph) (fun result _ => ∀ next, result = some next →
        ∀ top, next = some top → top.toNat ≤ 2 ^ 47) (fun _ _ => True) s := by
      unfold loadSegment
      refine wp_ite (fun _ => ?_) fun _ => wp_ite (fun _ => ?_) fun passed => ?_
      · rintro next ⟨rfl⟩
        exact ends
      · rintro next ⟨⟩
      have inUser := (segmentOk_inside (not_not.mp passed)).2
      refine wp_seq (wp_true _) ?_
      rintro (_ | _) s' _
      · rintro next ⟨⟩
      · rintro next ⟨rfl⟩ top ⟨rfl⟩
        have sum : (ph.pVaddr + ph.pMemsz).toNat = ph.pVaddr.toNat + ph.pMemsz.toNat := by
          rw [BitVec.toNat_add]
          omega
        split
        · omega
        · cases highest with
          | none => exact Nat.zero_le _
          | some top => exact ends top rfl
    rw [loadSegments]
    refine wp_seq one ?_
    rintro (_ | next) s' after
    · rintro top ⟨⟩
    · exact ih (after next rfl)

/-- **Loading is safe on arbitrary bytes.** For every image, and whatever the memory, the
checked loader never meets a fault and does what the loader does: every byte it reads lies
inside the image, none of its 64-bit computations wraps, every page it maps lies below
`USER_SPACE_TOP`, and the range check inside `map_segment_page` does not fail. -/
theorem elf_load_safe {file : List Byte} (size : file.length < 2 ^ 64) (pml4 : Nat) :
    (elfLoadChecked pml4 file).run = Except.ok <$> elfLoadUserImage pml4 file := by
  change Safe (elfLoadChecked pml4 file) (elfLoadUserImage pml4 file)
  unfold elfLoadChecked elfLoadUserImage
  refine .checked headerOkChecked_ok (.ite (fun ok => ?_) fun _ => .pure none)
  have long := (headerOk_inside size ok).1
  have ends : ∀ s result s', loadSegments pml4 file none (phdrs file) s = .ok result s' →
      ∀ top, result = some (some top) → top.toNat ≤ 2 ^ 47 :=
    fun s result s' ran => wp_ok (loadSegments_end pml4 (by rintro top ⟨⟩)) ran
  refine .bind_known (loadSegmentsChecked_safe size ok pml4 fun i => List.mem_range.mp) ends ?_
  rintro (_ | _ | highest) low
  · exact .pure none
  · exact .pure none
  · exact .checked (alignUpOk_ok (low highest rfl)) (.checked (readField_ok (by omega)) (.pure _))

/-- The program of one page. -/
theorem elf_load_safe_small :
    smallProgram.length < 2 ^ 64 ∧
      (elfLoadChecked 8 smallProgram).run = Except.ok <$> elfLoadUserImage 8 smallProgram :=
  have size : smallProgram.length < 2 ^ 64 := by decide +kernel
  ⟨size, elf_load_safe size 8⟩

end LithiumKernel.Proc
