import LithiumKernel.Syscall.Memory

/-!
# Loading programs (kernel/proc/elf.c, and `load_user_image` of kernel/sched/task.c)

The ELF file is a list of bytes in which the headers are read at their offsets; the
unused header fields are left out. A segment page is a fresh frame that holds the part of
the file that belongs to it and zeros elsewhere. `none` stands for the failure returns;
pages mapped before a failure are left to `vmm_destroy_user_address_space`.
-/
namespace LithiumKernel.Proc

open LithiumKernel.Lib LithiumKernel.Mm LithiumKernel.Syscall

/-! ## Headers -/

/-- A little-endian field of `n` bytes at an offset of the file. -/
def field (file : List Byte) (off n : Nat) : Nat :=
  (List.range n).foldr (fun i acc => (file.getD (off + i) 0#8).toNat + 256 * acc) 0

def elf64EhdrSize : Nat := 64
def elf64PhdrSize : Nat := 56

structure Elf64Phdr where
  pType : Nat
  pFlags : Nat
  pOffset : Word
  pVaddr : Word
  pFilesz : Word
  pMemsz : Word
  pAlign : Word
  deriving DecidableEq

def phdrAt (file : List Byte) (off : Nat) : Elf64Phdr where
  pType := field file off 4
  pFlags := field file (off + 4) 4
  pOffset := BitVec.ofNat 64 (field file (off + 8) 8)
  pVaddr := BitVec.ofNat 64 (field file (off + 16) 8)
  pFilesz := BitVec.ofNat 64 (field file (off + 32) 8)
  pMemsz := BitVec.ofNat 64 (field file (off + 40) 8)
  pAlign := BitVec.ofNat 64 (field file (off + 48) 8)

def eEntry (file : List Byte) : Word := BitVec.ofNat 64 (field file 24 8)
def ePhoff (file : List Byte) : Word := BitVec.ofNat 64 (field file 32 8)
def ePhnum (file : List Byte) : Nat := field file 56 2

def phdrs (file : List Byte) : List Elf64Phdr :=
  (List.range (ePhnum file)).map fun i => phdrAt file ((ePhoff file).toNat + i * elf64PhdrSize)

def rangeOk (start size limit : Word) : Bool := decide (size ≤ limit ∧ start ≤ limit - size)

/-- The checks on the ELF header. -/
def headerOk (file : List Byte) : Bool :=
  decide (elf64EhdrSize ≤ file.length) &&
  (List.range 6).map (field file · 1) == [0x7f, 0x45, 0x4c, 0x46, 2, 1] &&
  -- ET_EXEC, EM_X86_64, EV_CURRENT
  decide (field file 16 2 = 2 ∧ field file 18 2 = 62 ∧ field file 20 4 = 1) &&
  decide (field file 52 2 = elf64EhdrSize ∧ field file 54 2 = elf64PhdrSize ∧
    ePhnum file ≠ 0 ∧ ePhnum file ≤ 32) &&
  rangeOk (ePhoff file) (BitVec.ofNat 64 (ePhnum file * elf64PhdrSize))
    (BitVec.ofNat 64 file.length) &&
  decide (eEntry file ≠ 0#64 ∧ eEntry file < userSpaceTop)

def ptLoad : Nat := 1

/-- The checks on a loadable segment. -/
def segmentOk (file : List Byte) (ph : Elf64Phdr) : Bool :=
  decide (ph.pFilesz ≤ ph.pMemsz ∧ ph.pMemsz ≠ 0#64) &&
  rangeOk ph.pOffset ph.pFilesz (BitVec.ofNat 64 file.length) &&
  rangeOk ph.pVaddr ph.pMemsz userSpaceTop &&
  decide (ph.pAlign = 0#64 ∨ ph.pAlign = pageSize)

/-! ## Segments -/

/-- The part of the file that `map_segment_page` copies to the page: where it starts in
the page, and the bytes; `none` if the file does not hold them. -/
def segmentBytes (file : List Byte) (ph : Elf64Phdr) (page : Word) : Option (Nat × List Byte) :=
  let segFileEnd := ph.pVaddr + ph.pFilesz
  let copyStart := if ph.pVaddr < page then page else ph.pVaddr
  let copyEnd := if page + pageSize < segFileEnd then page + pageSize else segFileEnd
  if copyStart < copyEnd then
    let fileOff := ph.pOffset + (copyStart - ph.pVaddr)
    if rangeOk fileOff (copyEnd - copyStart) (BitVec.ofNat 64 file.length) then
      some ((copyStart - page).toNat,
        (file.drop fileOff.toNat).take (copyEnd - copyStart).toNat)
    else none
  else some (0, [])

def segmentFlags (ph : Elf64Phdr) : Word :=
  vmmUser ||| (if ph.pFlags &&& 2 ≠ 0 then vmmWrite else 0#64) |||
    (if ph.pFlags &&& 1 = 0 then vmmNx else 0#64)

def mapSegmentPage (pml4 : Nat) (file : List Byte) (ph : Elf64Phdr) (virt : Word) : MmM Bool := do
  match ← allocFrame with
  | none => pure false
  | some phys =>
    zeroFrame (frameOf phys)
    let page := alignDown virt pageSize
    match segmentBytes file ph page with
    | none =>
      freeFrame phys
      pure false
    | some (off, bytes) =>
      writeBytes (phys + BitVec.ofNat 64 off) bytes
      mapOrFree pml4 page phys (segmentFlags ph)

def segmentPages (ph : Elf64Phdr) : List Word :=
  pageRange (alignDown ph.pVaddr pageSize) (alignUp (ph.pVaddr + ph.pMemsz) pageSize)

/-- One program header: `none` is the failure return, otherwise the new highest end. -/
def loadSegment (pml4 : Nat) (file : List Byte) (highest : Option Word) (ph : Elf64Phdr) :
    MmM (Option (Option Word)) :=
  if ph.pType ≠ ptLoad then pure (some highest)
  else if ¬ segmentOk file ph then pure none
  else do
    if ← (segmentPages ph).allM (mapSegmentPage pml4 file ph) then
      let top := ph.pVaddr + ph.pMemsz
      pure (some (some (if highest.getD 0#64 < top then top else highest.getD 0#64)))
    else pure none

/-- The loop over the program headers; `highest` is `none` until a segment was loaded. -/
def loadSegments (pml4 : Nat) (file : List Byte) :
    Option Word → List Elf64Phdr → MmM (Option (Option Word))
  | highest, [] => pure (some highest)
  | highest, ph :: rest => do
    match ← loadSegment pml4 file highest ph with
    | none => pure none
    | some next => loadSegments pml4 file next rest

/-- The entry point and the base of the break. -/
def elfLoadUserImage (pml4 : Nat) (file : List Byte) : MmM (Option (Word × Word)) :=
  if headerOk file then do
    match ← loadSegments pml4 file none (phdrs file) with
    | some (some highest) => pure (some (eEntry file, alignUp highest pageSize))
    | _ => pure none
  else pure none

/-! ## Images -/

def userStackTop : Word := 0x40100000#64

/-- What `load_user_image` returns: the root, the frame of the stack page and the base of
the break. -/
structure UserImage where
  cr3 : Nat
  stackPhys : Word
  brkBase : Word

/-- The stack page at the top of the user stack. -/
def mapStackPage (pml4 : Nat) : MmM (Option Word) := do
  match ← allocFrame with
  | none => pure none
  | some phys =>
    zeroFrame (frameOf phys)
    if ← mapOrFree pml4 (userStackTop - pageSize) phys (vmmUser ||| vmmWrite ||| vmmNx) then
      pure (some phys)
    else pure none

def loadUserImage (file : List Byte) : MmM (Option UserImage) :=
  if file.length = 0 then pure none
  else do
    match ← vmmCreateAddressSpace with
    | none => pure none
    | some pml4 =>
      match ← elfLoadUserImage pml4 file with
      | none =>
        vmmDestroyUserAddressSpace pml4
        pure none
      | some (_, brkBase) =>
        match ← mapStackPage pml4 with
        | none =>
          vmmDestroyUserAddressSpace pml4
          pure none
        | some stackPhys => pure (some ⟨pml4, stackPhys, brkBase⟩)

def UserImage.task (image : UserImage) : UserTask :=
  ⟨image.cr3, image.brkBase, image.brkBase, userMmapBase⟩

/-- The address-space part of `task_create_user_elf`. -/
def createUserElf (file : List Byte) : MmM (Option UserTask) := do
  match ← loadUserImage file with
  | none => pure none
  | some image => pure (some image.task)

/-- The address-space part of `task_replace_user_elf` for the current task: the new image
with its stack, the switch to it and the end of the old address space. -/
def replaceUserElf (task : UserTask) (file stack : List Byte) (rsp : Word) :
    MmM (Option UserTask) := do
  match ← loadUserImage file with
  | none => pure none
  | some image =>
    if 4096 < stack.length ∨ rsp < userStackTop - pageSize ∨ userStackTop < rsp then
      vmmDestroyUserAddressSpace image.cr3
      pure none
    else
      writeBytes image.stackPhys stack
      vmmSwitch image.cr3
      vmmDestroyUserAddressSpace task.cr3
      pure (some image.task)

/-! ## Loading keeps the memory sound -/

/-- Every segment the file asks to load lies above the first 2 MiB. -/
def SegmentsHigh (file : List Byte) : Prop :=
  ∀ ph ∈ phdrs file, ph.pType = ptLoad → 2 ^ 21 ≤ ph.pVaddr.toNat

instance (file : List Byte) : Decidable (SegmentsHigh file) :=
  inferInstanceAs (Decidable (∀ ph ∈ phdrs file, _))

variable {K : KernelTables} {roots : List Nat} {c r : Nat} {s : MemState}

theorem rangeOk_iff {start size limit : Word} :
    rangeOk start size limit = true ↔ start.toNat + size.toNat ≤ limit.toNat := by
  rw [rangeOk, decide_eq_true_iff, BitVec.le_def, BitVec.le_def, BitVec.toNat_sub]
  have := start.isLt
  have := limit.isLt
  omega

theorem segmentOk_inside {file : List Byte} {ph : Elf64Phdr} (ok : segmentOk file ph = true) :
    ph.pFilesz.toNat ≤ ph.pMemsz.toNat ∧ ph.pVaddr.toNat + ph.pMemsz.toNat ≤ 2 ^ 47 := by
  simp only [segmentOk, Bool.and_eq_true, decide_eq_true_iff, rangeOk_iff, userSpaceTop_toNat] at ok
  exact ⟨ok.1.1.1.1, ok.1.2⟩

theorem segmentOk_file {file : List Byte} {ph : Elf64Phdr} (ok : segmentOk file ph = true) :
    ph.pOffset.toNat + ph.pFilesz.toNat < 2 ^ 64 := by
  simp only [segmentOk, Bool.and_eq_true, decide_eq_true_iff, rangeOk_iff] at ok
  have limit := (BitVec.ofNat 64 file.length).isLt
  omega

/-- The copied part of a segment page stays inside the page. -/
theorem segmentBytes_fits {file : List Byte} {ph : Elf64Phdr} {page : Word} {off : Nat}
    {bytes : List Byte} (ok : segmentOk file ph = true) (below : page.toNat < 2 ^ 47)
    (found : segmentBytes file ph page = some (off, bytes)) : off + bytes.length ≤ 4096 := by
  obtain ⟨size, room⟩ := segmentOk_inside ok
  have fileEnd : (ph.pVaddr + ph.pFilesz).toNat = ph.pVaddr.toNat + ph.pFilesz.toNat := by
    rw [BitVec.toNat_add]
    omega
  have pageEnd : (page + pageSize).toNat = page.toNat + 4096 := by
    rw [BitVec.toNat_add, show pageSize.toNat = 4096 from by decide]
    omega
  unfold segmentBytes at found
  dsimp only at found
  generalize first : (if ph.pVaddr < page then page else ph.pVaddr) = copyStart at found
  generalize last : (if page + pageSize < ph.pVaddr + ph.pFilesz then page + pageSize
    else ph.pVaddr + ph.pFilesz) = copyEnd at found
  have start : page.toNat ≤ copyStart.toNat := by
    rw [← first]
    split
    · exact le_refl _
    · rename_i after
      exact BitVec.not_lt.mp after
  have stop : copyEnd.toNat ≤ page.toNat + 4096 := by
    rw [← last, ← pageEnd]
    split
    · exact le_refl _
    · rename_i before
      exact BitVec.not_lt.mp before
  split at found
  · rename_i copies
    have before : copyStart.toNat < copyEnd.toNat := copies
    split at found
    · obtain ⟨rfl, rfl⟩ := Prod.mk.inj (Option.some.inj found)
      rw [List.length_take, BitVec.toNat_sub, BitVec.toNat_sub]
      omega
    · cases found
  · obtain ⟨rfl, rfl⟩ := Prod.mk.inj (Option.some.inj found)
    decide

theorem segmentFlags_user (ph : Elf64Phdr) : segmentFlags ph &&& vmmUser ≠ 0#64 := by
  unfold segmentFlags
  split <;> split <;> decide

theorem mapSegmentPage_sound {file : List Byte} {ph : Elf64Phdr} {virt : Word}
    (ok : segmentOk file ph = true) (root : r ∈ roots) (low : 2 ^ 21 ≤ virt.toNat)
    (below : virt.toNat < 2 ^ 47) (h : Sound K roots c s) :
    wp (mapSegmentPage r file ph virt) (fun _ s' => Sound K roots c s') Saturated s := by
  obtain ⟨rfl, g, sys⟩ := h
  have page := alignDown_page_toNat virt
  unfold mapSegmentPage
  rw [wp_bind]
  apply allocFrame_spec sys.vm
  · intro _
    exact ⟨rfl, g, sys⟩
  intro f q lt zero evolves counts _
  have small := sys.vm.frame_small lt
  rw [wp_bind, wp_zeroFrame, frameOf_frameAddr small]
  dsimp only
  cases copied : segmentBytes file ph (alignDown virt pageSize) with
  | none =>
    dsimp only
    rw [wp_bind]
    refine freeFrame_spec evolves.ok (by change f < q.totalFrames; rwa [evolves.total])
      (by change 0 < q.refcount f; rw [counts, Function.update_self]; decide) ?_
    intro q' evolves' counts'
    exact ⟨rfl, g, sys.effect (.quiet (sys.vm.borrowed lt zero evolves counts evolves' counts' _))⟩
  | some part =>
    obtain ⟨off, bytes⟩ := part
    dsimp only
    refine wp_seq (writeBytes_within small off (segmentBytes_fits ok (by omega) copied)) ?_
    rintro _ s₁ ⟨contents, rfl⟩
    dsimp only
    rw [Function.update_idem]
    refine wp_imp (sys.mapOrFree_user root (by omega) (lt_userSpaceTop.mpr (by omega))
      (segmentFlags_user ph) lt zero evolves counts contents) ?_
    rintro _ s' ⟨cur, g', after, _⟩
    exact ⟨cur, g', after⟩

/-- The highest end of the segments loaded so far lies above 2 MiB in the user half. -/
def EndOk (highest : Option Word) : Prop :=
  ∀ top, highest = some top → 2 ^ 21 ≤ top.toNat ∧ top.toNat ≤ 2 ^ 47

theorem loadSegment_sound {file : List Byte} {ph : Elf64Phdr} {highest : Option Word}
    (high : ph.pType = ptLoad → 2 ^ 21 ≤ ph.pVaddr.toNat) (ends : EndOk highest)
    (root : r ∈ roots) (h : Sound K roots c s) :
    wp (loadSegment r file highest ph) (fun result s' => Sound K roots c s' ∧
      ∀ next, result = some next → EndOk next) Saturated s := by
  unfold loadSegment
  apply wp_ite
  · intro _
    refine ⟨h, ?_⟩
    rintro next ⟨rfl⟩
    exact ends
  intro loads
  apply wp_ite
  · intro _
    exact ⟨h, fun next none => by cases none⟩
  intro ok
  have ok := not_not.mp ok
  have low := high (not_not.mp loads)
  obtain ⟨size, room⟩ := segmentOk_inside ok
  have top : (ph.pVaddr + ph.pMemsz).toNat = ph.pVaddr.toNat + ph.pMemsz.toNat := by
    rw [BitVec.toNat_add]
    omega
  have first := alignDown_page_toNat ph.pVaddr
  have last := alignUp_page_toNat (ph.pVaddr + ph.pMemsz)
  refine wp_seq (wp_allM_inv (Sound K roots c) ?_ h) ?_
  · intro v member s₁ now
    have range := mem_pageRange member (by omega)
    exact mapSegmentPage_sound ok root (by omega) (by omega) now
  · rintro (_ | _) s₁ now
    · exact ⟨now, fun next none => by cases none⟩
    · refine ⟨now, ?_⟩
      rintro next ⟨rfl⟩ w ⟨rfl⟩
      split
      · omega
      · rename_i older
        cases highest with
        | none =>
          have zero : (ph.pVaddr + ph.pMemsz).toNat ≤ 0 := BitVec.not_lt.mp older
          omega
        | some w => exact ends w rfl

theorem loadSegments_sound {file : List Byte} (root : r ∈ roots) {phs : List Elf64Phdr} :
    ∀ {highest : Option Word} {s : MemState},
    (∀ ph ∈ phs, ph.pType = ptLoad → 2 ^ 21 ≤ ph.pVaddr.toNat) → EndOk highest →
    Sound K roots c s →
    wp (loadSegments r file highest phs) (fun result s' => Sound K roots c s' ∧
      ∀ next, result = some next → EndOk next) Saturated s := by
  induction phs with
  | nil =>
    intro highest s _ ends h
    refine ⟨h, ?_⟩
    rintro next ⟨rfl⟩
    exact ends
  | cons ph rest ih =>
    intro highest s high ends h
    rw [loadSegments]
    refine wp_seq (loadSegment_sound (high ph (by simp)) ends root h) ?_
    rintro (_ | next) s₁ ⟨now, ends₁⟩
    · exact ⟨now, fun next none => by cases none⟩
    · exact ih (fun ph' member => high ph' (List.mem_cons_of_mem _ member)) (ends₁ next rfl) now

theorem elfLoadUserImage_sound {file : List Byte} (high : SegmentsHigh file) (root : r ∈ roots)
    (h : Sound K roots c s) :
    wp (elfLoadUserImage r file) (fun result s' => Sound K roots c s' ∧
      ∀ entry base, result = some (entry, base) → 2 ^ 21 ≤ base.toNat ∧ base.toNat ≤ 2 ^ 47)
      Saturated s := by
  unfold elfLoadUserImage
  apply wp_ite
  · intro _
    refine wp_seq (loadSegments_sound root high (fun top none => by cases none) h) ?_
    rintro (_ | _ | highest) s₁ ⟨now, ends⟩
    · exact ⟨now, fun _ _ none => by cases none⟩
    · exact ⟨now, fun _ _ none => by cases none⟩
    · refine ⟨now, ?_⟩
      intro entry base eq
      obtain ⟨-, rfl⟩ := Prod.mk.inj (Option.some.inj eq)
      have inside := ends _ rfl highest rfl
      have value := alignUp_page_toNat highest
      omega
  · intro _
    exact ⟨h, fun _ _ none => by cases none⟩

/-- The physical address of a frame that may be written: no table and not shared. -/
def Scratch (K : KernelTables) (g : SpaceGhost) (phys : Word) : Prop :=
  ∃ f, f < 2 ^ 40 ∧ phys = frameAddr f ∧ g.role f = none ∧ ¬ K.Shared f

theorem mapStackPage_sound (root : r ∈ roots) (h : Sound K roots c s) :
    wp (mapStackPage r) (fun result s' => s'.cr3 = c ∧ ∃ g', System K roots s' g' ∧
      ∀ phys, result = some phys → Scratch K g' phys) Saturated s := by
  obtain ⟨rfl, g, sys⟩ := h
  unfold mapStackPage
  rw [wp_bind]
  apply allocFrame_spec sys.vm
  · intro _
    exact ⟨rfl, g, sys, fun phys none => by cases none⟩
  intro f q lt zero evolves counts _
  have small := sys.vm.frame_small lt
  rw [wp_bind, wp_zeroFrame, frameOf_frameAddr small]
  refine wp_seq (sys.mapOrFree_user root (by decide) (by decide) (by decide) lt zero evolves counts
    blankPage) ?_
  rintro (_ | _) s' ⟨cur, g', after, data, free⟩
  · exact ⟨cur, g', after, fun phys none => by cases none⟩
  · refine ⟨cur, g', after, ?_⟩
    rintro phys ⟨rfl⟩
    exact ⟨f, small, rfl, data, free⟩

/-- A loaded image: its space is live, its stack page can be filled, its limits are good. -/
def Loaded (K : KernelTables) (roots : List Nat) (c : Nat) (image : UserImage) (s : MemState) :
    Prop :=
  s.cr3 = c ∧ image.cr3 ≠ c ∧ image.task.Ok ∧
    ∃ g, System K (image.cr3 :: roots) s g ∧ Scratch K g image.stackPhys

theorem loadUserImage_sound {file : List Byte} (high : SegmentsHigh file)
    (h : Sound K roots c s) :
    wp (loadUserImage file) (fun result s' => match result with
      | none => Sound K roots c s'
      | some image => Loaded K roots c image s') Saturated s := by
  unfold loadUserImage
  apply wp_ite
  · intro _
    exact h
  intro _
  refine wp_seq (vmmCreateAddressSpace_sound h) ?_
  rintro (_ | pml4) s₁ made
  · exact made
  obtain ⟨now, idle⟩ := made
  -- a failure after this point destroys the new space again
  have undo : ∀ {s₂}, Sound K (pml4 :: roots) c s₂ → wp (vmmDestroyUserAddressSpace pml4)
      (fun _ s₃ => Sound K roots c s₃) Saturated s₂ := by
    intro s₂ here
    have gone := vmmDestroyUserAddressSpace_sound (List.mem_cons_self ..) idle here
    rwa [List.erase_cons_head] at gone
  refine wp_seq (elfLoadUserImage_sound high (List.mem_cons_self ..) now) ?_
  rintro (_ | ⟨entry, brkBase⟩) s₂ ⟨now₂, limits⟩
  · exact wp_seq (undo now₂) (fun _ _ after => after)
  refine wp_seq (mapStackPage_sound (List.mem_cons_self ..) now₂) ?_
  rintro (_ | stackPhys) s₃ ⟨cur, g, sys, scratch⟩
  · exact wp_seq (undo ⟨cur, g, sys⟩) (fun _ _ after => after)
  · obtain ⟨brkLow, brkTop⟩ := limits entry brkBase rfl
    have mmapLow : 2 ^ 21 ≤ userMmapBase.toNat := by decide
    have mmapTop : userMmapBase.toNat ≤ 2 ^ 47 := by decide
    exact ⟨cur, idle, ⟨brkLow, le_refl _, brkTop, mmapLow, mmapTop⟩, g, sys,
      scratch stackPhys rfl⟩

theorem createUserElf_sound {file : List Byte} (high : SegmentsHigh file)
    (h : Sound K roots c s) :
    wp (createUserElf file) (fun result s' => match result with
      | none => Sound K roots c s'
      | some task => Sound K (task.cr3 :: roots) c s' ∧ task.Ok) Saturated s := by
  refine wp_seq (loadUserImage_sound high h) ?_
  rintro (_ | image) s₁ loaded
  · exact loaded
  · obtain ⟨cur, _, ok, g, sys, _⟩ := loaded
    exact ⟨⟨cur, g, sys⟩, ok⟩

theorem replaceUserElf_sound {file : List Byte} (stack : List Byte) (rsp : Word) {task : UserTask}
    (high : SegmentsHigh file) (root : task.cr3 ∈ roots) (h : Sound K roots task.cr3 s) :
    wp (replaceUserElf task file stack rsp) (fun result s' => match result with
      | none => Sound K roots task.cr3 s'
      | some task' => Sound K (task'.cr3 :: roots.erase task.cr3) task'.cr3 s' ∧ task'.Ok)
      Saturated s := by
  unfold replaceUserElf
  refine wp_seq (loadUserImage_sound high h) ?_
  rintro (_ | image) s₁ loaded
  · exact loaded
  obtain ⟨cur, idle, ok, g, sys, f, small, phys, data, free⟩ := loaded
  apply wp_ite
  · intro _
    have gone := vmmDestroyUserAddressSpace_sound (List.mem_cons_self ..) idle ⟨cur, g, sys⟩
    rw [List.erase_cons_head] at gone
    exact wp_seq gone (fun _ _ after => after)
  · intro fits
    rw [not_or] at fits
    have start : image.stackPhys = frameAddr f + BitVec.ofNat 64 0 := by simpa using phys
    rw [start]
    refine wp_seq (writeBytes_within small 0 (by omega)) ?_
    rintro _ s₂ ⟨page, rfl⟩
    have written := sys.scribble data free page
    have loadedNew : Sound K (image.cr3 :: roots) image.cr3
        { s₁ with mem := Function.update s₁.mem f page, cr3 := image.cr3 } :=
      ⟨rfl, g, written.effect (.switched (.inr (List.mem_cons_self ..)))⟩
    rw [vmmSwitch, wp_bind, wp_modify]
    refine wp_seq (vmmDestroyUserAddressSpace_sound (List.mem_cons_of_mem _ root) (Ne.symm idle)
      loadedNew) ?_
    intro _ s₃ after
    rw [List.erase_cons_tail (by simpa using idle)] at after
    exact ⟨after, ok⟩

end LithiumKernel.Proc
