import LithiumKernel.Lib.Wp
import LithiumKernel.Lib.Forest
import LithiumKernel.Mm.PageEntry

/-!
# Virtual memory manager (kernel/mm/vmm.c)

Physical memory is an array of frames of 512 aligned words. The kernel reaches a
frame through its physical address (vmm.c: "physical == virtual"), so a `pte_t *` to
a table is the number of the frame it lies in, and `none` is `NULL`. Table entries
are words of that memory, which keeps the sharing between address spaces visible.

A computation in `MmM` changes the memory and the frame pool and stops with the
`KASSERT` that fails. `true` stands for a return value of 0, `false` for -1. The TLB
is not modelled: every `invlpg` concerns the address space that is loaded.
-/
namespace LithiumKernel.Mm

open LithiumKernel.Lib LithiumKernel.Lib.Forest

abbrev PhysMem := Nat → Idx → Word

/-- What the memory managers own, and the page-table root in CR3. -/
structure MemState where
  pmm : Pmm
  mem : PhysMem
  cr3 : Nat
  kheapNext : Word

abbrev MmM := EStateM Kassert MemState

/-! ## Access to the pool and to memory -/

def allocFrame : MmM (Option Word) := fun s =>
  .ok (pmmAllocFrame s.pmm).1 { s with pmm := (pmmAllocFrame s.pmm).2 }

def freeFrame (phys : Word) : MmM Unit := fun s =>
  match pmmFreeFrame s.pmm phys with
  | .ok p => .ok () { s with pmm := p }
  | .error e => .error e s

def refFrame (phys : Word) : MmM Unit := fun s =>
  match pmmRefFrame s.pmm phys with
  | .ok p => .ok () { s with pmm := p }
  | .error e => .error e s

def frameRefcount (phys : Word) : MmM Nat := fun s =>
  match pmmFrameRefcount s.pmm phys with
  | .ok n => .ok n s
  | .error e => .error e s

def readEntry (t : Nat) (i : Idx) : MmM Word := fun s => .ok (s.mem t i) s

def writeEntry (t : Nat) (i : Idx) (w : Word) : MmM Unit := fun s =>
  .ok () { s with mem := store s.mem t i w }

/-- `memset` of a whole frame to zero. -/
def zeroFrame (f : Nat) : MmM Unit := fun s =>
  .ok () { s with mem := Function.update s.mem f (fun _ => 0#64) }

/-- `memcpy` of a whole frame. -/
def copyFrame (dst src : Nat) : MmM Unit := fun s =>
  .ok () { s with mem := Function.update s.mem dst (s.mem src) }

/-! ## Walks -/

def ptWalkOrAlloc (t : Nat) (i : Idx) : MmM (Option Nat) := do
  let e ← readEntry t i
  if e &&& vmmPresent ≠ 0#64 then pure (some (frameOf e))
  else match ← allocFrame with
    | none => pure none
    | some phys => do
      zeroFrame (frameOf phys)
      writeEntry t i (tableEntry phys)
      pure (some (frameOf phys))

def vmmGetPte (mem : PhysMem) (pml4 : Nat) (virt : Word) : Option (Nat × Idx) :=
  if mem pml4 (pml4Idx virt) &&& vmmPresent = 0#64 then none
  else
    let pdpt := frameOf (mem pml4 (pml4Idx virt))
    if mem pdpt (pdptIdx virt) &&& vmmPresent = 0#64 ∨
        mem pdpt (pdptIdx virt) &&& vmmHuge ≠ 0#64 then none
    else
      let pd := frameOf (mem pdpt (pdptIdx virt))
      if mem pd (pdIdx virt) &&& vmmPresent = 0#64 ∨
          mem pd (pdIdx virt) &&& vmmHuge ≠ 0#64 then none
      else some (frameOf (mem pd (pdIdx virt)), ptIdx virt)

/-- `none` stands for `PMM_ALLOC_FAILED`. -/
def vmmGetPhysical (mem : PhysMem) (pml4 : Nat) (virt : Word) : Option Word :=
  if mem pml4 (pml4Idx virt) &&& vmmPresent = 0#64 then none
  else
    let pdpt := frameOf (mem pml4 (pml4Idx virt))
    if mem pdpt (pdptIdx virt) &&& vmmPresent = 0#64 then none
    else if mem pdpt (pdptIdx virt) &&& vmmHuge ≠ 0#64 then
      some ((mem pdpt (pdptIdx virt) &&& 0x000FFFFFC0000000#64) ||| (virt &&& 0x3FFFFFFF#64))
    else
      let pd := frameOf (mem pdpt (pdptIdx virt))
      if mem pd (pdIdx virt) &&& vmmPresent = 0#64 then none
      else if mem pd (pdIdx virt) &&& vmmHuge ≠ 0#64 then
        some ((mem pd (pdIdx virt) &&& 0x000FFFFFFFE00000#64) ||| (virt &&& 0x1FFFFF#64))
      else
        let pt := frameOf (mem pd (pdIdx virt))
        if mem pt (ptIdx virt) &&& vmmPresent = 0#64 then none
        else some ((mem pt (ptIdx virt) &&& vmmPhysMask) ||| (virt &&& 0xFFF#64))

def vmmGetFlags (mem : PhysMem) (pml4 : Nat) (virt : Word) : Word :=
  if mem pml4 (pml4Idx virt) &&& vmmPresent = 0#64 then 0#64
  else
    let pdpt := frameOf (mem pml4 (pml4Idx virt))
    if mem pdpt (pdptIdx virt) &&& vmmPresent = 0#64 then 0#64
    else if mem pdpt (pdptIdx virt) &&& vmmHuge ≠ 0#64 then
      mem pdpt (pdptIdx virt) &&& ~~~vmmPhysMask
    else
      let pd := frameOf (mem pdpt (pdptIdx virt))
      if mem pd (pdIdx virt) &&& vmmPresent = 0#64 then 0#64
      else if mem pd (pdIdx virt) &&& vmmHuge ≠ 0#64 then
        mem pd (pdIdx virt) &&& ~~~vmmPhysMask
      else
        let pt := frameOf (mem pd (pdIdx virt))
        if mem pt (ptIdx virt) &&& vmmPresent = 0#64 then 0#64
        else mem pt (ptIdx virt) &&& ~~~vmmPhysMask

/-- Where an address goes, and the flags on the way. -/
def translation (mem : PhysMem) (pml4 : Nat) (virt : Word) : Option Word × Word :=
  (vmmGetPhysical mem pml4 virt, vmmGetFlags mem pml4 virt)

/-! ## Mapping and unmapping -/

/-- `if (flags & VMM_USER) t[i] |= VMM_USER`. -/
def markUser (flags : Word) (t : Nat) (i : Idx) : MmM Unit :=
  if flags &&& vmmUser ≠ 0#64 then do
    let e ← readEntry t i
    writeEntry t i (e ||| vmmUser)
  else pure ()

/-- `vmm_map_page` from the PDPT down. -/
def mapBelowPdpt (pdpt : Nat) (virt phys flags : Word) : MmM Bool := do
  match ← ptWalkOrAlloc pdpt (pdptIdx virt) with
  | none => pure false
  | some pd =>
    markUser flags pdpt (pdptIdx virt)
    -- a 2 MiB page is never split silently
    let e ← readEntry pd (pdIdx virt)
    if e &&& vmmHuge ≠ 0#64 then pure false
    else
      match ← ptWalkOrAlloc pd (pdIdx virt) with
      | none => pure false
      | some pt =>
        markUser flags pd (pdIdx virt)
        writeEntry pt (ptIdx virt) (leafEntry phys flags)
        pure true

def vmmMapPage (pml4 : Nat) (virt phys flags : Word) : MmM Bool := do
  match ← ptWalkOrAlloc pml4 (pml4Idx virt) with
  | none => pure false
  | some pdpt =>
    markUser flags pml4 (pml4Idx virt)
    mapBelowPdpt pdpt virt phys flags

def vmmUnmapPage (pml4 : Nat) (virt : Word) : MmM Unit := do
  let e4 ← readEntry pml4 (pml4Idx virt)
  if e4 &&& vmmPresent = 0#64 then pure ()
  else
    let e3 ← readEntry (frameOf e4) (pdptIdx virt)
    if e3 &&& vmmPresent = 0#64 then pure ()
    else
      let e2 ← readEntry (frameOf e3) (pdIdx virt)
      if e2 &&& vmmPresent = 0#64 ∨ e2 &&& vmmHuge ≠ 0#64 then pure ()
      else writeEntry (frameOf e2) (ptIdx virt) 0#64

/-! ## Address spaces -/

/-- The slots of a table, of the user half and of the kernel half, in loop order. -/
def allSlots : List Idx := List.finRange 512
def lowerHalf : List Idx := allSlots.filter (fun i => i.val < 256)
def upperHalf : List Idx := allSlots.filter (fun i => 256 ≤ i.val)

@[simp] theorem mem_allSlots (i : Idx) : i ∈ allSlots := List.mem_finRange i

@[simp] theorem mem_lowerHalf (i : Idx) : i ∈ lowerHalf ↔ i.val < 256 := by simp [lowerHalf]

@[simp] theorem mem_upperHalf (i : Idx) : i ∈ upperHalf ↔ 256 ≤ i.val := by simp [upperHalf]

theorem nodup_allSlots : allSlots.Nodup := List.nodup_finRange 512

theorem nodup_lowerHalf : lowerHalf.Nodup := nodup_allSlots.filter _

attribute [irreducible] allSlots

def vmmCreateAddressSpace : MmM (Option Nat) := do
  match ← allocFrame with
  | none => pure none
  | some phys =>
    let newPml4 := frameOf phys
    zeroFrame newPml4
    let cur := (← get).cr3
    forM upperHalf fun i => do
      let e ← readEntry cur i
      writeEntry newPml4 i e
    let e0 ← readEntry cur 0
    if e0 &&& vmmPresent ≠ 0#64 then
      match ← allocFrame with
      | none =>
        freeFrame phys
        pure none
      | some lowPdptPhys =>
        let lowPdpt := frameOf lowPdptPhys
        zeroFrame lowPdpt
        -- only the supervisor identity window is shared with the current space
        let window ← readEntry (frameOf e0) 0
        writeEntry lowPdpt 0 window
        writeEntry newPml4 0 (tableEntry lowPdptPhys ||| vmmUser)
        pure (some newPml4)
    else pure (some newPml4)

def destroyPte (pt : Nat) (i : Idx) : MmM Unit := do
  let e ← readEntry pt i
  if e &&& presentUser ≠ presentUser then pure ()
  else
    freeFrame (e &&& vmmPhysMask)
    writeEntry pt i 0#64

def destroyPt (pt : Nat) : MmM Unit := forM allSlots (destroyPte pt)

/-- A huge page is freed when it is a user page, and its entry is cleared. -/
def destroyHuge (t : Nat) (i : Idx) (e : Word) : MmM Unit := do
  if e &&& vmmUser ≠ 0#64 then freeFrame (e &&& vmmPhysMask)
  else pure ()
  writeEntry t i 0#64

/-- The frame an entry names is given back and the entry is cleared. -/
def freeTable (t : Nat) (i : Idx) : MmM Unit := do
  let e ← readEntry t i
  freeFrame (e &&& vmmPhysMask)
  writeEntry t i 0#64

/-- One slot of a PD or PDPT: `below` destroys the table it names. -/
def destroyEntry (below : Nat → MmM Unit) (t : Nat) (i : Idx) : MmM Unit := do
  let e ← readEntry t i
  if e &&& vmmPresent = 0#64 then pure ()
  else if e &&& vmmHuge ≠ 0#64 then destroyHuge t i e
  else
    below (frameOf e)
    freeTable t i

def destroyPd (pd : Nat) : MmM Unit := forM allSlots (destroyEntry destroyPt pd)

def destroyPdpte (i : Idx) (pdpt : Nat) (j : Idx) : MmM Unit :=
  -- supervisor-only low identity window
  if i = 0 ∧ j = 0 then pure ()
  else destroyEntry destroyPd pdpt j

def destroyPdpt (i : Idx) (pdpt : Nat) : MmM Unit :=
  forM allSlots (destroyPdpte i pdpt)

def destroyPml4e (pml4 : Nat) (i : Idx) : MmM Unit := do
  let e ← readEntry pml4 i
  if e &&& vmmPresent = 0#64 then pure ()
  else
    destroyPdpt i (frameOf e)
    freeTable pml4 i

def vmmDestroyUserAddressSpace (pml4 : Nat) : MmM Unit := do
  forM lowerHalf (destroyPml4e pml4)
  freeFrame (frameAddr pml4)

/-- A writable leaf of the source space is made copy-on-write. -/
def shareLeaf (srcPt : Nat) (l : Idx) (e : Word) : MmM Unit :=
  if e &&& ~~~vmmPhysMask &&& vmmWrite ≠ 0#64 then
    writeEntry srcPt l ((e &&& vmmPhysMask) ||| cowFlags e)
  else pure ()

/-- One leaf of the source space: share the frame, drop write permission on both
sides, and map it at the same address of the new space. -/
def clonePte (dst : Nat) (i j k : Idx) (srcPt : Nat) (l : Idx) : MmM Bool := do
  let e ← readEntry srcPt l
  if e &&& presentUser ≠ presentUser then pure true
  else
    let srcPhys := e &&& vmmPhysMask
    refFrame srcPhys
    shareLeaf srcPt l e
    let mapped ← vmmMapPage dst (makeVirt i j k l) srcPhys (cowFlags e)
    if mapped then pure true
    else
      freeFrame srcPhys
      pure false

/-- One slot of a source PD or PDPT; `false` is the source's `goto fail`. -/
def cloneEntry (below : Nat → MmM Bool) (t : Nat) (i : Idx) : MmM Bool := do
  let e ← readEntry t i
  if e &&& vmmPresent = 0#64 then pure true
  else if e &&& vmmHuge ≠ 0#64 then pure (e &&& vmmUser = 0#64)
  else below (frameOf e)

def clonePt (dst : Nat) (i j k : Idx) (srcPt : Nat) : MmM Bool :=
  allSlots.allM (clonePte dst i j k srcPt)

def clonePd (dst : Nat) (i j : Idx) (srcPd : Nat) : MmM Bool :=
  allSlots.allM fun k => cloneEntry (clonePt dst i j k) srcPd k

def clonePdpte (dst : Nat) (i : Idx) (srcPdpt : Nat) (j : Idx) : MmM Bool :=
  -- supervisor-only low identity window
  if i = 0 ∧ j = 0 then pure true
  else cloneEntry (clonePd dst i j) srcPdpt j

def clonePdpt (dst : Nat) (i : Idx) (srcPdpt : Nat) : MmM Bool :=
  allSlots.allM (clonePdpte dst i srcPdpt)

def clonePml4e (dst srcPml4 : Nat) (i : Idx) : MmM Bool := do
  let e ← readEntry srcPml4 i
  if e &&& vmmPresent = 0#64 then pure true
  else clonePdpt dst i (frameOf e)

def vmmCloneUserAddressSpace (srcPml4 : Nat) : MmM (Option Nat) := do
  match ← vmmCreateAddressSpace with
  | none => pure none
  | some dst =>
    let copied ← lowerHalf.allM (clonePml4e dst srcPml4)
    if copied then pure (some dst)
    else
      vmmDestroyUserAddressSpace dst
      pure none

/-! ## Page faults -/

def vmmHandlePageFault (faultAddr errorCode : Word) : MmM Bool := do
  if errorCode &&& 0x3#64 ≠ 0x3#64 ∨ userSpaceTop ≤ faultAddr then pure false
  else
    let s ← get
    let page := alignDown faultAddr pageSize
    match vmmGetPte s.mem s.cr3 page with
    | none => pure false
    | some (pt, i) =>
      let e ← readEntry pt i
      if e &&& presentUserCow ≠ presentUserCow then pure false
      else
        let oldPhys := e &&& vmmPhysMask
        let flags := writableFlags e
        let count ← frameRefcount oldPhys
        if count ≤ 1 then
          writeEntry pt i (oldPhys ||| flags)
          pure true
        else
          match ← allocFrame with
          | none => pure false
          | some newPhys =>
            copyFrame (frameOf newPhys) (frameOf oldPhys)
            writeEntry pt i (newPhys ||| flags)
            freeFrame oldPhys
            pure true

/-! ## Kernel addresses and initialisation -/

def vmmAllocKernel (size : Word) : MmM Word := do
  let addr := (← get).kheapNext
  modify fun s => { s with kheapNext := s.kheapNext + alignUp size pageSize }
  pure addr

def vmmSwitch (pml4 : Nat) : MmM Unit := modify fun s => { s with cr3 := pml4 }

/-- `pmm_alloc_frame` under `KASSERT`, and `memset` of the frame. -/
def allocTable : MmM Nat := do
  match ← allocFrame with
  | none => throw .initAlloc
  | some phys =>
    zeroFrame (frameOf phys)
    pure (frameOf phys)

/-- The words `vmm_init` writes for the pages of the identity window. -/
def identityPage (i : Idx) : Word := BitVec.ofNat 64 (i.val * 4096) ||| vmmPresent ||| vmmWrite

def identityHuge (i : Idx) : Word :=
  BitVec.ofNat 64 (i.val * 0x200000) ||| vmmPresent ||| vmmWrite ||| vmmHuge

/-- `guardPhys` is the page below `stack_bottom` and `kernelEnd` the symbol
`_kernel_end`; both come from the linker. -/
def vmmInit (guardPhys kernelEnd : Word) : MmM Unit := do
  let pml4 ← allocTable
  let pt0 ← allocTable
  forM (allSlots.filter (· ≠ 0)) fun i =>
    if BitVec.ofNat 64 (i.val * 4096) = guardPhys then pure ()
    else writeEntry pt0 i (identityPage i)
  let pd0 ← allocTable
  writeEntry pd0 0 (tableEntry (frameAddr pt0))
  forM (allSlots.filter (· ≠ 0)) fun i => writeEntry pd0 i (identityHuge i)
  let pdptId ← allocTable
  writeEntry pdptId 0 (tableEntry (frameAddr pd0))
  writeEntry pml4 0 (tableEntry (frameAddr pdptId))
  let pdptHh ← allocTable
  let pdHh ← allocTable
  writeEntry pdHh 0 (0#64 ||| vmmPresent ||| vmmWrite ||| vmmHuge)
  writeEntry pdptHh 510 (tableEntry (frameAddr pdHh))
  writeEntry pml4 511 (tableEntry (frameAddr pdptHh))
  vmmSwitch pml4
  modify fun s => { s with kheapNext := alignUp (kernelVma + kernelEnd) 0x200000#64 }

end LithiumKernel.Mm
