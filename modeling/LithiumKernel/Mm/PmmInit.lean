import LithiumKernel.Mm.PageEntry

/-!
# Start of the physical memory manager (kernel/mm/pmm.c, `pmm_init`)

The memory map comes from the boot loader, as a PVH start info or as a Multiboot2 tag.
Both parsers read physical memory at the offsets of their structures and go over the
entries twice: once for the number of frames, once to mark RAM free. Then the first MiB
and the kernel image are taken back. What is printed on the way is left out.

The boot structures lie outside the arrays that `pmm_init` writes, so the memory they are
read from does not change. A loop whose step is zero never ends; it is the error `spin`.
-/
namespace LithiumKernel.Mm

open LithiumKernel.Lib

/-! ## The boot structures -/

/-- Physical memory as the boot loader leaves it. -/
abbrev BootMem := Word → BitVec 8

/-- A little-endian field of `n` bytes. -/
def loadField (mem : BootMem) (addr n : Nat) : Nat :=
  (List.range n).foldr (fun i acc => (mem (BitVec.ofNat 64 (addr + i))).toNat + 256 * acc) 0

/-- `hvm_memmap_entry_t` and `mb2_mmap_entry_t`, which have the same layout. -/
structure MapEntry where
  base : Word
  length : Word
  type : BitVec 32
  deriving DecidableEq

def mapEntryAt (mem : BootMem) (addr : Nat) : MapEntry where
  base := BitVec.ofNat 64 (loadField mem addr 8)
  length := BitVec.ofNat 64 (loadField mem (addr + 8) 8)
  type := BitVec.ofNat 32 (loadField mem (addr + 16) 4)

def hvmStartMagic : Nat := 0x336ec578
def hvmMmapRam : BitVec 32 := 1#32
def mb2BootloaderMagic : BitVec 32 := 0x36D76289#32
def mb2MmapAvailable : BitVec 32 := 1#32
def mb2TagEnd : Nat := 0
def mb2TagMmap : Nat := 6

/-- The ways in which `pmm_init` does not return. -/
inductive InitHalt where
  | pvhMagic | noMmapTag | noMemoryMap | noFrames | spin
  deriving DecidableEq, Repr

/-- The entries of the PVH memory map. -/
def pvhEntries (mem : BootMem) (info : Nat) : List MapEntry :=
  let mmap := loadField mem (info + 40) 8
  let count := loadField mem (info + 48) 4
  (List.range count).map fun i => mapEntryAt mem (mmap + i * 24)

/-- `ALIGN_UP(size, 8)` of a 32-bit size. -/
def tagStride (size : Nat) : Nat := ((BitVec.ofNat 32 size + 7#32) &&& ~~~7#32).toNat

/-- The walk over the Multiboot2 tags from `p` to the memory map. A step is at least eight
bytes long, so as many rounds as bytes suffice. -/
def findMmapTag (mem : BootMem) (stop : Nat) : Nat → Nat → Except InitHalt (Option Nat)
  | 0, _ => .ok none
  | fuel + 1, p =>
    if p < stop then
      if loadField mem p 4 = mb2TagEnd then .ok none
      else if loadField mem p 4 = mb2TagMmap then .ok (some p)
      else
        let stride := tagStride (loadField mem (p + 4) 4)
        if stride = 0 then .error .spin
        else findMmapTag mem stop fuel (p + stride)
    else .ok none

/-- The addresses that `while (p + entry_size <= end) p += entry_size` visits. -/
def mb2Positions (entrySize stop : Nat) : Nat → Nat → List Nat
  | 0, _ => []
  | fuel + 1, p =>
    if p + entrySize ≤ stop then p :: mb2Positions entrySize stop fuel (p + entrySize) else []

/-- The entries of a Multiboot2 memory map tag. -/
def mb2TagEntries (mem : BootMem) (tag : Nat) : Except InitHalt (List MapEntry) :=
  let size := loadField mem (tag + 4) 4
  let entrySize := loadField mem (tag + 8) 4
  if entrySize = 0 ∧ 16 ≤ size then .error .spin
  else .ok ((mb2Positions entrySize (tag + size) size (tag + 16)).map (mapEntryAt mem))

/-- The entries of the Multiboot2 memory map. -/
def mb2Entries (mem : BootMem) (info : Nat) : Except InitHalt (List MapEntry) := do
  let totalSize := loadField mem info 4
  match ← findMmapTag mem (info + totalSize) totalSize (info + 8) with
  | none => .error .noMmapTag
  | some tag => mb2TagEntries mem tag

/-! ## Regions -/

namespace Pmm

/-- One round of `region_mark_free`. -/
def markFree (p : Pmm) (f : Nat) : Pmm :=
  if p.frameIsFree f then p
  else
    { p.frameSetFree f with
      refcount := Function.update p.refcount f 0
      freeFrames := p.freeFrames + 1 }

/-- One round of `region_mark_used`. -/
def markUsed (p : Pmm) (f : Nat) : Pmm :=
  if p.frameIsFree f then
    { p.frameSetUsed f with
      refcount := Function.update p.refcount f 1
      freeFrames := p.freeFrames - 1 }
  else p

/-- The frames of `for (f = first; f < last && f < pmm_total_frames; f++)`. -/
def clampedFrames (p : Pmm) (first last : Nat) : List Nat :=
  List.range' first (min last p.totalFrames - first)

def regionMarkFree (p : Pmm) (base len : Word) : Pmm :=
  (p.clampedFrames (base.toNat / pmmFrameSize) ((base + len).toNat / pmmFrameSize)).foldl markFree p

def regionMarkUsed (p : Pmm) (base len : Word) : Pmm :=
  (p.clampedFrames (base.toNat / pmmFrameSize)
    ((alignUp (base + len) pageSize).toNat / pmmFrameSize)).foldl markUsed p

end Pmm

/-! ## pmm_init -/

def pmmMaxPhys : Word := 0x100000000#64

/-- One entry of the first pass. -/
def raiseTop (ram : BitVec 32) (top : Word) (e : MapEntry) : Word :=
  if e.type ≠ ram then top
  else if top < e.base + e.length then e.base + e.length else top

/-- First pass over the memory map: the frames below the highest end of an entry of type
`ram`. -/
def calcTotalFrames (ram : BitVec 32) (entries : List MapEntry) : Nat :=
  let top := entries.foldl (raiseTop ram) 0#64
  (if pmmMaxPhys < top then pmmMaxPhys else top).toNat / pmmFrameSize

def pmmCalcTotalFramesPvh (entries : List MapEntry) : Nat := calcTotalFrames hvmMmapRam entries
def pmmCalcTotalFramesMb2 (entries : List MapEntry) : Nat := calcTotalFrames mb2MmapAvailable entries

/-- All frames in use and none counted. -/
def Pmm.blank (totalFrames : Nat) : Pmm where
  bitmap _ := 0xFF#8
  refcount _ := 0
  totalFrames := totalFrames
  freeFrames := 0
  nextHint := 0

/-- Second pass over the memory map: entries of type `ram` are marked free. -/
def Pmm.markEntries (p : Pmm) (ram : BitVec 32) (entries : List MapEntry) : Pmm :=
  entries.foldl (fun p e => if e.type = ram then p.regionMarkFree e.base e.length else p) p

def pmmParsePvh (mem : BootMem) (info : Nat) : Except InitHalt Pmm :=
  if loadField mem info 4 ≠ hvmStartMagic then .error .pvhMagic
  else
    let entries := pvhEntries mem info
    .ok ((Pmm.blank (pmmCalcTotalFramesPvh entries)).markEntries hvmMmapRam entries)

def pmmParseMb2 (mem : BootMem) (info : Nat) : Except InitHalt Pmm := do
  let entries ← mb2Entries mem info
  .ok ((Pmm.blank (pmmCalcTotalFramesMb2 entries)).markEntries mb2MmapAvailable entries)

/-- The first MiB and the kernel image are taken back. -/
def Pmm.reserveLow (p : Pmm) (kernelEnd : Word) : Pmm :=
  (p.regionMarkUsed 0#64 0x100000#64).regionMarkUsed 0x100000#64 (kernelEnd - 0x100000#64)

/-- `kernelEnd` is the symbol `_kernel_end` of the linker script. -/
def pmmInit (mem : BootMem) (kernelEnd : Word) (bootMagic bootInfoPhys : BitVec 32) :
    Except InitHalt Pmm := do
  let p ←
    if bootMagic = mb2BootloaderMagic then pmmParseMb2 mem bootInfoPhys.toNat
    else if bootInfoPhys ≠ 0#32 ∧ loadField mem bootInfoPhys.toNat 4 = hvmStartMagic then
      pmmParsePvh mem bootInfoPhys.toNat
    else .error .noMemoryMap
  if p.totalFrames = 0 then .error .noFrames
  else .ok (({ p with nextHint := 0 } : Pmm).reserveLow kernelEnd)

/-! ## What the regions mark -/

namespace Pmm

theorem markFree_free (p : Pmm) (f g : Nat) :
    (p.markFree f).frameIsFree g = true ↔ p.frameIsFree g = true ∨ g = f := by
  unfold markFree
  split
  · rename_i free
    constructor
    · exact .inl
    · rintro (was | rfl)
      · exact was
      · exact free
  · exact frameIsFree_setFree p f g

theorem markUsed_free (p : Pmm) (f g : Nat) :
    (p.markUsed f).frameIsFree g = true ↔ p.frameIsFree g = true ∧ g ≠ f := by
  unfold markUsed
  split
  · exact frameIsFree_setUsed p f g
  · rename_i used
    constructor
    · intro free
      refine ⟨free, ?_⟩
      rintro rfl
      exact used free
    · exact And.left

@[simp] theorem markFree_total (p : Pmm) (f : Nat) :
    (p.markFree f).totalFrames = p.totalFrames := by
  unfold markFree
  split <;> rfl

@[simp] theorem markUsed_total (p : Pmm) (f : Nat) :
    (p.markUsed f).totalFrames = p.totalFrames := by
  unfold markUsed
  split <;> rfl

/-- A frame is put back into the pool by `dropFrame` of a counted frame, up to the hint. -/
theorem markFree_ok {p : Pmm} (ok : p.Ok) {f : Nat} (lt : f < p.totalFrames) :
    (p.markFree f).Ok := by
  by_cases free : p.frameIsFree f = true
  · rwa [markFree, if_pos free]
  · have used : p.frameIsFree f = false := by simpa using free
    have inserted : (p.markFree f).freeSet = insert f p.freeSet := by
      ext g
      simp only [freeSet, Finset.mem_filter, Finset.mem_insert, Finset.mem_range, markFree_free,
        markFree_total]
      constructor
      · rintro ⟨gt, was | rfl⟩
        · exact .inr ⟨gt, was⟩
        · exact .inl rfl
      · rintro (rfl | ⟨gt, was⟩)
        · exact ⟨lt, .inr rfl⟩
        · exact ⟨gt, .inl was⟩
    have absent : f ∉ p.freeSet := by simp [freeSet, used]
    refine ⟨by simpa using ok.total_le, ?_, ?_⟩
    · intro g gt gfree
      rw [markFree_total] at gt
      rw [markFree, if_neg free]
      change Function.update p.refcount f 0 g = 0
      by_cases same : g = f
      · rw [same, Function.update_self]
      · rw [Function.update_of_ne same]
        exact ok.free_zero g gt (((markFree_free p f g).mp gfree).resolve_right same)
    · rw [inserted, Finset.card_insert_of_notMem absent, ← ok.count, markFree, if_neg free]

theorem markUsed_ok {p : Pmm} (ok : p.Ok) {f : Nat} (lt : f < p.totalFrames) :
    (p.markUsed f).Ok := by
  by_cases free : p.frameIsFree f = true
  · -- apart from the hint this is how an allocation takes a frame
    obtain ⟨total, zero, count⟩ := takeFrame_ok ok lt free
    rw [markUsed, if_pos free]
    exact ⟨total, zero, count⟩
  · rwa [markUsed, if_neg free]

/-- A loop that marks frames of the pool keeps what each round keeps. -/
theorem foldl_mark {mark : Pmm → Nat → Pmm} (total : ∀ p f, (mark p f).totalFrames = p.totalFrames)
    (step : ∀ (p : Pmm) f, p.Ok → f < p.totalFrames → (mark p f).Ok) (fs : List Nat) :
    ∀ {p : Pmm}, (∀ f ∈ fs, f < p.totalFrames) →
      (fs.foldl mark p).totalFrames = p.totalFrames ∧ (p.Ok → (fs.foldl mark p).Ok) := by
  induction fs with
  | nil => exact fun _ => ⟨rfl, id⟩
  | cons f rest ih =>
    intro p bound
    have more := ih (p := mark p f) (fun g member => by
      rw [total]
      exact bound g (List.mem_cons_of_mem _ member))
    refine ⟨more.1.trans (total p f), fun ok => more.2 (step p f ok (bound f (by simp)))⟩

theorem foldl_markFree_free (fs : List Nat) : ∀ (p : Pmm) (g : Nat),
    (fs.foldl markFree p).frameIsFree g = true ↔ p.frameIsFree g = true ∨ g ∈ fs := by
  induction fs with
  | nil => simp
  | cons f rest ih =>
    intro p g
    rw [List.foldl_cons, ih, markFree_free, List.mem_cons, or_assoc]

theorem foldl_markUsed_free (fs : List Nat) : ∀ (p : Pmm) (g : Nat),
    (fs.foldl markUsed p).frameIsFree g = true ↔ p.frameIsFree g = true ∧ g ∉ fs := by
  induction fs with
  | nil => simp
  | cons f rest ih =>
    intro p g
    rw [List.foldl_cons, ih, markUsed_free, List.mem_cons, not_or, and_assoc]

theorem mem_clampedFrames (p : Pmm) (first last f : Nat) :
    f ∈ p.clampedFrames first last ↔ first ≤ f ∧ f < last ∧ f < p.totalFrames := by
  rw [clampedFrames, List.mem_range'_1]
  omega

section Regions

variable (p : Pmm) (base len : Word)

theorem regionMarkFree_free (g : Nat) :
    (p.regionMarkFree base len).frameIsFree g = true ↔ p.frameIsFree g = true ∨
      base.toNat / pmmFrameSize ≤ g ∧ g < (base + len).toNat / pmmFrameSize ∧
        g < p.totalFrames := by
  rw [regionMarkFree, foldl_markFree_free, mem_clampedFrames]

theorem regionMarkUsed_free (g : Nat) :
    (p.regionMarkUsed base len).frameIsFree g = true ↔ p.frameIsFree g = true ∧
      ¬ (base.toNat / pmmFrameSize ≤ g ∧
        g < (alignUp (base + len) pageSize).toNat / pmmFrameSize ∧ g < p.totalFrames) := by
  rw [regionMarkUsed, foldl_markUsed_free, mem_clampedFrames]

theorem regionMarkFree_keeps : (p.regionMarkFree base len).totalFrames = p.totalFrames ∧
    (p.Ok → (p.regionMarkFree base len).Ok) :=
  foldl_mark markFree_total (fun _ _ ok lt => markFree_ok ok lt) _ fun f member =>
    ((p.mem_clampedFrames _ _ f).mp member).2.2

theorem regionMarkUsed_keeps : (p.regionMarkUsed base len).totalFrames = p.totalFrames ∧
    (p.Ok → (p.regionMarkUsed base len).Ok) :=
  foldl_mark markUsed_total (fun _ _ ok lt => markUsed_ok ok lt) _ fun f member =>
    ((p.mem_clampedFrames _ _ f).mp member).2.2

end Regions

/-- The frames that an entry of the memory map gives to the pool. -/
def Offers (e : MapEntry) (f : Nat) : Prop :=
  e.base.toNat / pmmFrameSize ≤ f ∧ f < (e.base + e.length).toNat / pmmFrameSize

theorem markEntries_keeps (ram : BitVec 32) (entries : List MapEntry) : ∀ p : Pmm,
    (p.markEntries ram entries).totalFrames = p.totalFrames ∧
      (p.Ok → (p.markEntries ram entries).Ok) ∧
      ∀ g, (p.markEntries ram entries).frameIsFree g = true ↔ p.frameIsFree g = true ∨
        g < p.totalFrames ∧ ∃ e ∈ entries, e.type = ram ∧ Offers e g := by
  induction entries with
  | nil =>
    intro p
    exact ⟨rfl, id, by simp [markEntries]⟩
  | cons e rest ih =>
    intro p
    by_cases usable : e.type = ram
    · have step : p.markEntries ram (e :: rest) =
          (p.regionMarkFree e.base e.length).markEntries ram rest := by
        rw [markEntries, List.foldl_cons, if_pos usable, markEntries]
      obtain ⟨total, ok⟩ := p.regionMarkFree_keeps e.base e.length
      obtain ⟨total', ok', free⟩ := ih (p.regionMarkFree e.base e.length)
      rw [step]
      refine ⟨total'.trans total, fun h => ok' (ok h), fun g => ?_⟩
      rw [free, regionMarkFree_free, total]
      simp only [List.mem_cons, exists_eq_or_imp, usable, true_and, Offers]
      tauto
    · have step : p.markEntries ram (e :: rest) = p.markEntries ram rest := by
        rw [markEntries, List.foldl_cons, if_neg usable, markEntries]
      rw [step]
      simpa only [List.mem_cons, exists_eq_or_imp, usable, false_and, false_or] using ih p

theorem blank_used (total f : Nat) : (blank total).frameIsFree f = false := by
  have all : ∀ k : Fin 8, (0xFF#8 &&& (1#8 <<< k.val) == 0#8) = false := by decide
  exact all ⟨f &&& 7, bit_lt f⟩

theorem blank_ok {total : Nat} (le : total ≤ pmmMaxFrames) : (blank total).Ok where
  total_le := le
  free_zero := fun _ _ _ => rfl
  count := by
    have empty : (blank total).freeSet = ∅ := by
      ext f
      simp [freeSet, blank_used]
    rw [empty]
    rfl

theorem reserveLow_keeps (p : Pmm) (kernelEnd : Word) :
    (p.reserveLow kernelEnd).totalFrames = p.totalFrames ∧ (p.Ok → (p.reserveLow kernelEnd).Ok) := by
  obtain ⟨total, ok⟩ := p.regionMarkUsed_keeps 0#64 0x100000#64
  obtain ⟨total', ok'⟩ := (p.regionMarkUsed 0#64 0x100000#64).regionMarkUsed_keeps 0x100000#64
    (kernelEnd - 0x100000#64)
  exact ⟨total'.trans total, fun h => ok' (ok h)⟩

/-- Where the linker script puts it, the kernel image ends at a page boundary. -/
theorem reserveLow_free {p : Pmm} (inside : ∀ f, p.frameIsFree f = true → f < p.totalFrames)
    {kernelEnd : Word} (aligned : kernelEnd.toNat % 4096 = 0) (g : Nat) :
    (p.reserveLow kernelEnd).frameIsFree g = true ↔
      p.frameIsFree g = true ∧ 256 ≤ g ∧ kernelEnd.toNat ≤ g * 4096 := by
  have low : (alignUp (0#64 + 0x100000#64) pageSize).toNat / pmmFrameSize = 256 := by decide
  have image : (0x100000#64 + (kernelEnd - 0x100000#64)) = kernelEnd := by
    rw [BitVec.add_comm, BitVec.sub_add_cancel]
  have top : (alignUp kernelEnd pageSize).toNat = kernelEnd.toNat := by
    have := kernelEnd.isLt
    rw [alignUp_page_toNat]
    omega
  have total := (p.regionMarkUsed_keeps 0#64 0x100000#64).1
  have zero : (0#64).toNat / pmmFrameSize = 0 := by decide
  have mib : (0x100000#64).toNat / pmmFrameSize = 256 := by decide
  rw [reserveLow, regionMarkUsed_free, regionMarkUsed_free, low, image, top, total, zero, mib]
  simp only [pmmFrameSize]
  constructor
  · rintro ⟨⟨free, first⟩, second⟩
    have lt := inside g free
    exact ⟨free, by omega, by omega⟩
  · rintro ⟨free, first, second⟩
    exact ⟨⟨free, by omega⟩, by omega⟩

end Pmm

/-! ## What pmm_init leaves -/

/-- The memory map that the boot loader hands over, in either protocol. -/
def BootMap (mem : BootMem) (bootMagic bootInfoPhys : BitVec 32) (entries : List MapEntry) : Prop :=
  if bootMagic = mb2BootloaderMagic then mb2Entries mem bootInfoPhys.toNat = .ok entries
  else bootInfoPhys ≠ 0#32 ∧ loadField mem bootInfoPhys.toNat 4 = hvmStartMagic ∧
    pvhEntries mem bootInfoPhys.toNat = entries

/-- The pool that a memory map leads to. -/
def poolOf (kernelEnd : Word) (entries : List MapEntry) : Pmm :=
  ((Pmm.blank (calcTotalFrames hvmMmapRam entries)).markEntries hvmMmapRam entries).reserveLow
    kernelEnd

variable {mem : BootMem} {kernelEnd : Word} {bootMagic bootInfoPhys : BitVec 32}
  {entries : List MapEntry} {p : Pmm}

theorem Pmm.markEntries_hint (ram : BitVec 32) (entries : List MapEntry) : ∀ p : Pmm,
    (p.markEntries ram entries).nextHint = p.nextHint := by
  have mark : ∀ (fs : List Nat) (p : Pmm), (fs.foldl markFree p).nextHint = p.nextHint := by
    intro fs
    induction fs with
    | nil => exact fun _ => rfl
    | cons f rest ih =>
      intro p
      rw [List.foldl_cons, ih, markFree]
      split <;> rfl
  induction entries with
  | nil => exact fun _ => rfl
  | cons e rest ih =>
    intro p
    rw [markEntries, List.foldl_cons]
    change ((if e.type = ram then _ else p).markEntries ram rest).nextHint = _
    rw [ih]
    split
    · exact mark _ p
    · rfl

/-- Both protocols lead to the same pool. -/
theorem pmmInit_of_map (kernelEnd : Word) (map : BootMap mem bootMagic bootInfoPhys entries) :
    pmmInit mem kernelEnd bootMagic bootInfoPhys =
      if calcTotalFrames hvmMmapRam entries = 0 then .error .noFrames
      else .ok (poolOf kernelEnd entries) := by
  have parsed : ∀ q : Pmm,
      q = (Pmm.blank (calcTotalFrames hvmMmapRam entries)).markEntries hvmMmapRam entries →
      (if q.totalFrames = 0 then Except.error InitHalt.noFrames
        else .ok (({ q with nextHint := 0 } : Pmm).reserveLow kernelEnd)) =
      if calcTotalFrames hvmMmapRam entries = 0 then .error .noFrames
      else .ok (poolOf kernelEnd entries) := by
    rintro q rfl
    have hint : ∀ r : Pmm, r.nextHint = 0 → ({ r with nextHint := 0 } : Pmm) = r := by
      rintro ⟨_, _, _, _, _⟩ rfl
      rfl
    rw [hint _ (Pmm.markEntries_hint _ _ _), (Pmm.markEntries_keeps _ entries _).1]
    rfl
  unfold BootMap at map
  unfold pmmInit
  split at map
  · rename_i multiboot
    rw [if_pos multiboot, pmmParseMb2, map]
    exact parsed _ rfl
  · rename_i pvh
    obtain ⟨given, magic, rfl⟩ := map
    rw [if_neg pvh, if_pos ⟨given, magic⟩, pmmParsePvh, if_neg (not_not.mpr magic)]
    exact parsed _ rfl

/-- `pmm_init` only returns when there is a memory map with a frame of RAM. -/
theorem pmmInit_ok (init : pmmInit mem kernelEnd bootMagic bootInfoPhys = .ok p) :
    ∃ entries, BootMap mem bootMagic bootInfoPhys entries ∧ p = poolOf kernelEnd entries := by
  have found : ∃ entries, BootMap mem bootMagic bootInfoPhys entries := by
    unfold BootMap
    unfold pmmInit at init
    split at init
    · rw [pmmParseMb2] at init
      cases decoded : mb2Entries mem bootInfoPhys.toNat with
      | error e =>
        rw [decoded] at init
        cases init
      | ok entries => exact ⟨entries, by rw [if_pos ‹_›]⟩
    · split at init
      · rename_i pvh given
        exact ⟨_, by rw [if_neg pvh]; exact ⟨given.1, given.2, rfl⟩⟩
      · cases init
  obtain ⟨entries, map⟩ := found
  refine ⟨entries, map, ?_⟩
  rw [pmmInit_of_map kernelEnd map] at init
  split at init
  · cases init
  · exact (Except.ok.inj init).symm

theorem calcTotalFrames_le (ram : BitVec 32) (entries : List MapEntry) :
    calcTotalFrames ram entries ≤ pmmMaxFrames := by
  have top : pmmMaxPhys.toNat = 2 ^ 32 := by decide
  unfold calcTotalFrames
  dsimp only
  split
  · decide
  · rename_i below
    rw [BitVec.not_lt, BitVec.le_def, top] at below
    simp only [pmmFrameSize, pmmMaxFrames]
    omega

/-- The pool after `pmm_init` is consistent. -/
theorem poolOf_ok (kernelEnd : Word) (entries : List MapEntry) :
    (poolOf kernelEnd entries).Ok ∧
      (poolOf kernelEnd entries).totalFrames = calcTotalFrames hvmMmapRam entries := by
  obtain ⟨total, ok, _⟩ := Pmm.markEntries_keeps hvmMmapRam entries
    (Pmm.blank (calcTotalFrames hvmMmapRam entries))
  obtain ⟨total', ok'⟩ := Pmm.reserveLow_keeps
    ((Pmm.blank (calcTotalFrames hvmMmapRam entries)).markEntries hvmMmapRam entries) kernelEnd
  exact ⟨ok' (ok (Pmm.blank_ok (calcTotalFrames_le _ _))), total'.trans total⟩

/-- No frame beyond the limit is free after `pmm_init`. -/
theorem poolOf_inside (kernelEnd : Word) (entries : List MapEntry) (f : Nat)
    (free : (poolOf kernelEnd entries).frameIsFree f = true) :
    f < (poolOf kernelEnd entries).totalFrames := by
  rw [poolOf, Pmm.reserveLow, Pmm.regionMarkUsed_free, Pmm.regionMarkUsed_free,
    (Pmm.markEntries_keeps _ _ _).2.2, Pmm.blank_used] at free
  rw [(poolOf_ok kernelEnd entries).2]
  exact (free.1.1.resolve_left (by simp)).1

/-- The frames that are free after `pmm_init`. -/
theorem poolOf_free (aligned : kernelEnd.toNat % 4096 = 0) (entries : List MapEntry) (f : Nat) :
    (poolOf kernelEnd entries).frameIsFree f = true ↔
      f < calcTotalFrames hvmMmapRam entries ∧ 256 ≤ f ∧ kernelEnd.toNat ≤ f * 4096 ∧
        ∃ e ∈ entries, e.type = hvmMmapRam ∧ Pmm.Offers e f := by
  obtain ⟨total, _, free⟩ := Pmm.markEntries_keeps hvmMmapRam entries
    (Pmm.blank (calcTotalFrames hvmMmapRam entries))
  have marked : ∀ g, ((Pmm.blank (calcTotalFrames hvmMmapRam entries)).markEntries hvmMmapRam
      entries).frameIsFree g = true ↔
      g < calcTotalFrames hvmMmapRam entries ∧ ∃ e ∈ entries, e.type = hvmMmapRam ∧
        Pmm.Offers e g := by
    intro g
    rw [free, Pmm.blank_used]
    simp [Pmm.blank]
  rw [poolOf, Pmm.reserveLow_free _ aligned, marked]
  · tauto
  · intro g isFree
    rw [total]
    exact ((marked g).mp isFree).1

/-! ## Only RAM is handed out -/

/-- A byte that some entry of the memory map calls RAM. -/
def InRam (entries : List MapEntry) (a : Nat) : Prop :=
  ∃ e ∈ entries, e.type = hvmMmapRam ∧ e.base.toNat ≤ a ∧ a < e.base.toNat + e.length.toNat

/-- Every byte of a frame. -/
def AllOfFrame (f : Nat) (property : Nat → Prop) : Prop :=
  ∀ a, f * 4096 ≤ a → a < (f + 1) * 4096 → property a

/-- The page in which an entry of RAM begins is marked free as a whole. Where it is handed
out, the bytes before the entry have to be RAM by another entry. -/
def FirstPagesCovered (kernelEnd : Word) (entries : List MapEntry) : Prop :=
  ∀ e ∈ entries, e.type = hvmMmapRam →
    let first := e.base.toNat / 4096
    first < (e.base + e.length).toNat / 4096 → first < pmmMaxFrames →
    0x100000 ≤ first * 4096 → kernelEnd.toNat ≤ first * 4096 →
    ∀ a, first * 4096 ≤ a → a < e.base.toNat → InRam entries a

theorem le_raiseTop (ram : BitVec 32) (top : Word) (e : MapEntry) :
    top ≤ raiseTop ram top e ∧ (e.type = ram → e.base + e.length ≤ raiseTop ram top e) := by
  unfold raiseTop
  split
  · rename_i other
    exact ⟨BitVec.le_refl top, fun usable => absurd usable other⟩
  · split
    · rename_i less
      exact ⟨BitVec.le_of_lt less, fun _ => BitVec.le_refl _⟩
    · rename_i notLess
      exact ⟨BitVec.le_refl top, fun _ => BitVec.not_lt.mp notLess⟩

/-- The highest end is at least the end of every entry of RAM. -/
theorem le_foldl_raiseTop (ram : BitVec 32) (entries : List MapEntry) : ∀ top : Word,
    top ≤ entries.foldl (raiseTop ram) top ∧
      ∀ e ∈ entries, e.type = ram → e.base + e.length ≤ entries.foldl (raiseTop ram) top := by
  induction entries with
  | nil => exact fun top => ⟨BitVec.le_refl top, by simp⟩
  | cons x rest ih =>
    intro top
    obtain ⟨above, all⟩ := ih (raiseTop ram top x)
    obtain ⟨raised, reached⟩ := le_raiseTop ram top x
    rw [List.foldl_cons]
    refine ⟨BitVec.le_trans raised above, ?_⟩
    intro e here usable
    rcases List.mem_cons.mp here with rfl | later
    · exact BitVec.le_trans (reached usable) above
    · exact all e later usable

theorem lt_calcTotalFrames {e : MapEntry} {f : Nat} (member : e ∈ entries)
    (ram : e.type = hvmMmapRam) (below : f < (e.base + e.length).toNat / 4096)
    (small : f < pmmMaxFrames) : f < calcTotalFrames hvmMmapRam entries := by
  have top := (le_foldl_raiseTop hvmMmapRam entries 0#64).2 e member ram
  have limit : pmmMaxPhys.toNat = 2 ^ 32 := by decide
  rw [BitVec.le_def] at top
  unfold calcTotalFrames
  dsimp only
  simp only [pmmMaxFrames] at small
  split
  · rw [limit, pmmFrameSize]
    omega
  · rw [pmmFrameSize]
    omega

/-- A frame the pool may hand out: all of it RAM, none of it below 1 MiB or in the kernel
image. -/
def Usable (kernelEnd : Word) (entries : List MapEntry) (f : Nat) : Prop :=
  AllOfFrame f (InRam entries) ∧ AllOfFrame f (fun a => 0x100000 ≤ a ∧ kernelEnd.toNat ≤ a)

theorem poolOf_usable (aligned : kernelEnd.toNat % 4096 = 0)
    (noWrap : ∀ e ∈ entries, e.base.toNat + e.length.toNat < 2 ^ 64) :
    (∀ f, (poolOf kernelEnd entries).frameIsFree f = true → Usable kernelEnd entries f) ↔
      FirstPagesCovered kernelEnd entries := by
  have sum : ∀ e ∈ entries, (e.base + e.length).toNat = e.base.toNat + e.length.toNat := by
    intro e member
    rw [BitVec.toNat_add, Nat.mod_eq_of_lt (noWrap e member)]
  constructor
  · intro only e member ram first below small low image a above before
    have free : (poolOf kernelEnd entries).frameIsFree first = true := by
      rw [poolOf_free aligned]
      exact ⟨lt_calcTotalFrames member ram below small, by omega, image, e, member, ram,
        le_refl _, below⟩
    exact (only first free).1 a above (by omega)
  · intro covered f free
    obtain ⟨total, low, image, e, member, ram, first, below⟩ := (poolOf_free aligned _ _).mp free
    simp only [pmmFrameSize] at first below
    constructor
    · intro a above inside
      by_cases before : a < e.base.toNat
      · -- only the page in which the entry begins has bytes before it
        have begins : e.base.toNat / 4096 = f := by omega
        have small : f < pmmMaxFrames := lt_of_lt_of_le total (calcTotalFrames_le _ _)
        rw [← begins] at below small above image low
        exact covered e member ram below small (by omega) image a above before
      · rw [sum e member] at below
        exact ⟨e, member, ram, by omega, by omega⟩
    · intro a above inside
      exact ⟨by omega, by omega⟩

/-- **Only RAM is handed out.** After `pmm_init`, every frame whose bit is clear lies in
RAM and outside the first MiB and the kernel image, exactly if the page in which an entry
of RAM begins never sticks out of RAM. Whichever protocol delivers it, one memory map leads
to one pool. -/
theorem pmm_init_only_ram (aligned : kernelEnd.toNat % 4096 = 0)
    (map : BootMap mem bootMagic bootInfoPhys entries)
    (noWrap : ∀ e ∈ entries, e.base.toNat + e.length.toNat < 2 ^ 64)
    (init : pmmInit mem kernelEnd bootMagic bootInfoPhys = .ok p) :
    ((∀ f, p.frameIsFree f = true → Usable kernelEnd entries f) ↔
      FirstPagesCovered kernelEnd entries) ∧
    ∀ mem' bootMagic' bootInfoPhys', BootMap mem' bootMagic' bootInfoPhys' entries →
      pmmInit mem' kernelEnd bootMagic' bootInfoPhys' = .ok p := by
  have pool := pmmInit_of_map kernelEnd map
  constructor
  · rw [init] at pool
    split at pool
    · cases pool
    · rw [Except.ok.inj pool]
      exact poolOf_usable aligned noWrap
  · intro mem' magic' info' map'
    rw [pmmInit_of_map kernelEnd map', ← pool, init]

/-! ## Two small memory maps -/

def littleEndianField (n value : Nat) : List (BitVec 8) :=
  (List.range n).map fun i => BitVec.ofNat 8 (value / 256 ^ i)

/-- A PVH start info at 0x1000 with its memory map behind it. -/
def pvhImage (entries : List MapEntry) : BootMem := fun a =>
  (littleEndianField 4 hvmStartMagic ++ littleEndianField 36 0 ++ littleEndianField 8 0x1038 ++
    littleEndianField 8 entries.length ++ entries.flatMap fun e =>
      littleEndianField 8 e.base.toNat ++ littleEndianField 8 e.length.toNat ++
        littleEndianField 8 e.type.toNat).getD (a.toNat - 0x1000) 0#8

/-- Eight pages of RAM behind the first MiB. -/
def alignedMap : List MapEntry := [⟨0x100000#64, 0x8000#64, 1#32⟩]

/-- RAM that begins in the middle of a page. -/
def unalignedMap : List MapEntry := [⟨0x101800#64, 0x2000#64, 1#32⟩]

theorem pmm_init_only_ram_aligned :
    BootMap (pvhImage alignedMap) 0#32 0x1000#32 alignedMap ∧
    ∃ p, pmmInit (pvhImage alignedMap) 0x102000#64 0#32 0x1000#32 = .ok p ∧
      p.frameIsFree 260 = true ∧ AllOfFrame 260 (InRam alignedMap) := by
  have map : BootMap (pvhImage alignedMap) 0#32 0x1000#32 alignedMap := by
    unfold BootMap
    decide +kernel
  have init := pmmInit_of_map 0x102000#64 map
  rw [if_neg (by decide)] at init
  have covered : FirstPagesCovered 0x102000#64 alignedMap := by
    intro e member ram first below small low image a above before
    simp only [alignedMap, List.mem_singleton] at member
    subst member
    have base : (0x100000#64).toNat = 0x100000 := by decide
    simp only [first, base] at above before
    omega
  have free : (poolOf 0x102000#64 alignedMap).frameIsFree 260 = true := by decide +kernel
  exact ⟨map, _, init, free,
    ((pmm_init_only_ram (by decide) map (by decide) init).1.mpr covered 260 free).1⟩

/-- The frame at 0x101000 is free, although RAM begins at 0x101800. -/
theorem pmm_init_only_ram_unaligned :
    BootMap (pvhImage unalignedMap) 0#32 0x1000#32 unalignedMap ∧
    (∀ e ∈ unalignedMap, e.base.toNat + e.length.toNat < 2 ^ 64) ∧
    ∃ p, pmmInit (pvhImage unalignedMap) 0x101000#64 0#32 0x1000#32 = .ok p ∧
      p.frameIsFree 257 = true ∧ ¬ AllOfFrame 257 (InRam unalignedMap) := by
  have map : BootMap (pvhImage unalignedMap) 0#32 0x1000#32 unalignedMap := by
    unfold BootMap
    decide +kernel
  have init := pmmInit_of_map 0x101000#64 map
  rw [if_neg (by decide)] at init
  refine ⟨map, by decide, _, init, by decide +kernel, ?_⟩
  intro all
  obtain ⟨e, member, _, above, _⟩ := all 0x101000 (by decide) (by decide)
  simp only [unalignedMap, List.mem_singleton] at member
  subst member
  exact absurd above (by decide)

end LithiumKernel.Mm
