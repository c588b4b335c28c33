import Mathlib.Data.Finset.Card
import Mathlib.Logic.Function.Basic
import LithiumKernel.Lib.Bits

/-!
# Physical memory manager (kernel/mm/pmm.c)

One bit and one reference count per 4 KiB frame. `pmmAllocFrame`, `pmmFreeFrame`,
`pmmRefFrame` and `pmmFrameRefcount` follow the source function by function; the
16-bit counter is a `Nat` because `KASSERT` stops the kernel before it can wrap.
`none` stands for `PMM_ALLOC_FAILED`, an error for the `KASSERT` that fails.

`Pmm.Ok` is the consistency of the redundant views. A frame that is in use with
count zero is a hole: no operation ever touches it again.
-/
namespace LithiumKernel.Mm

open LithiumKernel.Lib

abbrev Word := BitVec 64

def pmmFrameSize : Nat := 4096
def pmmMaxFrames : Nat := 2 ^ 20
def uint16Max : Nat := 65535

/-- The assertions of the memory managers, by the function that makes them. -/
inductive Kassert where
  | freeAligned | freeRange | freeUsed | freeRefcount
  | refAligned | refRange | refUsed | refPositive | refSaturated
  | countAligned | countRange
  | initAlloc
  deriving DecidableEq, Repr

structure Pmm where
  bitmap : Nat → BitVec 8
  refcount : Nat → Nat
  totalFrames : Nat
  freeFrames : Nat
  nextHint : Nat

/-- Physical address of a frame. -/
def frameAddr (f : Nat) : Word := BitVec.ofNat 64 (f * pmmFrameSize)

namespace Pmm

def frameIsFree (p : Pmm) (f : Nat) : Bool :=
  p.bitmap (f >>> 3) &&& (1#8 <<< (f &&& 7)) == 0#8

def frameSetUsed (p : Pmm) (f : Nat) : Pmm :=
  { p with
    bitmap := Function.update p.bitmap (f >>> 3)
      (p.bitmap (f >>> 3) ||| (1#8 <<< (f &&& 7))) }

def frameSetFree (p : Pmm) (f : Nat) : Pmm :=
  { p with
    bitmap := Function.update p.bitmap (f >>> 3)
      (p.bitmap (f >>> 3) &&& ~~~(1#8 <<< (f &&& 7))) }

/-- Inner loop of `pmm_alloc_frame` over the bits of one byte. -/
def scanBits (p : Pmm) (byte : Nat) : List Nat → Option Nat
  | [] => none
  | bit :: rest =>
    if p.totalFrames ≤ byte * 8 + bit then none
    else if p.bitmap byte &&& (1#8 <<< bit) = 0#8 then some (byte * 8 + bit)
    else p.scanBits byte rest

/-- One pass of `pmm_alloc_frame` over a range of bytes. -/
def scanBytes (p : Pmm) : List Nat → Option Nat
  | [] => none
  | byte :: rest =>
    if p.bitmap byte = 0xFF#8 then p.scanBytes rest
    else match p.scanBits byte (List.range 8) with
      | some f => some f
      | none => p.scanBytes rest

/-- First pass from the hint to the end, second pass over the bytes before it. -/
def scanFrames (p : Pmm) : Option Nat :=
  let nBytes := (p.totalFrames + 7) / 8
  let startByte := p.nextHint >>> 3
  match p.scanBytes (List.range' startByte (nBytes - startByte)) with
  | some f => some f
  | none => p.scanBytes (List.range startByte)

/-- The bookkeeping of a found frame. -/
def takeFrame (p : Pmm) (f : Nat) : Pmm :=
  { p.frameSetUsed f with
    refcount := Function.update p.refcount f 1
    freeFrames := p.freeFrames - 1
    nextHint := f + 1 }

/-- The bookkeeping of a reference that is given up. -/
def dropFrame (p : Pmm) (f : Nat) : Pmm :=
  let q := { p with refcount := Function.update p.refcount f (p.refcount f - 1) }
  if 0 < q.refcount f then q
  else
    { q.frameSetFree f with
      nextHint := if f < q.nextHint then f else q.nextHint
      freeFrames := q.freeFrames + 1 }

end Pmm

def pmmAllocFrame (p : Pmm) : Option Word × Pmm :=
  if p.freeFrames = 0 then (none, p)
  else match p.scanFrames with
    | some f => (some (frameAddr f), p.takeFrame f)
    | none => (none, p)

def pmmFreeFrame (p : Pmm) (phys : Word) : Except Kassert Pmm :=
  if phys &&& 0xFFF#64 ≠ 0#64 then .error .freeAligned
  else
    let f := phys.toNat / pmmFrameSize
    if ¬ f < p.totalFrames then .error .freeRange
    else if p.frameIsFree f then .error .freeUsed
    else if p.refcount f = 0 then .error .freeRefcount
    else .ok (p.dropFrame f)

def pmmRefFrame (p : Pmm) (phys : Word) : Except Kassert Pmm :=
  if phys &&& 0xFFF#64 ≠ 0#64 then .error .refAligned
  else
    let f := phys.toNat / pmmFrameSize
    if ¬ f < p.totalFrames then .error .refRange
    else if p.frameIsFree f then .error .refUsed
    else if p.refcount f = 0 then .error .refPositive
    else if ¬ p.refcount f < uint16Max then .error .refSaturated
    else .ok { p with refcount := Function.update p.refcount f (p.refcount f + 1) }

def pmmFrameRefcount (p : Pmm) (phys : Word) : Except Kassert Nat :=
  if phys &&& 0xFFF#64 ≠ 0#64 then .error .countAligned
  else
    let f := phys.toNat / pmmFrameSize
    if ¬ f < p.totalFrames then .error .countRange
    else .ok (p.refcount f)

/-! ## Addresses of frames -/

theorem frameAddr_aligned (f : Nat) : frameAddr f &&& 0xFFF#64 = 0#64 := by
  apply BitVec.eq_of_toNat_eq
  rw [BitVec.toNat_and]
  change (BitVec.ofNat 64 (f * pmmFrameSize)).toNat &&& (2 ^ 12 - 1) = 0
  rw [Nat.and_two_pow_sub_one_eq_mod, BitVec.toNat_ofNat]
  simp only [pmmFrameSize]
  omega

theorem frameAddr_toNat {f : Nat} (lt : f < 2 ^ 40) :
    (frameAddr f).toNat = f * pmmFrameSize := by
  rw [frameAddr, BitVec.toNat_ofNat]
  simp only [pmmFrameSize]
  omega

theorem frameAddr_frame {f : Nat} (lt : f < 2 ^ 40) :
    (frameAddr f).toNat / pmmFrameSize = f := by
  rw [frameAddr_toNat lt]
  simp [pmmFrameSize]

/-! ## The bitmap as a set of frames -/

namespace Pmm

theorem frame_split (f g : Nat) : f = g ↔ f >>> 3 = g >>> 3 ∧ f &&& 7 = g &&& 7 := by
  rw [Nat.shiftRight_eq_div_pow, Nat.shiftRight_eq_div_pow,
    show 7 = 2 ^ 3 - 1 from rfl, Nat.and_two_pow_sub_one_eq_mod, Nat.and_two_pow_sub_one_eq_mod]
  omega

theorem bit_lt (f : Nat) : f &&& 7 < 8 := by
  rw [show 7 = 2 ^ 3 - 1 from rfl, Nat.and_two_pow_sub_one_eq_mod]
  omega

theorem frameIsFree_iff (p : Pmm) (f : Nat) :
    p.frameIsFree f = true ↔ (p.bitmap (f >>> 3)).getLsbD (f &&& 7) = false := by
  rw [frameIsFree, beq_iff_eq, and_bit_eq_zero _ (bit_lt f)]

theorem frameIsFree_setUsed (p : Pmm) (f g : Nat) :
    (p.frameSetUsed f).frameIsFree g = true ↔ p.frameIsFree g = true ∧ g ≠ f := by
  rw [frameIsFree_iff, frameIsFree_iff]
  by_cases byte : g >>> 3 = f >>> 3
  · have same : g = f ↔ g &&& 7 = f &&& 7 := by
      rw [frame_split]
      simp [byte]
    simp only [frameSetUsed, byte, Function.update_self, getLsbD_or_bit _ _ (bit_lt g),
      ne_eq, same, Bool.or_eq_false_iff, decide_eq_false_iff_not]
  · have ne : g ≠ f := fun h => byte (by rw [h])
    simp [frameSetUsed, Function.update_of_ne byte, ne]

theorem frameIsFree_setFree (p : Pmm) (f g : Nat) :
    (p.frameSetFree f).frameIsFree g = true ↔ p.frameIsFree g = true ∨ g = f := by
  rw [frameIsFree_iff, frameIsFree_iff]
  by_cases byte : g >>> 3 = f >>> 3
  · have same : g = f ↔ g &&& 7 = f &&& 7 := by
      rw [frame_split]
      simp [byte]
    simp only [frameSetFree, byte, Function.update_self, getLsbD_and_not_bit _ _ (bit_lt g),
      same, Bool.and_eq_false_iff, Bool.not_eq_false', decide_eq_true_eq]
  · have ne : g ≠ f := fun h => byte (by rw [h])
    simp [frameSetFree, Function.update_of_ne byte, ne]

/-- The frames below the limit whose bit is clear. -/
def freeSet (p : Pmm) : Finset Nat := (Finset.range p.totalFrames).filter (p.frameIsFree ·)

/-- In use although nothing counts it: memory `pmm_init` never handed to the pool. -/
def Hole (p : Pmm) (f : Nat) : Prop := p.frameIsFree f = false ∧ p.refcount f = 0

/-- The redundant views agree. -/
structure Ok (p : Pmm) : Prop where
  total_le : p.totalFrames ≤ pmmMaxFrames
  free_zero : ∀ f, f < p.totalFrames → p.frameIsFree f = true → p.refcount f = 0
  count : p.freeFrames = p.freeSet.card

/-- What the scans look for. -/
def available (p : Pmm) (f : Nat) : Bool := decide (f < p.totalFrames) && p.frameIsFree f

theorem available_iff (p : Pmm) (f : Nat) :
    p.available f = true ↔ f < p.totalFrames ∧ p.frameIsFree f = true := by
  rw [available, Bool.and_eq_true, decide_eq_true_eq]

/-- The bits of a byte are looked at in the order of the frames. -/
theorem scanBits_find (p : Pmm) (byte : Nat) : ∀ {n first : Nat}, first + n ≤ 8 →
    p.scanBits byte (List.range' first n) = (List.range' (byte * 8 + first) n).find? p.available := by
  intro n
  induction n with
  | zero =>
    intro first _
    rfl
  | succ n ih =>
    intro first fits
    have byteEq : (byte * 8 + first) >>> 3 = byte := by
      rw [Nat.shiftRight_eq_div_pow]
      omega
    have bitEq : (byte * 8 + first) &&& 7 = first := by
      rw [show 7 = 2 ^ 3 - 1 from rfl, Nat.and_two_pow_sub_one_eq_mod]
      omega
    rw [List.range'_succ, List.range'_succ, scanBits]
    split
    · rename_i beyond
      -- the source stops here, and no later frame is in range
      symm
      rw [← List.range'_succ, List.find?_eq_none]
      intro f member found
      have low := (List.mem_range'_1.mp member).1
      have lt := ((p.available_iff f).mp found).1
      omega
    · rename_i inside
      have bit : p.available (byte * 8 + first) = true ↔
          p.bitmap byte &&& (1#8 <<< first) = 0#8 := by
        rw [available_iff, frameIsFree, byteEq, bitEq, beq_iff_eq]
        exact and_iff_right (by omega)
      split
      · rename_i clear
        rw [List.find?_cons_of_pos (bit.mpr clear)]
      · rename_i set
        rw [List.find?_cons_of_neg (fun found => set (bit.mp found)), ih (by omega)]
        rfl

theorem scanBytes_find (p : Pmm) : ∀ {n first : Nat},
    p.scanBytes (List.range' first n) = (List.range' (first * 8) (n * 8)).find? p.available := by
  intro n
  induction n with
  | zero => simp [scanBytes]
  | succ n ih =>
    intro first
    have split_ : List.range' (first * 8) ((n + 1) * 8) =
        List.range' (first * 8) 8 ++ List.range' ((first + 1) * 8) (n * 8) := by
      rw [Nat.succ_mul n, Nat.add_comm (n * 8), Nat.succ_mul first, ← List.range'_append_1]
    have byte : p.scanBits first (List.range 8) = (List.range' (first * 8) 8).find? p.available := by
      rw [List.range_eq_range', p.scanBits_find first (by omega), Nat.add_zero]
    rw [List.range'_succ, scanBytes, split_, List.find?_append, ih, byte]
    split
    · rename_i full
      -- a full byte has no free frame
      have nothing : (List.range' (first * 8) 8).find? p.available = none := by
        rw [List.find?_eq_none]
        intro f member found
        obtain ⟨low, high⟩ := List.mem_range'_1.mp member
        have here : f >>> 3 = first := by
          rw [Nat.shiftRight_eq_div_pow]
          omega
        have free := ((p.available_iff f).mp found).2
        rw [frameIsFree, here, full, beq_iff_eq] at free
        have all : ∀ k : Fin 8, 0xFF#8 &&& (1#8 <<< k.val) ≠ 0#8 := by decide
        exact all ⟨f &&& 7, bit_lt f⟩ free
      rw [nothing, Option.none_or]
    · split
      · rename_i found
        rw [found, Option.some_or]
      · rename_i nothing
        rw [nothing, Option.none_or]

/-- Whatever the hint, a frame that is found lies in range and is free. -/
theorem scanFrames_some {p : Pmm} {f : Nat} (found : p.scanFrames = some f) :
    f < p.totalFrames ∧ p.frameIsFree f = true := by
  rw [← available_iff]
  unfold scanFrames at found
  dsimp only at found
  rw [List.range_eq_range', scanBytes_find, scanBytes_find] at found
  split at found
  · rename_i first
    rw [found] at first
    exact List.find?_some first
  · exact List.find?_some found

/-- The two passes together look at every frame. -/
theorem scanFrames_complete {p : Pmm} {f : Nat} (lt : f < p.totalFrames)
    (free : p.frameIsFree f = true) : p.scanFrames ≠ none := by
  have found := (p.available_iff f).mpr ⟨lt, free⟩
  unfold scanFrames
  dsimp only
  rw [List.range_eq_range', scanBytes_find, scanBytes_find, Nat.shiftRight_eq_div_pow]
  intro nothing
  split at nothing
  · cases nothing
  · rename_i first
    rw [List.find?_eq_none] at first nothing
    by_cases early : f < p.nextHint / 2 ^ 3 * 8
    · exact nothing f (List.mem_range'_1.mpr ⟨by omega, by omega⟩) found
    · exact first f (List.mem_range'_1.mpr ⟨by omega, by omega⟩) found

theorem takeFrame_free (p : Pmm) (f g : Nat) :
    (p.takeFrame f).frameIsFree g = true ↔ p.frameIsFree g = true ∧ g ≠ f :=
  frameIsFree_setUsed p f g

theorem takeFrame_refcount (p : Pmm) (f : Nat) :
    (p.takeFrame f).refcount = Function.update p.refcount f 1 := rfl

theorem takeFrame_ok {p : Pmm} (ok : p.Ok) {f : Nat} (lt : f < p.totalFrames)
    (free : p.frameIsFree f = true) : (p.takeFrame f).Ok where
  total_le := ok.total_le
  free_zero := by
    intro g gt gfree
    obtain ⟨wasFree, ne⟩ := (takeFrame_free p f g).mp gfree
    change Function.update p.refcount f 1 g = 0
    rw [Function.update_of_ne ne]
    exact ok.free_zero g gt wasFree
  count := by
    have erased : (p.takeFrame f).freeSet = p.freeSet.erase f := by
      ext g
      simp only [freeSet, Finset.mem_filter, Finset.mem_erase, Finset.mem_range, takeFrame_free]
      change g < p.totalFrames ∧ _ ↔ _
      tauto
    have member : f ∈ p.freeSet := by simp [freeSet, lt, free]
    change p.freeFrames - 1 = _
    rw [erased, Finset.card_erase_of_mem member, ok.count]

theorem takeFrame_hole {p : Pmm} {f : Nat} (free : p.frameIsFree f = true) (g : Nat) :
    (p.takeFrame f).Hole g ↔ p.Hole g := by
  by_cases same : g = f
  · subst same
    simp [Hole, takeFrame, free]
  · have bit : (p.takeFrame f).frameIsFree g = p.frameIsFree g := by
      rw [Bool.eq_iff_iff, takeFrame_free]
      simp [same]
    have count : (p.takeFrame f).refcount g = p.refcount g := Function.update_of_ne same _ _
    rw [Hole, Hole, bit, count]

@[simp] theorem dropFrame_refcount (p : Pmm) (f : Nat) :
    (p.dropFrame f).refcount = Function.update p.refcount f (p.refcount f - 1) := by
  unfold dropFrame
  dsimp only
  split <;> rfl

@[simp] theorem dropFrame_total (p : Pmm) (f : Nat) :
    (p.dropFrame f).totalFrames = p.totalFrames := by
  unfold dropFrame
  dsimp only
  split <;> rfl

theorem dropFrame_free (p : Pmm) (f g : Nat) :
    (p.dropFrame f).frameIsFree g = true ↔
      p.frameIsFree g = true ∨ (g = f ∧ p.refcount f ≤ 1) := by
  unfold dropFrame
  simp only [Function.update_self]
  split
  · rename_i more
    have notLast : ¬ p.refcount f ≤ 1 := by omega
    simp only [notLast, and_false, or_false]
    rfl
  · rename_i last
    have isLast : p.refcount f ≤ 1 := by omega
    simp only [isLast, and_true]
    exact frameIsFree_setFree _ f g

theorem dropFrame_ok {p : Pmm} (ok : p.Ok) {f : Nat} (lt : f < p.totalFrames)
    (used : p.frameIsFree f = false) : (p.dropFrame f).Ok where
  total_le := by simpa using ok.total_le
  free_zero := by
    intro g gt gfree
    rw [dropFrame_total] at gt
    rw [dropFrame_refcount]
    rcases (dropFrame_free p f g).mp gfree with wasFree | ⟨rfl, last⟩
    · have ne : g ≠ f := by
        rintro rfl
        rw [used] at wasFree
        cases wasFree
      rw [Function.update_of_ne ne]
      exact ok.free_zero g gt wasFree
    · rw [Function.update_self]
      omega
  count := by
    by_cases last : p.refcount f ≤ 1
    · have inserted : (p.dropFrame f).freeSet = insert f p.freeSet := by
        ext g
        simp only [freeSet, Finset.mem_filter, Finset.mem_insert, Finset.mem_range,
          dropFrame_free, dropFrame_total, last, and_true]
        constructor
        · rintro ⟨gt, wasFree | rfl⟩
          · exact .inr ⟨gt, wasFree⟩
          · exact .inl rfl
        · rintro (rfl | ⟨gt, wasFree⟩)
          · exact ⟨lt, .inr rfl⟩
          · exact ⟨gt, .inl wasFree⟩
      have absent : f ∉ p.freeSet := by simp [freeSet, used]
      rw [inserted, Finset.card_insert_of_notMem absent, ← ok.count]
      have zero : ¬ 0 < p.refcount f - 1 := by omega
      simp [dropFrame, zero]
    · have same : (p.dropFrame f).freeSet = p.freeSet := by
        ext g
        simp [freeSet, dropFrame_free, last]
      have pos : 0 < p.refcount f - 1 := by omega
      rw [same, ← ok.count]
      simp [dropFrame, pos]

theorem dropFrame_hole {p : Pmm} {f : Nat} (used : p.frameIsFree f = false)
    (pos : 0 < p.refcount f) (g : Nat) : (p.dropFrame f).Hole g ↔ p.Hole g := by
  by_cases same : g = f
  · subst same
    have before : ¬ p.Hole g := fun hole => by
      have zero := hole.2
      omega
    refine iff_of_false ?_ before
    rintro ⟨bit, zero⟩
    rw [dropFrame_refcount, Function.update_self] at zero
    have freed := (dropFrame_free p g g).mpr (.inr ⟨rfl, by omega⟩)
    rw [bit] at freed
    cases freed
  · have bit : (p.dropFrame f).frameIsFree g = p.frameIsFree g := by
      rw [Bool.eq_iff_iff, dropFrame_free]
      simp [same]
    rw [Hole, Hole, bit, dropFrame_refcount, Function.update_of_ne same]

end Pmm

/-- What a frame operation may do to the manager: the limit and the holes stay, the
views stay consistent. -/
structure Pmm.Evolves (p q : Pmm) : Prop where
  ok : q.Ok
  total : q.totalFrames = p.totalFrames
  hole : ∀ f, q.Hole f ↔ p.Hole f

theorem Pmm.Evolves.refl {p : Pmm} (ok : p.Ok) : p.Evolves p := ⟨ok, rfl, fun _ => Iff.rfl⟩

theorem Pmm.Evolves.trans {p q r : Pmm} (first : p.Evolves q) (second : q.Evolves r) :
    p.Evolves r :=
  ⟨second.ok, second.total.trans first.total, fun f => (second.hole f).trans (first.hole f)⟩

/-- A frame that is in use and not a hole is one the counter knows about. -/
theorem Pmm.used_of_refcount {p : Pmm} (ok : p.Ok) {f : Nat} (lt : f < p.totalFrames)
    (pos : 0 < p.refcount f) : p.frameIsFree f = false := by
  by_contra free
  have zero := ok.free_zero f lt (by simpa using free)
  omega

theorem Pmm.frameIsFree_of_counts {p : Pmm} (ok : p.Ok) {f : Nat} (lt : f < p.totalFrames) :
    p.frameIsFree f = true ↔ p.refcount f = 0 ∧ ¬ p.Hole f := by
  constructor
  · intro free
    refine ⟨ok.free_zero f lt free, ?_⟩
    rintro ⟨used, _⟩
    rw [free] at used
    cases used
  · rintro ⟨zero, known⟩
    by_contra used
    exact known ⟨by simpa using used, zero⟩

/-- With the same counts the same number of frames is free. -/
theorem Pmm.Evolves.freeFrames_eq {p q : Pmm} (ok : p.Ok) (evolves : p.Evolves q)
    (counts : ∀ f, f < p.totalFrames → q.refcount f = p.refcount f) :
    q.freeFrames = p.freeFrames := by
  rw [evolves.ok.count, ok.count, freeSet, freeSet, evolves.total]
  congr 1
  apply Finset.filter_congr
  intro f member
  have lt := Finset.mem_range.mp member
  rw [frameIsFree_of_counts evolves.ok (by rwa [evolves.total]), frameIsFree_of_counts ok lt,
    counts f lt, evolves.hole]

theorem pmmAllocFrame_run {p : Pmm} {f : Nat} (left : p.freeFrames ≠ 0)
    (found : p.scanFrames = some f) : pmmAllocFrame p = (some (frameAddr f), p.takeFrame f) := by
  rw [pmmAllocFrame, if_neg left, found]

theorem pmmAllocFrame_cases (p : Pmm) :
    (∃ f, pmmAllocFrame p = (some (frameAddr f), p.takeFrame f) ∧ f < p.totalFrames ∧
      p.frameIsFree f = true) ∨ pmmAllocFrame p = (none, p) := by
  unfold pmmAllocFrame
  split
  · exact .inr rfl
  · split
    · rename_i f found
      exact .inl ⟨f, rfl, Pmm.scanFrames_some found⟩
    · exact .inr rfl

/-- As long as a frame is free, a frame is found. -/
theorem pmmAllocFrame_isSome {p : Pmm} (ok : p.Ok) (left : p.freeFrames ≠ 0) :
    (pmmAllocFrame p).1 ≠ none := by
  have some_ : p.freeSet.card ≠ 0 := by rwa [← ok.count]
  obtain ⟨f, member⟩ := Finset.card_ne_zero.mp some_
  obtain ⟨range, free⟩ := Finset.mem_filter.mp member
  cases found : p.scanFrames with
  | none => exact absurd found (Pmm.scanFrames_complete (Finset.mem_range.mp range) free)
  | some f' =>
    rw [pmmAllocFrame_run left found]
    exact Option.some_ne_none _

theorem pmmAllocFrame_spec {p : Pmm} (ok : p.Ok) :
    (∃ f q, pmmAllocFrame p = (some (frameAddr f), q) ∧ p.Evolves q ∧ f < p.totalFrames ∧
      p.frameIsFree f = true ∧ q.refcount = Function.update p.refcount f 1) ∨
    pmmAllocFrame p = (none, p) := by
  rcases pmmAllocFrame_cases p with ⟨f, run, lt, free⟩ | run
  · exact .inl ⟨f, _, run, ⟨Pmm.takeFrame_ok ok lt free, rfl, Pmm.takeFrame_hole free⟩,
      lt, free, rfl⟩
  · exact .inr run

theorem takeFrame_left {p : Pmm} (ok : p.Ok) {f : Nat} (lt : f < p.totalFrames)
    (free : p.frameIsFree f = true) : (p.takeFrame f).freeFrames + 1 = p.freeFrames := by
  have member : f ∈ p.freeSet := Finset.mem_filter.mpr ⟨Finset.mem_range.mpr lt, free⟩
  have some_ : 0 < p.freeFrames := by
    rw [ok.count]
    exact Finset.card_pos.mpr ⟨f, member⟩
  change p.freeFrames - 1 + 1 = _
  omega

theorem pmmFreeFrame_run {p : Pmm} (ok : p.Ok) {f : Nat} (lt : f < p.totalFrames)
    (pos : 0 < p.refcount f) : pmmFreeFrame p (frameAddr f) = .ok (p.dropFrame f) := by
  have small : f < 2 ^ 40 := lt_of_lt_of_le lt (le_trans ok.total_le (by decide))
  have used := Pmm.used_of_refcount ok lt pos
  simp [pmmFreeFrame, frameAddr_aligned, frameAddr_frame small, lt, used, Nat.ne_of_gt pos]

theorem pmmFreeFrame_spec {p : Pmm} (ok : p.Ok) {f : Nat} (lt : f < p.totalFrames)
    (pos : 0 < p.refcount f) :
    ∃ q, pmmFreeFrame p (frameAddr f) = .ok q ∧ p.Evolves q ∧
      q.refcount = Function.update p.refcount f (p.refcount f - 1) := by
  have used := Pmm.used_of_refcount ok lt pos
  exact ⟨_, pmmFreeFrame_run ok lt pos, ⟨Pmm.dropFrame_ok ok lt used, Pmm.dropFrame_total p f,
    Pmm.dropFrame_hole used pos⟩, Pmm.dropFrame_refcount p f⟩

/-- Taking a further reference stops the kernel only at the top of the counter. -/
theorem pmmRefFrame_spec {p : Pmm} (ok : p.Ok) {f : Nat} (lt : f < p.totalFrames)
    (pos : 0 < p.refcount f) :
    (∃ q, pmmRefFrame p (frameAddr f) = .ok q ∧ p.Evolves q ∧
      q.refcount = Function.update p.refcount f (p.refcount f + 1)) ∨
    (pmmRefFrame p (frameAddr f) = .error .refSaturated ∧ uint16Max ≤ p.refcount f) := by
  have small : f < 2 ^ 40 := lt_of_lt_of_le lt (le_trans ok.total_le (by decide))
  have used := Pmm.used_of_refcount ok lt pos
  by_cases room : p.refcount f < uint16Max
  · left
    refine ⟨{ p with refcount := Function.update p.refcount f (p.refcount f + 1) }, ?_,
      ⟨⟨ok.total_le, ?_, ok.count⟩, rfl, ?_⟩, rfl⟩
    · simp [pmmRefFrame, frameAddr_aligned, frameAddr_frame small, lt, used, Nat.ne_of_gt pos, room]
    · intro g gt gfree
      have ne : g ≠ f := by
        rintro rfl
        exact absurd gfree (by change ¬ p.frameIsFree g = true; simp [used])
      change Function.update p.refcount f _ g = 0
      rw [Function.update_of_ne ne]
      exact ok.free_zero g gt gfree
    · intro g
      change p.frameIsFree g = false ∧ Function.update p.refcount f _ g = 0 ↔ _
      by_cases same : g = f
      · subst same
        simp only [Function.update_self, Pmm.Hole]
        omega
      · rw [Function.update_of_ne same]
        rfl
  · right
    refine ⟨?_, by omega⟩
    simp [pmmRefFrame, frameAddr_aligned, frameAddr_frame small, lt, used, Nat.ne_of_gt pos, room]

theorem pmmFrameRefcount_spec {p : Pmm} (ok : p.Ok) {f : Nat} (lt : f < p.totalFrames) :
    pmmFrameRefcount p (frameAddr f) = .ok (p.refcount f) := by
  have small : f < 2 ^ 40 := lt_of_lt_of_le lt (le_trans ok.total_le (by decide))
  simp [pmmFrameRefcount, frameAddr_aligned, frameAddr_frame small, lt]

end LithiumKernel.Mm
