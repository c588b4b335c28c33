import LithiumKernel.Mm.Pmm

/-!
# Page-table entries and virtual addresses (kernel/mm/vmm.h)

The flag bits of an entry, the frame it names, and the four table indices of a
virtual address. An entry is a frame address with flags outside `VMM_PHYS_MASK`, so
every fact needed later is about single bits or about the two halves of a word.
-/
namespace LithiumKernel.Mm

open LithiumKernel.Lib

def vmmPresent : Word := 1#64 <<< 0
def vmmWrite : Word := 1#64 <<< 1
def vmmUser : Word := 1#64 <<< 2
def vmmHuge : Word := 1#64 <<< 7
def vmmCow : Word := 1#64 <<< 9
def vmmNx : Word := 1#64 <<< 63
def vmmPhysMask : Word := 0x000FFFFFFFFFF000#64
def kernelVma : Word := 0xFFFFFFFF80000000#64
def userSpaceTop : Word := 0x0000800000000000#64
def pageSize : Word := 0x1000#64

def presentUser : Word := vmmPresent ||| vmmUser
def presentUserCow : Word := vmmPresent ||| vmmUser ||| vmmCow
def presentUserWrite : Word := vmmPresent ||| vmmUser ||| vmmWrite

abbrev Idx := Fin 512

instance idxNeZero : @NeZero Nat Zero.ofOfNat0 512 := ⟨by decide⟩

/-- The frame an entry or a physical address names. -/
def frameOf (e : Word) : Nat := (e &&& vmmPhysMask).toNat / pmmFrameSize

def idxOf (v : Word) : Idx := ⟨(v &&& 0x1FF#64).toNat, by
  rw [BitVec.toNat_and]
  exact Nat.lt_of_le_of_lt Nat.and_le_right (by decide)⟩

def pml4Idx (v : Word) : Idx := idxOf (v >>> 39)
def pdptIdx (v : Word) : Idx := idxOf (v >>> 30)
def pdIdx (v : Word) : Idx := idxOf (v >>> 21)
def ptIdx (v : Word) : Idx := idxOf (v >>> 12)

def makeVirt (pml4 pdpt pd pt : Idx) : Word :=
  (BitVec.ofNat 64 pml4.val <<< 39) ||| (BitVec.ofNat 64 pdpt.val <<< 30) |||
    (BitVec.ofNat 64 pd.val <<< 21) ||| (BitVec.ofNat 64 pt.val <<< 12)

def alignUp (x a : Word) : Word := (x + a - 1#64) &&& ~~~(a - 1#64)

def alignDown (x a : Word) : Word := x &&& ~~~(a - 1#64)

/-- What `vmm_map_page` writes into a leaf slot. -/
def leafEntry (phys flags : Word) : Word :=
  (phys &&& vmmPhysMask) ||| (flags &&& ~~~vmmPhysMask) ||| vmmPresent

/-- The indices of a page, innermost first. -/
def pagePath (v : Word) : List Idx := [ptIdx v, pdIdx v, pdptIdx v, pml4Idx v]

/-! ## Flag tests as bits -/

theorem and_present (e : Word) : e &&& vmmPresent = 0#64 ↔ e.getLsbD 0 = false :=
  and_bit_eq_zero e (by decide)

theorem and_write (e : Word) : e &&& vmmWrite = 0#64 ↔ e.getLsbD 1 = false :=
  and_bit_eq_zero e (by decide)

theorem and_user (e : Word) : e &&& vmmUser = 0#64 ↔ e.getLsbD 2 = false :=
  and_bit_eq_zero e (by decide)

theorem and_huge (e : Word) : e &&& vmmHuge = 0#64 ↔ e.getLsbD 7 = false :=
  and_bit_eq_zero e (by decide)

theorem and_cow (e : Word) : e &&& vmmCow = 0#64 ↔ e.getLsbD 9 = false :=
  and_bit_eq_zero e (by decide)

theorem and_presentUser (e : Word) :
    e &&& presentUser = presentUser ↔ e.getLsbD 0 = true ∧ e.getLsbD 2 = true := by
  rw [and_eq_mask_iff]
  constructor
  · intro covers
    exact ⟨covers 0 (by decide) (by decide), covers 2 (by decide) (by decide)⟩
  · rintro ⟨bit0, bit2⟩ k lt set
    simp only [presentUser, vmmPresent, vmmUser, BitVec.getLsbD_or, getLsbD_bit _ _ lt,
      Bool.or_eq_true, decide_eq_true_eq] at set
    rcases set with rfl | rfl <;> assumption

theorem and_presentUserCow (e : Word) :
    e &&& presentUserCow = presentUserCow ↔
      e.getLsbD 0 = true ∧ e.getLsbD 2 = true ∧ e.getLsbD 9 = true :=
  and_three_bits e (by decide) (by decide) (by decide)

theorem and_presentUserWrite (e : Word) :
    e &&& presentUserWrite = presentUserWrite ↔
      e.getLsbD 0 = true ∧ e.getLsbD 2 = true ∧ e.getLsbD 1 = true :=
  and_three_bits e (by decide) (by decide) (by decide)

/-! ## The two halves of an entry -/

theorem physMask_low {k : Nat} (low : k < 12) : vmmPhysMask.getLsbD k = false := by
  have all : ∀ j : Fin 12, vmmPhysMask.getLsbD j.val = false := by decide
  exact all ⟨k, low⟩

/-- The address half carries no flag below bit 12. -/
theorem and_physMask_low (e : Word) {k : Nat} (low : k < 12) :
    (e &&& vmmPhysMask).getLsbD k = false := by
  rw [BitVec.getLsbD_and, physMask_low low, Bool.and_false]

/-- The flag half keeps the flags below bit 12. -/
theorem and_not_physMask_low (e : Word) {k : Nat} (low : k < 12) :
    (e &&& ~~~vmmPhysMask).getLsbD k = e.getLsbD k := by
  have lt : k < 64 := by omega
  rw [BitVec.getLsbD_and, BitVec.getLsbD_not, physMask_low low]
  simp only [lt, decide_true, Bool.not_false, Bool.and_true]

theorem frameOf_lt (e : Word) : frameOf e < 2 ^ 40 := by
  have le : (e &&& vmmPhysMask).toNat ≤ vmmPhysMask.toNat := by
    rw [BitVec.toNat_and]
    exact Nat.and_le_right
  have mask : vmmPhysMask.toNat = 0x000FFFFFFFFFF000 := rfl
  simp only [frameOf, pmmFrameSize]
  omega

/-- The address half is the address of the frame. -/
theorem and_physMask (e : Word) : e &&& vmmPhysMask = frameAddr (frameOf e) := by
  have aligned : (e &&& vmmPhysMask).toNat % 4096 = 0 := by
    have masked : e &&& vmmPhysMask &&& 0xFFF#64 = 0#64 := by
      rw [BitVec.and_assoc, show vmmPhysMask &&& 0xFFF#64 = 0#64 from by decide]
      exact BitVec.and_zero
    have low := congrArg BitVec.toNat masked
    rw [BitVec.toNat_and] at low
    change (e &&& vmmPhysMask).toNat &&& (2 ^ 12 - 1) = 0 at low
    rwa [Nat.and_two_pow_sub_one_eq_mod] at low
  apply BitVec.eq_of_toNat_eq
  rw [frameAddr_toNat (frameOf_lt e)]
  simp only [frameOf, pmmFrameSize]
  omega

theorem frameAddr_and_physMask {f : Nat} (lt : f < 2 ^ 40) :
    frameAddr f &&& vmmPhysMask = frameAddr f := by
  apply BitVec.eq_of_toNat_eq
  rw [BitVec.toNat_and, frameAddr_toNat lt]
  exact mul_pow_and_mask (k := 12) lt

/-- A frame address with flags beside it names that frame. -/
theorem frameOf_or {f : Nat} (lt : f < 2 ^ 40) {flags : Word}
    (outside : flags &&& vmmPhysMask = 0#64) : frameOf (frameAddr f ||| flags) = f := by
  rw [frameOf, or_and_mask (frameAddr_and_physMask lt) outside, frameAddr_frame lt]

theorem frameOf_frameAddr {f : Nat} (lt : f < 2 ^ 40) : frameOf (frameAddr f) = f := by
  rw [frameOf, frameAddr_and_physMask lt, frameAddr_frame lt]

/-- Flags beside the address do not change the frame. -/
theorem frameOf_or_flags (e : Word) {flags : Word} (outside : flags &&& vmmPhysMask = 0#64) :
    frameOf (e ||| flags) = frameOf e := by
  rw [frameOf, or_and_outside outside, frameOf]

theorem frameAddr_low (f : Nat) {k : Nat} (low : k < 12) :
    (frameAddr f).getLsbD k = false := by
  have masked := congrArg (fun v => v.getLsbD k) (frameAddr_aligned f)
  have all : ∀ j : Fin 12, (0xFFF#64 : Word).getLsbD j.val = true := by decide
  have set : (0xFFF#64 : Word).getLsbD k = true := all ⟨k, low⟩
  simpa [BitVec.getLsbD_and, set] using masked

/-! ## The entries the manager writes -/

/-- What `pt_walk_or_alloc` writes into the slot of a new table. -/
def tableEntry (phys : Word) : Word := phys ||| vmmPresent ||| vmmWrite

theorem tableEntry_frame {f : Nat} (lt : f < 2 ^ 40) : frameOf (tableEntry (frameAddr f)) = f := by
  rw [tableEntry, frameOf_or_flags _ (by decide), frameOf_or lt (by decide)]

theorem tableEntry_low (f : Nat) {k : Nat} (low : k < 12) :
    (tableEntry (frameAddr f)).getLsbD k = decide (k = 0 ∨ k = 1) := by
  have lt : k < 64 := by omega
  simp only [tableEntry, vmmPresent, vmmWrite, BitVec.getLsbD_or, frameAddr_low f low,
    getLsbD_bit _ _ lt, Bool.false_or, Bool.decide_or]

theorem leafEntry_frame {f : Nat} (lt : f < 2 ^ 40) (flags : Word) :
    frameOf (leafEntry (frameAddr f) flags) = f := by
  rw [leafEntry, frameOf_or_flags _ (by decide), frameAddr_and_physMask lt,
    frameOf_or lt (and_not_and_self flags vmmPhysMask)]

theorem leafEntry_low (f : Nat) (flags : Word) {k : Nat} (low : k < 12) :
    (leafEntry (frameAddr f) flags).getLsbD k = (flags.getLsbD k || decide (k = 0)) := by
  have lt : k < 64 := by omega
  rw [leafEntry, BitVec.getLsbD_or, BitVec.getLsbD_or, and_physMask_low _ low,
    and_not_physMask_low _ low, Bool.false_or, vmmPresent, getLsbD_bit _ _ lt]

theorem leafEntry_flags (phys flags : Word) :
    leafEntry phys flags &&& ~~~vmmPhysMask = flags &&& ~~~vmmPhysMask ||| vmmPresent := by
  rw [leafEntry, BitVec.and_or_distrib_right, BitVec.and_or_distrib_right, BitVec.and_assoc,
    BitVec.and_not_self, show phys &&& 0 = 0#64 from BitVec.and_zero, BitVec.zero_or,
    BitVec.and_assoc, BitVec.and_self, show vmmPresent &&& ~~~vmmPhysMask = vmmPresent from by decide]

theorem ne_zero_of_bit {e : Word} {k : Nat} (set : e.getLsbD k = true) : e ≠ 0#64 := by
  rintro rfl
  simp at set

/-- The copy-on-write form of a leaf: what `vmm_clone_user_address_space` leaves in the
source and maps in the copy. -/
def cowEntry (e : Word) : Word :=
  if e &&& vmmWrite ≠ 0#64 then (e &&& ~~~vmmWrite) ||| vmmCow else e

/-- The flags under which the copy is mapped. -/
def cowFlags (e : Word) : Word :=
  if e &&& ~~~vmmPhysMask &&& vmmWrite ≠ 0#64 then
    (e &&& ~~~vmmPhysMask &&& ~~~vmmWrite) ||| vmmCow
  else e &&& ~~~vmmPhysMask

theorem flags_and_write (e : Word) : e &&& ~~~vmmPhysMask &&& vmmWrite = e &&& vmmWrite := by
  rw [BitVec.and_assoc, show ~~~vmmPhysMask &&& vmmWrite = vmmWrite from by decide]

/-- A word is its two halves. -/
theorem halves (e : Word) : (e &&& vmmPhysMask) ||| (e &&& ~~~vmmPhysMask) = e := by
  apply BitVec.eq_of_getLsbD_eq
  intro j lt
  rw [BitVec.getLsbD_or, BitVec.getLsbD_and, BitVec.getLsbD_and, BitVec.getLsbD_not]
  cases vmmPhysMask.getLsbD j <;> simp [lt]

theorem cowEntry_halves (e : Word) : (e &&& vmmPhysMask) ||| cowFlags e = cowEntry e := by
  unfold cowFlags cowEntry
  rw [flags_and_write]
  split
  · rw [← BitVec.or_assoc]
    have inside : e &&& vmmPhysMask = e &&& ~~~vmmWrite &&& vmmPhysMask := by
      rw [BitVec.and_assoc, show ~~~vmmWrite &&& vmmPhysMask = vmmPhysMask from by decide]
    have swap : e &&& ~~~vmmPhysMask &&& ~~~vmmWrite = e &&& ~~~vmmWrite &&& ~~~vmmPhysMask := by
      rw [BitVec.and_assoc, BitVec.and_comm (~~~vmmPhysMask), ← BitVec.and_assoc]
    rw [inside, swap, halves]
  · exact halves e

theorem cowFlags_outside (e : Word) : cowFlags e &&& vmmPhysMask = 0#64 := by
  unfold cowFlags
  split
  · rw [or_and_outside (by decide), BitVec.and_assoc, BitVec.and_comm (~~~vmmWrite),
      ← BitVec.and_assoc, and_not_and_self]
    exact BitVec.zero_and
  · exact and_not_and_self e vmmPhysMask

/-- Flags below bit 12 of the copy-on-write form. -/
theorem cowEntry_low (e : Word) {k : Nat} (low : k < 12) :
    (cowEntry e).getLsbD k = if k = 1 then false
      else if k = 9 then e.getLsbD 9 || e.getLsbD 1 else e.getLsbD k := by
  have lt : k < 64 := by omega
  unfold cowEntry
  split
  · rename_i write
    rw [ne_eq, and_write, Bool.not_eq_false] at write
    rw [BitVec.getLsbD_or, vmmWrite, getLsbD_and_not_bit _ _ lt, vmmCow, getLsbD_bit _ _ lt]
    by_cases is1 : k = 1
    · subst is1
      simp
    · by_cases is9 : k = 9
      · subst is9
        simp [write]
      · simp [is1, is9]
  · rename_i write
    rw [not_not, and_write] at write
    by_cases is1 : k = 1
    · subst is1
      simpa using write
    · by_cases is9 : k = 9
      · subst is9
        rw [if_neg is1, if_pos rfl, write, Bool.or_false]
      · simp [is1, is9]

theorem cowEntry_frame (e : Word) : frameOf (cowEntry e) = frameOf e := by
  rw [← cowEntry_halves, frameOf_or_flags _ (cowFlags_outside e), and_physMask,
    frameOf_frameAddr (frameOf_lt e)]

@[simp] theorem cowEntry_zero : cowEntry 0#64 = 0#64 := by decide

/-- A present leaf is mapped into the copy as its copy-on-write form. -/
theorem leafEntry_cow {e : Word} (present : e.getLsbD 0 = true) :
    leafEntry (e &&& vmmPhysMask) (cowFlags e) = cowEntry e := by
  have outside : cowFlags e &&& ~~~vmmPhysMask = cowFlags e := by
    have split := halves (cowFlags e)
    rw [cowFlags_outside] at split
    simpa using split
  have absorb : cowEntry e ||| vmmPresent = cowEntry e := by
    apply BitVec.eq_of_getLsbD_eq
    intro j lt
    rw [BitVec.getLsbD_or, vmmPresent, getLsbD_bit _ _ lt]
    by_cases is0 : j = 0
    · subst is0
      simp [cowEntry_low e (k := 0) (by decide), present]
    · simp [is0]
  rw [leafEntry, outside, BitVec.and_assoc, BitVec.and_self, cowEntry_halves, absorb]

/-- The flags a copy-on-write leaf gets when a write to it is resolved. -/
def writableFlags (e : Word) : Word := (e &&& ~~~vmmPhysMask &&& ~~~vmmCow) ||| vmmWrite

theorem writableFlags_outside (e : Word) : writableFlags e &&& vmmPhysMask = 0#64 := by
  rw [writableFlags, or_and_outside (by decide), BitVec.and_assoc, BitVec.and_comm (~~~vmmCow),
    ← BitVec.and_assoc, and_not_and_self]
  exact BitVec.zero_and

theorem writableFlags_low (e : Word) {k : Nat} (low : k < 12) :
    (writableFlags e).getLsbD k = if k = 9 then false else if k = 1 then true else e.getLsbD k := by
  have lt : k < 64 := by omega
  rw [writableFlags, BitVec.getLsbD_or, vmmCow, getLsbD_and_not_bit _ _ lt,
    and_not_physMask_low e low, vmmWrite, getLsbD_bit _ _ lt]
  by_cases is9 : k = 9
  · subst is9
    simp
  · by_cases is1 : k = 1
    · subst is1
      simp
    · simp [is1, is9]

theorem writable_frame {f : Nat} (lt : f < 2 ^ 40) (e : Word) :
    frameOf (frameAddr f ||| writableFlags e) = f :=
  frameOf_or lt (writableFlags_outside e)

theorem writable_low (f : Nat) (e : Word) {k : Nat} (low : k < 12) :
    (frameAddr f ||| writableFlags e).getLsbD k =
      if k = 9 then false else if k = 1 then true else e.getLsbD k := by
  rw [BitVec.getLsbD_or, frameAddr_low f low, Bool.false_or, writableFlags_low e low]

/-! ## Indices of an address -/

theorem idxOf_shift_val (v : Word) (k : Nat) : (idxOf (v >>> k)).val = v.toNat / 2 ^ k % 512 := by
  change ((v >>> k) &&& 0x1FF#64).toNat = _
  rw [BitVec.toNat_and]
  change (v >>> k).toNat &&& (2 ^ 9 - 1) = _
  rw [Nat.and_two_pow_sub_one_eq_mod, BitVec.toNat_ushiftRight, Nat.shiftRight_eq_div_pow]

/-- Clearing the low bits rounds down to a multiple. -/
theorem and_not_low_toNat {w : Nat} (v : BitVec w) (n : Nat) :
    (v &&& ~~~(BitVec.ofNat w (2 ^ n - 1))).toNat = v.toNat / 2 ^ n * 2 ^ n := by
  have shifted : v &&& ~~~(BitVec.ofNat w (2 ^ n - 1)) = (v >>> n) <<< n := by
    apply BitVec.eq_of_getLsbD_eq
    intro i lt
    rw [BitVec.getLsbD_and, BitVec.getLsbD_not, BitVec.getLsbD_ofNat, BitVec.getLsbD_shiftLeft,
      BitVec.getLsbD_ushiftRight, Nat.testBit_two_pow_sub_one]
    by_cases below : i < n
    · simp [below]
    · simp [below, lt, Nat.add_sub_cancel' (Nat.le_of_not_lt below)]
  have le : v.toNat / 2 ^ n * 2 ^ n ≤ v.toNat := Nat.div_mul_le_self _ _
  have bound := v.isLt
  rw [shifted, BitVec.toNat_shiftLeft, BitVec.toNat_ushiftRight, Nat.shiftLeft_eq,
    Nat.shiftRight_eq_div_pow, Nat.mod_eq_of_lt (by omega)]

theorem alignDown_page_toNat (v : Word) : (alignDown v pageSize).toNat = v.toNat / 4096 * 4096 :=
  and_not_low_toNat v 12

theorem alignUp_toNat (v : Word) {n : Nat} (small : n < 64) :
    (alignUp v (BitVec.ofNat 64 (2 ^ n))).toNat =
      (v.toNat + (2 ^ n - 1)) % 2 ^ 64 / 2 ^ n * 2 ^ n := by
  have lt : 2 ^ n < 2 ^ 64 := Nat.pow_lt_pow_right (by decide) small
  have pos := Nat.two_pow_pos n
  have less : BitVec.ofNat 64 (2 ^ n) - 1#64 = BitVec.ofNat 64 (2 ^ n - 1) := by
    apply BitVec.eq_of_toNat_eq
    rw [BitVec.toNat_sub, BitVec.toNat_ofNat, BitVec.toNat_ofNat, BitVec.toNat_ofNat]
    omega
  have sum : v + BitVec.ofNat 64 (2 ^ n) - 1#64 = v + BitVec.ofNat 64 (2 ^ n - 1) := by
    rw [← less, BitVec.sub_eq_add_neg, BitVec.sub_eq_add_neg, BitVec.add_assoc]
  rw [alignUp, sum, less, and_not_low_toNat, BitVec.toNat_add, BitVec.toNat_ofNat,
    Nat.mod_eq_of_lt (by omega : 2 ^ n - 1 < 2 ^ 64)]

theorem alignUp_page_toNat (v : Word) :
    (alignUp v pageSize).toNat = (v.toNat + 4095) % 2 ^ 64 / 4096 * 4096 :=
  alignUp_toNat v (n := 12) (by decide)

theorem and_page_mask {v : Word} (aligned : v.toNat % 4096 = 0) : v &&& 0xFFF#64 = 0#64 := by
  apply BitVec.eq_of_toNat_eq
  rw [BitVec.toNat_and]
  change v.toNat &&& (2 ^ 12 - 1) = 0
  rwa [Nat.and_two_pow_sub_one_eq_mod]

/-- A physical address is a frame and an offset in it. -/
theorem phys_toNat (e v : Word) :
    ((e &&& vmmPhysMask) ||| (v &&& 0xFFF#64)).toNat = frameOf e * 4096 + v.toNat % 4096 := by
  rw [and_physMask, BitVec.toNat_or, BitVec.toNat_and, frameAddr_toNat (frameOf_lt e)]
  change _ ||| v.toNat &&& (2 ^ 12 - 1) = _
  rw [Nat.and_two_pow_sub_one_eq_mod, pmmFrameSize, Nat.mul_comm]
  exact (Nat.two_pow_add_eq_or_of_lt (i := 12) (by omega) (frameOf e)).symm

theorem phys_frame (e v : Word) :
    ((e &&& vmmPhysMask) ||| (v &&& 0xFFF#64)).toNat / pmmFrameSize = frameOf e := by
  rw [phys_toNat, pmmFrameSize]
  omega

theorem phys_offset (e v : Word) :
    ((e &&& vmmPhysMask) ||| (v &&& 0xFFF#64)).toNat % pmmFrameSize = v.toNat % 4096 := by
  rw [phys_toNat, pmmFrameSize]
  omega

theorem alignDown_phys (e v : Word) :
    alignDown ((e &&& vmmPhysMask) ||| (v &&& 0xFFF#64)) pageSize = frameAddr (frameOf e) := by
  apply BitVec.eq_of_toNat_eq
  rw [alignDown_page_toNat, phys_toNat, frameAddr_toNat (frameOf_lt e), pmmFrameSize]
  omega

/-- The page of an address has the indices of the address. -/
theorem pagePath_alignDown (v : Word) : pagePath (alignDown v pageSize) = pagePath v := by
  have same : ∀ n, 12 ≤ n → idxOf (alignDown v pageSize >>> n) = idxOf (v >>> n) := by
    intro n low
    apply Fin.ext
    rw [idxOf_shift_val, idxOf_shift_val, alignDown_page_toNat]
    obtain ⟨m, rfl⟩ := Nat.exists_eq_add_of_le low
    rw [Nat.pow_add, ← Nat.div_div_eq_div_mul, ← Nat.div_div_eq_div_mul,
      show 2 ^ 12 = 4096 from rfl, Nat.mul_div_cancel _ (by decide)]
  simp only [pagePath, ptIdx, pdIdx, pdptIdx, pml4Idx]
  rw [same 12 (by omega), same 21 (by omega), same 30 (by omega), same 39 (by omega)]

/-- Addresses on one page have the same path. -/
theorem pagePath_congr {v v' : Word} (same : v.toNat / 4096 = v'.toNat / 4096) :
    pagePath v = pagePath v' := by
  have down : alignDown v pageSize = alignDown v' pageSize := by
    apply BitVec.eq_of_toNat_eq
    rw [alignDown_page_toNat, alignDown_page_toNat, same]
  rw [← pagePath_alignDown v, down, pagePath_alignDown]

theorem add_one_toNat {v : Word} (room : v.toNat % 4096 + 1 < 4096) :
    (v + 1#64).toNat = v.toNat + 1 := by
  have bound := v.isLt
  rw [BitVec.toNat_add, BitVec.toNat_ofNat]
  omega

/-- The next byte of a page is the next byte of its frame. -/
theorem phys_add_one (e : Word) {v : Word} (room : v.toNat % 4096 + 1 < 4096) :
    (e &&& vmmPhysMask) ||| ((v + 1#64) &&& 0xFFF#64) =
      ((e &&& vmmPhysMask) ||| (v &&& 0xFFF#64)) + 1#64 := by
  apply BitVec.eq_of_toNat_eq
  have next := add_one_toNat room
  have frame := frameOf_lt e
  rw [BitVec.toNat_add, phys_toNat, phys_toNat, next, BitVec.toNat_ofNat]
  omega

theorem makeVirt_toNat (i j k l : Idx) :
    (makeVirt i j k l).toNat =
      i.val * 2 ^ 39 + j.val * 2 ^ 30 + k.val * 2 ^ 21 + l.val * 2 ^ 12 := by
  have field : ∀ (x : Idx) (n : Nat), n ≤ 39 →
      (BitVec.ofNat 64 x.val <<< n).toNat = x.val <<< n := by
    intro x n small
    have lt : x.val < 512 := x.isLt
    have bound : x.val * 2 ^ n < 2 ^ 64 := by
      have pow : 2 ^ n ≤ 2 ^ 39 := Nat.pow_le_pow_right (by decide) small
      calc x.val * 2 ^ n ≤ 512 * 2 ^ 39 := Nat.mul_le_mul (by omega) pow
        _ < 2 ^ 64 := by decide
    have word : (BitVec.ofNat 64 x.val).toNat = x.val := by
      rw [BitVec.toNat_ofNat]
      omega
    rw [BitVec.toNat_shiftLeft, word, Nat.shiftLeft_eq, Nat.mod_eq_of_lt bound]
  have hi := i.isLt
  have hj := j.isLt
  have hk := k.isLt
  have hl := l.isLt
  rw [makeVirt, BitVec.toNat_or, BitVec.toNat_or, BitVec.toNat_or, field i 39 (by omega),
    field j 30 (by omega), field k 21 (by omega), field l 12 (by omega)]
  -- the fields do not overlap, so each `or` is a sum
  have ij : i.val <<< 39 ||| j.val <<< 30 = (i.val * 512 + j.val) <<< 30 := by
    rw [← Nat.shiftLeft_add_eq_or_of_lt (by simp only [Nat.shiftLeft_eq]; omega)]
    simp only [Nat.shiftLeft_eq]
    omega
  have ijk : (i.val * 512 + j.val) <<< 30 ||| k.val <<< 21 =
      ((i.val * 512 + j.val) * 512 + k.val) <<< 21 := by
    rw [← Nat.shiftLeft_add_eq_or_of_lt (by simp only [Nat.shiftLeft_eq]; omega)]
    simp only [Nat.shiftLeft_eq]
    omega
  rw [ij, ijk, ← Nat.shiftLeft_add_eq_or_of_lt (by simp only [Nat.shiftLeft_eq]; omega)]
  simp only [Nat.shiftLeft_eq]
  omega

theorem pagePath_makeVirt (i j k l : Idx) : pagePath (makeVirt i j k l) = [l, k, j, i] := by
  have hi := i.isLt
  have hj := j.isLt
  have hk := k.isLt
  have hl := l.isLt
  have pt : ptIdx (makeVirt i j k l) = l := by
    apply Fin.ext
    rw [ptIdx, idxOf_shift_val, makeVirt_toNat]
    omega
  have pd : pdIdx (makeVirt i j k l) = k := by
    apply Fin.ext
    rw [pdIdx, idxOf_shift_val, makeVirt_toNat]
    omega
  have pdpt : pdptIdx (makeVirt i j k l) = j := by
    apply Fin.ext
    rw [pdptIdx, idxOf_shift_val, makeVirt_toNat]
    omega
  have pml4 : pml4Idx (makeVirt i j k l) = i := by
    apply Fin.ext
    rw [pml4Idx, idxOf_shift_val, makeVirt_toNat]
    omega
  rw [pagePath, pt, pd, pdpt, pml4]

/-- Addresses whose page belongs to one address space alone: the user half without the
identity window behind `PDPT[0]` of `PML4[0]`. -/
def UserPage (v : Word) : Prop := (pml4Idx v).val < 256 ∧ ¬ (pml4Idx v = 0 ∧ pdptIdx v = 0)

instance (v : Word) : Decidable (UserPage v) := inferInstanceAs (Decidable (_ ∧ _))

/-- A page of the user half is determined by its path. -/
theorem makeVirt_pagePath {v : Word} (below : v < userSpaceTop) (aligned : v.toNat % 4096 = 0) :
    makeVirt (pml4Idx v) (pdptIdx v) (pdIdx v) (ptIdx v) = v := by
  have lt : v.toNat < 2 ^ 47 := below
  apply BitVec.eq_of_toNat_eq
  rw [makeVirt_toNat, pml4Idx, pdptIdx, pdIdx, ptIdx, idxOf_shift_val, idxOf_shift_val,
    idxOf_shift_val, idxOf_shift_val]
  omega

/-- The upper bits of an address repeat bit 47. -/
def Canonical (v : Word) : Prop := v.toNat < 2 ^ 47 ∨ 2 ^ 64 - 2 ^ 47 ≤ v.toNat

theorem pagePath_canonical {v w : Word} (hv : Canonical v) (hw : Canonical w) :
    pagePath v = pagePath w ↔ v.toNat / 4096 = w.toNat / 4096 := by
  have v_lt := v.isLt
  have w_lt := w.isLt
  rw [Canonical] at hv hw
  simp only [pagePath, List.cons.injEq, and_true, Fin.ext_iff, pml4Idx, pdptIdx, pdIdx, ptIdx,
    idxOf_shift_val]
  omega

theorem pagePath_user {v w : Word} (v_below : v < userSpaceTop) (w_below : w < userSpaceTop) :
    pagePath v = pagePath w ↔ v.toNat / 4096 = w.toNat / 4096 :=
  pagePath_canonical (.inl v_below) (.inl w_below)

theorem userPage_alignDown {v : Word} : UserPage (alignDown v pageSize) ↔ UserPage v := by
  have path := pagePath_alignDown v
  simp only [pagePath, List.cons.injEq, and_true] at path
  rw [UserPage, UserPage, path.2.2.1, path.2.2.2]

theorem userPage_makeVirt {i j : Idx} (k l : Idx) (lower : i.val < 256)
    (window : ¬ (i = 0 ∧ j = 0)) : UserPage (makeVirt i j k l) := by
  have path := pagePath_makeVirt i j k l
  simp only [pagePath, List.cons.injEq, and_true] at path
  obtain ⟨_, _, pdpt, pml4⟩ := path
  rw [UserPage, pml4, pdpt]
  exact ⟨lower, window⟩

theorem userPage_of_range {v : Word} (low : 2 ^ 30 ≤ v.toNat) (high : v < userSpaceTop) :
    UserPage v := by
  have top : v.toNat < 2 ^ 47 := BitVec.lt_def.mp high
  constructor
  · rw [pml4Idx, idxOf_shift_val]
    omega
  · rintro ⟨pml4, pdpt⟩
    have pml4' := congrArg Fin.val pml4
    have pdpt' := congrArg Fin.val pdpt
    rw [pml4Idx, idxOf_shift_val] at pml4'
    rw [pdptIdx, idxOf_shift_val] at pdpt'
    simp only [Fin.val_zero] at pml4' pdpt'
    omega

end LithiumKernel.Mm
