import LithiumKernel.Lib.Loop
import LithiumKernel.Power.Acpi

/-!
# Walks over the Multiboot2 information (kernel/mm/pmm.c, kernel/power/power.c)

The loops over the tags and over the entries of the memory map, as they are written: a pointer, a
condition and a step that is read from the data. A tag of size 0, or one so large that rounding up
wraps around, is a step of zero bytes, and so is an entry size of 0. The block lies below 4 GiB and
its sizes have 32 bits, so no pointer wraps around in 64 bits.
-/
namespace LithiumKernel.Power

open LithiumKernel.Lib LithiumKernel.Mm

/-! ## The loops -/

def tagType (mem : BootMem) (p : Nat) : Nat := loadField mem p 4

def tagSize (mem : BootMem) (p : Nat) : Nat := loadField mem (p + 4) 4

/-- A round of a loop over the tags that is left at a tag of one of the types `last`. -/
def tagRound (mem : BootMem) (stop : Nat) (last : List Nat) (p : Nat) : Option Nat :=
  if p < stop ∧ tagType mem p ∉ last then some (p + tagStride (tagSize mem p)) else none

def infoEnd (mem : BootMem) (info : Nat) : Nat := info + loadField mem info 4

/-- The loop of `pmm_parse_mb2`. -/
def mmapRound (mem : BootMem) (info : Nat) : Nat → Option Nat :=
  tagRound mem (infoEnd mem info) [mb2TagEnd, mb2TagMmap]

/-- The loop of `find_rsdp_mb2`. -/
def rsdpRound (mem : BootMem) (info : Nat) : Nat → Option Nat :=
  tagRound mem (infoEnd mem info) [mb2TagEnd, mb2TagAcpiOld, mb2TagAcpiNew]

/-- A round of a loop over the entries of the memory map at `tag`, with what it does for one. -/
def entryRound {α : Type} (mem : BootMem) (tag : Nat) (body : α → MapEntry → α) (s : Nat × α) :
    Option (Nat × α) :=
  let entrySize := loadField mem (tag + 8) 4
  if s.1 + entrySize ≤ tag + tagSize mem tag then
    some (s.1 + entrySize, body s.2 (mapEntryAt mem s.1))
  else none

/-- The loop of `pmm_calc_total_frames_mb2`; the value is `top`. -/
def calcRound (mem : BootMem) (tag : Nat) : Nat × Word → Option (Nat × Word) :=
  entryRound mem tag (raiseTop mb2MmapAvailable)

/-- The loop of `pmm_parse_mb2` over the entries. -/
def markRound (mem : BootMem) (tag : Nat) : Nat × Pmm → Option (Nat × Pmm) :=
  entryRound mem tag fun p e =>
    if e.type = mb2MmapAvailable then p.regionMarkFree e.base e.length else p

/-! ## Tags -/

theorem loadField_lt (mem : BootMem) (addr n : Nat) : loadField mem addr n < 256 ^ n := by
  have folded : ∀ indices : List Nat, indices.foldr (fun i acc =>
      (mem (BitVec.ofNat 64 (addr + i))).toNat + 256 * acc) 0 < 256 ^ indices.length := by
    intro indices
    induction indices with
    | nil => simp
    | cons i rest ih =>
      have byte := (mem (BitVec.ofNat 64 (addr + i))).isLt
      rw [List.foldr_cons, List.length_cons, Nat.pow_succ]
      omega
  have all := folded (List.range n)
  rwa [List.length_range] at all

theorem tagStride_eq {size : Nat} (u32 : size < 2 ^ 32) :
    tagStride size = (size + 7) % 2 ^ 32 / 8 * 8 := by
  have rounded := and_not_low_toNat (BitVec.ofNat 32 size + 7#32) 3
  rw [BitVec.toNat_add, BitVec.toNat_ofNat, Nat.mod_eq_of_lt u32] at rounded
  exact rounded

theorem tagStride_zero_iff {size : Nat} (u32 : size < 2 ^ 32) :
    tagStride size = 0 ↔ size = 0 ∨ 2 ^ 32 ≤ size + 7 := by
  rw [tagStride_eq u32]
  omega

theorem tagStride_tagSize (mem : BootMem) (p : Nat) :
    tagStride (tagSize mem p) = 0 ↔ tagSize mem p = 0 ∨ 2 ^ 32 ≤ tagSize mem p + 7 :=
  tagStride_zero_iff (loadField_lt mem (p + 4) 4)

/-- The tag is neither the last one nor of a size that moves the pointer. -/
def TagStalls (mem : BootMem) (stop : Nat) (last : List Nat) (p : Nat) : Prop :=
  p < stop ∧ tagType mem p ∉ last ∧ (tagSize mem p = 0 ∨ 2 ^ 32 ≤ tagSize mem p + 7)

section Tags

variable {mem : BootMem} {stop : Nat} {last : List Nat}

theorem tagRound_stalls {p : Nat} (stalled : TagStalls mem stop last p) :
    tagRound mem stop last p = some p := by
  obtain ⟨inside, more, still⟩ := stalled
  rw [tagRound, if_pos ⟨inside, more⟩, (tagStride_tagSize mem p).mpr still, Nat.add_zero]

theorem tagRound_some {p q : Nat} : tagRound mem stop last p = some q ↔
    (p < stop ∧ tagType mem p ∉ last) ∧ p + tagStride (tagSize mem p) = q := by
  rw [tagRound]
  split <;> simp_all

theorem tagRound_progress {p q : Nat} (taken : tagRound mem stop last p = some q)
    (moves : ¬ TagStalls mem stop last p) : p < stop ∧ p < q := by
  obtain ⟨inside, next⟩ := tagRound_some.mp taken
  have stride : tagStride (tagSize mem p) ≠ 0 := fun zero =>
    moves ⟨inside.1, inside.2, (tagStride_tagSize mem p).mp zero⟩
  exact ⟨inside.1, by omega⟩

theorem tagRound_ends_iff (p : Nat) :
    Ends (tagRound mem stop last) p ↔
      ∀ q, Visits (tagRound mem stop last) p q → ¬ TagStalls mem stop last q := by
  refine @ends_iff_never_stalls _ _ (fun p => stop - p) _ ?_ ?_ p
  · intro p q taken moves
    obtain ⟨inside, further⟩ := tagRound_progress taken moves
    omega
  · exact fun p stalled => ⟨p, tagRound_stalls stalled, stalled⟩

end Tags

/-! ## Entries -/

section Entries

variable {α : Type} {mem : BootMem} {tag : Nat} {body : α → MapEntry → α}

/-- With an entry size of 0 the pointer stays where it is. -/
def EntriesStall (mem : BootMem) (tag : Nat) : Prop :=
  loadField mem (tag + 8) 4 = 0 ∧ 16 ≤ tagSize mem tag

theorem entryRound_ends_iff (a : α) :
    Ends (entryRound mem tag body) (tag + 16, a) ↔ ¬ EntriesStall mem tag := by
  have rule := @ends_iff_never_stalls _ (entryRound mem tag body)
    (fun s => tag + tagSize mem tag + 1 - s.1)
    (fun s => loadField mem (tag + 8) 4 = 0 ∧ s.1 ≤ tag + tagSize mem tag) ?_ ?_ (tag + 16, a)
  · rw [rule]
    constructor
    · rintro never ⟨zero, long⟩
      exact never _ (.here _) ⟨zero, by omega⟩
    · intro moves t visit ⟨zero, inside⟩
      have exit : entryRound mem tag body (tag + 16, a) = none := by
        refine if_neg fun here => moves ⟨zero, ?_⟩
        dsimp only at here
        omega
      cases visit with
      | here => exact moves ⟨zero, by dsimp only at inside; omega⟩
      | next taken => rw [exit] at taken; cases taken
  · intro s t taken moves
    rw [entryRound] at taken
    split at taken
    · rename_i inside
      cases taken
      have positive : loadField mem (tag + 8) 4 ≠ 0 := fun zero => moves ⟨zero, by omega⟩
      dsimp only
      omega
    · cases taken
  · rintro s ⟨zero, inside⟩
    have here : s.1 + loadField mem (tag + 8) 4 ≤ tag + tagSize mem tag := by omega
    exact ⟨_, if_pos here, zero, here⟩

end Entries

/-- The loops over the tags end iff they come to no tag with a step of zero bytes before they are
left. Those over the entries of a memory map end iff its entry size is not 0, or it has no room for
an entry of any size. -/
theorem mb2_walks_end_iff (mem : BootMem) (info : Nat) :
    (Ends (mmapRound mem info) (info + 8) ↔ ∀ p, Visits (mmapRound mem info) (info + 8) p →
      ¬ TagStalls mem (infoEnd mem info) [mb2TagEnd, mb2TagMmap] p) ∧
    (Ends (rsdpRound mem info) (info + 8) ↔ ∀ p, Visits (rsdpRound mem info) (info + 8) p →
      ¬ TagStalls mem (infoEnd mem info) [mb2TagEnd, mb2TagAcpiOld, mb2TagAcpiNew] p) ∧
    ∀ tag, (∀ top, Ends (calcRound mem tag) (tag + 16, top) ↔ ¬ EntriesStall mem tag) ∧
      ∀ pmm, Ends (markRound mem tag) (tag + 16, pmm) ↔ ¬ EntriesStall mem tag :=
  ⟨tagRound_ends_iff _, tagRound_ends_iff _, fun _ => ⟨fun top => entryRound_ends_iff top,
    fun pmm => entryRound_ends_iff pmm⟩⟩

/-- A block of 24 bytes at address 0, whose first tag has type 1 and size 0. -/
def emptyTag : BootMem := fun a => if a = 0#64 then 24#8 else if a = 8#64 then 1#8 else 0#8

/-- Both loops over the tags stay at the first one. -/
theorem mb2_walk_hangs :
    ¬ Ends (mmapRound emptyTag 0) 8 ∧ ¬ Ends (rsdpRound emptyTag 0) 8 := by
  have stays : mmapRound emptyTag 0 8 = some 8 ∧ rsdpRound emptyTag 0 8 = some 8 := by decide
  exact ⟨not_ends_of_stall (fun s (here : s = 8) => ⟨8, here ▸ stays.1, rfl⟩) (rfl : 8 = 8),
    not_ends_of_stall (fun s (here : s = 8) => ⟨8, here ▸ stays.2, rfl⟩) (rfl : 8 = 8)⟩

end LithiumKernel.Power
