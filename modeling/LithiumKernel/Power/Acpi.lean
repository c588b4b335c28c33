import LithiumKernel.Mm.PmmInit
import LithiumKernel.Power.S5Package

/-!
# The ACPI tables (kernel/power/power.c)

`power_init` goes from the RSDP to the RSDT or XSDT, from there to the FADT and on to the DSDT, whose
bytes `acpi_parse_s5_package` gets. The firmware says how long each table is, and the header is
subtracted from that in 64 bits before the result is cut to 32. What is printed is left out.
-/
namespace LithiumKernel.Power

open LithiumKernel.Mm

/-! ## The code -/

def sigEq (mem : BootMem) (a : Nat) : List Byte → Bool
  | [] => true
  | b :: rest => mem (BitVec.ofNat 64 a) == b && sigEq mem (a + 1) rest

def checksumOk (mem : BootMem) (data length : Nat) : Bool :=
  (List.range length).foldl (fun sum i => sum + mem (BitVec.ofNat 64 (data + i))) 0#8 == 0#8

def mb2TagAcpiOld : Nat := 14
def mb2TagAcpiNew : Nat := 15

/-- The walk over the Multiboot2 tags from `p` to an RSDP. A step is at least eight bytes long, so
as many rounds as bytes suffice. -/
def findRsdpTag (mem : BootMem) (stop : Nat) : Nat → Nat → Except Fault (Option Nat)
  | 0, _ => .ok none
  | fuel + 1, p =>
    if p < stop then
      if loadField mem p 4 = mb2TagEnd then .ok none
      else if loadField mem p 4 = mb2TagAcpiOld ∨ loadField mem p 4 = mb2TagAcpiNew then
        .ok (some (p + 8))
      else
        let stride := tagStride (loadField mem (p + 4) 4)
        if stride = 0 then .error .hang
        else findRsdpTag mem stop fuel (p + stride)
    else .ok none

def findRsdpMb2 (mem : BootMem) (info : Nat) : Except Fault (Option Nat) :=
  let totalSize := loadField mem info 4
  findRsdpTag mem (info + totalSize) totalSize (info + 8)

def findRsdpPvh (mem : BootMem) (info : Nat) : Option Nat :=
  if info ≠ 0 ∧ loadField mem info 4 = hvmStartMagic ∧ loadField mem (info + 32) 8 ≠ 0 then
    some (loadField mem (info + 32) 8)
  else none

/-- `sizeof(acpi_sdt_header_t)` -/
def sdtHeaderSize : BitVec 64 := 36#64

def sdtLength (mem : BootMem) (table : Nat) : BitVec 32 := BitVec.ofNat 32 (loadField mem (table + 4) 4)

/-- What is left of a table after its header, a `size_t`. -/
def afterHeader (length : BitVec 32) : BitVec 64 := length.setWidth 64 - sdtHeaderSize

/-- `(length - sizeof(header)) / size`, kept in a `uint32_t`. -/
def entryCount (size : Nat) (length : BitVec 32) : BitVec 32 :=
  BitVec.ofNat 32 ((afterHeader length).toNat / size)

/-- The loop over the entries of a table of tables. -/
def findTable (size : Nat) (name : List Byte) (mem : BootMem) (table : Nat)
    (signature : List Byte) : Option Nat :=
  if table = 0 ∨ sigEq mem table name = false then none
  else (List.range (entryCount size (sdtLength mem table)).toNat).findSome? fun i =>
    let h := loadField mem (table + 36 + size * i) size
    if h ≠ 0 ∧ sigEq mem h signature = true then some h else none

/-- `RSDT` -/
def findTableRsdt : BootMem → Nat → List Byte → Option Nat :=
  findTable 4 [0x52#8, 0x53#8, 0x44#8, 0x54#8]

/-- `XSDT` -/
def findTableXsdt : BootMem → Nat → List Byte → Option Nat :=
  findTable 8 [0x58#8, 0x53#8, 0x44#8, 0x54#8]

/-- `uint32_t aml_len = dsdt->length - sizeof(*dsdt)` -/
def amlLength (length : BitVec 32) : BitVec 32 := (afterHeader length).setWidth 32

structure PowerState where
  available : Bool
  pm1aCnt : BitVec 16
  pm1bCnt : BitVec 16
  slpTypA : Byte
  slpTypB : Byte
  smiCmd : BitVec 32
  acpiEnable : Byte
  deriving DecidableEq

def PowerState.zero : PowerState := ⟨false, 0#16, 0#16, 0#8, 0#8, 0#32, 0#8⟩

/-- `FACP` -/
def fadtName : List Byte := [0x46#8, 0x41#8, 0x43#8, 0x50#8]

/-- `DSDT` -/
def dsdtName : List Byte := [0x44#8, 0x53#8, 0x44#8, 0x54#8]

/-- `RSD PTR ` -/
def rsdpName : List Byte := [0x52#8, 0x53#8, 0x44#8, 0x20#8, 0x50#8, 0x54#8, 0x52#8, 0x20#8]

def findFadt (mem : BootMem) (rsdp : Nat) : Option Nat :=
  let revision := loadField mem (rsdp + 15) 1
  let rsdtAddr := loadField mem (rsdp + 16) 4
  let xsdtAddr := loadField mem (rsdp + 24) 8
  (if 2 ≤ revision ∧ xsdtAddr ≠ 0 then findTableXsdt mem xsdtAddr fadtName else none).or
    (if rsdtAddr ≠ 0 then findTableRsdt mem rsdtAddr fadtName else none)

/-- The bytes that `power_init` passes on, with their length. -/
def dsdtBytes (mem : BootMem) (dsdt : Nat) : List Byte :=
  (List.range (amlLength (sdtLength mem dsdt)).toNat).map fun i =>
    mem (BitVec.ofNat 64 (dsdt + 36 + i))

/-- The fields of the FADT that are kept, with the types for S5. -/
def fadtState (mem : BootMem) (fadt : Nat) (slpTypA slpTypB : Byte) : PowerState where
  available := loadField mem (fadt + 64) 4 ≠ 0
  pm1aCnt := BitVec.ofNat 16 (loadField mem (fadt + 64) 4)
  pm1bCnt := BitVec.ofNat 16 (loadField mem (fadt + 68) 4)
  slpTypA := slpTypA
  slpTypB := slpTypB
  smiCmd := BitVec.ofNat 32 (loadField mem (fadt + 48) 4)
  acpiEnable := BitVec.ofNat 8 (loadField mem (fadt + 52) 1)

/-- From the FADT on. -/
def readFadt (mem : BootMem) (fadt : Nat) : Except Fault PowerState :=
  let dsdt := loadField mem (fadt + 40) 4
  if dsdt = 0 ∨ sigEq mem dsdt dsdtName = false then pure PowerState.zero
  else do
    let types ← acpiParseS5Package (dsdtBytes mem dsdt) (amlLength (sdtLength mem dsdt)).toNat
    match types with
    | none => pure PowerState.zero
    | some (slpTypA, slpTypB) => pure (fadtState mem fadt slpTypA slpTypB)

/-- From the RSDP on. -/
def readRsdp (mem : BootMem) (rsdp : Nat) : Except Fault PowerState :=
  if sigEq mem rsdp rsdpName = false ∨ checksumOk mem rsdp 20 = false then pure PowerState.zero
  else
    match findFadt mem rsdp with
    | none => pure PowerState.zero
    | some fadt =>
      if checksumOk mem fadt (sdtLength mem fadt).toNat = false then pure PowerState.zero
      else readFadt mem fadt

def findRsdp (mem : BootMem) (bootMagic bootInfoPhys : BitVec 32) : Except Fault (Option Nat) :=
  if bootMagic = mb2BootloaderMagic then findRsdpMb2 mem bootInfoPhys.toNat
  else pure (findRsdpPvh mem bootInfoPhys.toNat)

/-- `power_state` after the call. -/
def powerInit (mem : BootMem) (bootMagic bootInfoPhys : BitVec 32) : Except Fault PowerState := do
  let rsdp ← findRsdp mem bootMagic bootInfoPhys
  match rsdp with
  | none => pure PowerState.zero
  | some rsdp => readRsdp mem rsdp

/-! ## Lengths -/

theorem afterHeader_long {length : BitVec 32} (long : 36 ≤ length.toNat) :
    (afterHeader length).toNat = length.toNat - 36 := by
  have := length.isLt
  unfold afterHeader sdtHeaderSize
  rw [BitVec.toNat_sub, BitVec.toNat_setWidth]
  simp only [BitVec.toNat_ofNat]
  omega

/-- The subtraction goes below zero in 64 bits. -/
theorem afterHeader_short {length : BitVec 32} (short : length.toNat < 36) :
    (afterHeader length).toNat = 2 ^ 64 - (36 - length.toNat) := by
  unfold afterHeader sdtHeaderSize
  rw [BitVec.toNat_sub, BitVec.toNat_setWidth]
  simp only [BitVec.toNat_ofNat]
  omega

theorem entryCount_inside_iff (length : BitVec 32) {size : Nat} (entries : size = 4 ∨ size = 8) :
    36 + size * (entryCount size length).toNat ≤ length.toNat ↔ 36 ≤ length.toNat := by
  have := length.isLt
  rw [entryCount, BitVec.toNat_ofNat]
  by_cases long : 36 ≤ length.toNat
  · rw [afterHeader_long long]
    rcases entries with rfl | rfl <;> omega
  · rw [afterHeader_short (by omega)]
    rcases entries with rfl | rfl <;> omega

theorem amlLength_inside_iff (length : BitVec 32) :
    36 + (amlLength length).toNat ≤ length.toNat ↔ 36 ≤ length.toNat := by
  have := length.isLt
  rw [amlLength, BitVec.toNat_setWidth]
  by_cases long : 36 ≤ length.toNat
  · rw [afterHeader_long long]
    omega
  · rw [afterHeader_short (by omega)]
    omega

/-- On a buffer with its length the parser reads only inside the buffer and ends. The entries of an
RSDT or XSDT and the AML of a DSDT lie inside the table, iff the table is as long as its header. -/
theorem acpi_reads_inside_iff (length : BitVec 32) :
    (∀ aml : List Byte, aml.length = length.toNat →
      ∃ types, acpiParseS5Package aml length.toNat = .ok types) ∧
    (36 + 4 * (entryCount 4 length).toNat ≤ length.toNat ↔ 36 ≤ length.toNat) ∧
    (36 + 8 * (entryCount 8 length).toNat ≤ length.toNat ↔ 36 ≤ length.toNat) ∧
    (36 + (amlLength length).toNat ≤ length.toNat ↔ 36 ≤ length.toNat) := by
  refine ⟨fun aml size => ?_, entryCount_inside_iff length (.inl rfl),
    entryCount_inside_iff length (.inr rfl), amlLength_inside_iff length⟩
  rw [← size]
  exact ⟨_, acpiParseS5Package_eq (by rw [size]; exact length.isLt)⟩

/-- A table of 44 bytes has room for two entries of the RSDT, and one of the XSDT. -/
theorem acpi_reads_inside_iff_small :
    (∃ types, acpiParseS5Package (List.replicate 44 0#8) 44 = .ok types) ∧
      36 + 4 * (entryCount 4 44#32).toNat ≤ 44 ∧ 36 + 8 * (entryCount 8 44#32).toNat ≤ 44 ∧
      36 + (amlLength 44#32).toNat ≤ 44 :=
  have inside := acpi_reads_inside_iff 44#32
  ⟨inside.1 _ (by decide), inside.2.1.mpr (by decide), inside.2.2.1.mpr (by decide),
    inside.2.2.2.mpr (by decide)⟩

/-- A length one byte shorter than the header: the counts are almost 2^32. -/
theorem acpi_length_underflow :
    entryCount 4 35#32 = 0xFFFFFFFF#32 ∧ entryCount 8 35#32 = 0xFFFFFFFF#32 ∧
      amlLength 35#32 = 0xFFFFFFFF#32 := by
  decide

end LithiumKernel.Power
