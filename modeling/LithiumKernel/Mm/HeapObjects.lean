import LithiumKernel.Mm.KernelMemory

/-!
# The objects of the kernel heap (kernel/mm/heap.c)

Requests of up to 1024 bytes are served from slabs: pages that begin with a header and hold
objects of one size class, the free ones threaded into a list through their first word.
Larger requests get pages of their own, with a header of two words before the block. `kfree`
and `krealloc` tell the two apart by the first word of the page. The counters are in
`HeapFailure`. Addresses are numbers; 0 is `NULL`.

`HeapInv` is the invariant of all that: for every size class the list of its slabs, the large
blocks in use, and one owner for every page.
-/
namespace LithiumKernel.Mm

open LithiumKernel.Lib

/-! ## The source -/

def slabHdrSize : Nat := 64
def slabMagic : Nat := 0xA110C8ED
def largeCanary : Nat := 0xFEEDFACEDEADBEEF

def slabObjSize (cls : Fin 7) : Nat := [16, 32, 64, 128, 256, 512, 1024].getD cls.val 0

/-- The number of objects in a slab. -/
def slabTotal (cls : Fin 7) : Nat := (4096 - slabHdrSize) / slabObjSize cls

def sizeToClass (sz : Nat) : Option (Fin 7) :=
  (List.finRange 7).find? fun cls => sz ≤ slabObjSize cls

/-- The header and the free list of a new slab at `s`. -/
def slabInit (cls : Fin 7) (s : Nat) : HeapM Unit := do
  let objSize := slabObjSize cls
  let total := slabTotal cls
  kstore 4 s slabMagic
  kstore 4 (s + 4) objSize
  kstore 2 (s + 8) total
  kstore 2 (s + 10) total
  kstore 8 (s + 24) 0
  kstore 8 (s + 32) 0
  let base := s + slabHdrSize
  kstore 8 (s + 16) base
  forM (List.range (total - 1)) fun i =>
    kstore 8 (base + i * objSize) (base + (i + 1) * objSize)
  kstore 8 (base + (total - 1) * objSize) 0

/-- `slab_alloc_page` of heap.c, with `slabAllocPage` for its mapping part. -/
def slabAllocPageFor (cls : Fin 7) : HeapM Nat := do
  match ← onMm slabAllocPage with
  | none => pure 0
  | some virt =>
    slabInit cls virt.toNat
    pure virt.toNat

def slabOf (ptr : Nat) : Nat := ptr - ptr % 4096

/-- `while (s && s->free_count == 0) s = s->next`, for at most `fuel` slabs. -/
def findSlab : Nat → Nat → HeapM Nat
  | 0, _ => throw .endlessList
  | fuel + 1, s => do
    if s = 0 then pure 0
    else if (← kload 2 (s + 8)) ≠ 0 then pure s
    else findSlab fuel (← kload 8 (s + 24))

/-- `if (slab_heads[cls]) slab_heads[cls]->prev = s`. -/
def linkPrev (head s : Nat) : HeapM Unit :=
  if head ≠ 0 then kstore 8 (head + 32) s else pure ()

/-- A new slab in front of the list of its class. -/
def slabPrepend (cls : Fin 7) : HeapM Nat := do
  let s ← slabAllocPageFor cls
  if s = 0 then pure 0
  else
    let head := (← get).slabHeads cls
    kstore 8 (s + 24) head
    linkPrev head s
    modify fun h => { h with slabHeads := Function.update h.slabHeads cls s }
    pure s

/-- The first free object of a slab. -/
def slabTake (s : Nat) : HeapM Nat := do
  let obj ← kload 8 (s + 16)
  kstore 8 (s + 16) (← kload 8 obj)
  let count ← kload 2 (s + 8)
  kstore 2 (s + 8) ((count + 0xFFFF) % 0x10000)
  pure obj

/-- No list of slabs is longer than there are pages of addresses. -/
def maxSlabs : Nat := 2 ^ 52

def kmallocSlab (cls : Fin 7) : HeapM Nat := do
  let found ← findSlab maxSlabs ((← get).slabHeads cls)
  let s ← if found ≠ 0 then pure found else slabPrepend cls
  if s = 0 then pure 0 else slabTake s

def kmallocBlock (size : Nat) : HeapM Nat := do
  match ← onMm (kmallocLarge (BitVec.ofNat 64 size)) with
  | none => pure 0
  | some p =>
    let hdr := p.toNat - 16
    kstore 8 hdr ((largeBytes (BitVec.ofNat 64 size)).toNat / 4096)
    kstore 8 (hdr + 8) largeCanary
    pure p.toNat

def kmalloc (size : Nat) : HeapM Nat :=
  if size = 0 then pure 0
  else
    let size := if size < 16 then 16 else size
    match sizeToClass (size % 2 ^ 32) with
    | some cls => kmallocSlab cls
    | none => kmallocBlock size

def kzalloc (size : Nat) : HeapM Nat := do
  let p ← kmalloc size
  if p = 0 then pure 0
  else
    memset p 0#8 size
    pure p

def kfreeSlab (ptr s : Nat) : HeapM Unit :=
  if ptr < s + slabHdrSize then throw .belowHeader
  else do
    kstore 8 ptr (← kload 8 (s + 16))
    kstore 8 (s + 16) ptr
    kstore 2 (s + 8) (((← kload 2 (s + 8)) + 1) % 0x10000)

/-- The address of the header of a large block. -/
def largeHdr (ptr : Nat) : Nat := (ptr + (2 ^ 64 - 16)) % 2 ^ 64

def kfreeBlock (ptr : Nat) : HeapM Unit := do
  let hdr := largeHdr ptr
  if (← kload 8 (hdr + 8)) ≠ largeCanary then throw .canary
  else
    let pages ← kload 8 hdr
    onMm (kfreeLarge (BitVec.ofNat 64 hdr) pages)

def kfree (ptr : Nat) : HeapM Unit :=
  if ptr = 0 then pure ()
  else do
    let s := slabOf ptr
    if (← kload 4 s) = slabMagic then kfreeSlab ptr s else kfreeBlock ptr

/-- The size of a block, from its header. -/
def oldSize (ptr : Nat) : HeapM Nat := do
  let s := slabOf ptr
  if (← kload 4 s) = slabMagic then kload 4 (s + 4)
  else
    let pages ← kload 8 (largeHdr ptr)
    pure ((pages * 4096 + (2 ^ 64 - 16)) % 2 ^ 64)

def krealloc (ptr newSize : Nat) : HeapM Nat :=
  if ptr = 0 then kmalloc newSize
  else if newSize = 0 then do
    kfree ptr
    pure 0
  else do
    let old ← oldSize ptr
    if newSize ≤ old then pure ptr
    else
      let np ← kmalloc newSize
      if np = 0 then pure 0
      else
        memcpy np ptr old
        kfree ptr
        pure np

/-! ## Size classes -/

theorem slabObjSize_facts : ∀ cls : Fin 7, 16 ≤ slabObjSize cls ∧ slabObjSize cls % 16 = 0 ∧
    slabObjSize cls ≤ 1024 ∧ 3 ≤ slabTotal cls ∧ slabTotal cls < 256 ∧
    64 + slabTotal cls * slabObjSize cls ≤ 4096 := by decide

/-- The objects of a slab. -/
def slabObjects (cls : Fin 7) (base : Nat) : List Nat :=
  (List.range (slabTotal cls)).map fun i => base + slabHdrSize + i * slabObjSize cls

theorem mem_slabObjects {cls : Fin 7} {base o : Nat} :
    o ∈ slabObjects cls base ↔
      ∃ i < slabTotal cls, o = base + 64 + i * slabObjSize cls := by
  simp only [slabObjects, List.mem_map, List.mem_range, slabHdrSize]
  constructor
  · rintro ⟨i, lt, rfl⟩
    exact ⟨i, lt, rfl⟩
  · rintro ⟨i, lt, rfl⟩
    exact ⟨i, lt, rfl⟩

theorem object_within {cls : Fin 7} {base o : Nat} (here : o ∈ slabObjects cls base) :
    base + 64 ≤ o ∧ o + slabObjSize cls ≤ base + 4096 := by
  obtain ⟨i, lt, rfl⟩ := mem_slabObjects.mp here
  have le : (i + 1) * slabObjSize cls ≤ slabTotal cls * slabObjSize cls :=
    Nat.mul_le_mul_right _ lt
  have fits := (slabObjSize_facts cls).2.2.2.2.2
  rw [Nat.add_mul, Nat.one_mul] at le
  omega

theorem object_aligned {cls : Fin 7} {base o : Nat} (here : o ∈ slabObjects cls base)
    (aligned : base % 4096 = 0) : o % 16 = 0 := by
  obtain ⟨i, _, rfl⟩ := mem_slabObjects.mp here
  obtain ⟨k, even⟩ := Nat.dvd_of_mod_eq_zero (slabObjSize_facts cls).2.1
  have multiple : i * slabObjSize cls = 16 * (i * k) := by
    rw [even, Nat.mul_left_comm]
  omega

theorem objects_apart {cls : Fin 7} {base o o' : Nat} (here : o ∈ slabObjects cls base)
    (there : o' ∈ slabObjects cls base) (ne : o ≠ o') :
    o + slabObjSize cls ≤ o' ∨ o' + slabObjSize cls ≤ o := by
  obtain ⟨i, _, rfl⟩ := mem_slabObjects.mp here
  obtain ⟨j, _, rfl⟩ := mem_slabObjects.mp there
  have step : ∀ {i j : Nat}, i < j →
      i * slabObjSize cls + slabObjSize cls ≤ j * slabObjSize cls := by
    intro i j lt
    have le := Nat.mul_le_mul_right (slabObjSize cls) (Nat.succ_le_of_lt lt)
    rwa [Nat.succ_mul] at le
  rcases Nat.lt_trichotomy i j with lt | rfl | lt
  · have := step lt
    omega
  · exact absurd rfl ne
  · have := step lt
    omega

theorem nodup_slabObjects (cls : Fin 7) (base : Nat) : (slabObjects cls base).Nodup := by
  refine List.Nodup.map_on ?_ List.nodup_range
  intro i _ j _ same
  have pos : 0 < slabObjSize cls := by
    have := (slabObjSize_facts cls).1
    omega
  exact Nat.eq_of_mul_eq_mul_right pos (by omega)

theorem length_slabObjects (cls : Fin 7) (base : Nat) :
    (slabObjects cls base).length = slabTotal cls := by
  rw [slabObjects, List.length_map, List.length_range]

/-! ## Slabs in memory -/

structure Slab where
  base : Nat
  free : List Nat

/-- The free list whose first pointer is stored at `a`. -/
inductive FreeChain (m : ByteMem) : Nat → List Nat → Prop where
  | nil {a} : m.Field 8 a 0 → FreeChain m a []
  | cons {a o l} : m.Field 8 a o → FreeChain m o l → FreeChain m a (o :: l)

structure SlabAt (m : ByteMem) (cls : Fin 7) (S : Slab) (next : Nat) : Prop where
  aligned : S.base % 4096 = 0
  mapped : m.Mapped S.base 4096
  magic : m.Field 4 S.base slabMagic
  objSize : m.Field 4 (S.base + 4) (slabObjSize cls)
  count : m.Field 2 (S.base + 8) S.free.length
  list : FreeChain m (S.base + 16) S.free
  link : m.Field 8 (S.base + 24) next
  nodup : S.free.Nodup
  objects : ∀ o ∈ S.free, o ∈ slabObjects cls S.base

/-- The list of slabs that begins at `p`. -/
inductive SlabChain (m : ByteMem) (cls : Fin 7) : Nat → List Slab → Prop where
  | nil : SlabChain m cls 0 []
  | cons {S next l} : S.base ≠ 0 → SlabAt m cls S next → SlabChain m cls next l →
      SlabChain m cls S.base (S :: l)

structure LargeAt (m : ByteMem) (b n : Nat) : Prop where
  aligned : b % 4096 = 0
  pos : 0 < n
  small : n ≤ 2 ^ 21
  mapped : m.Mapped b (n * 4096)
  pages : m.Field 8 b n
  canary : m.Field 8 (b + 8) largeCanary

variable {m m' : ByteMem} {cls : Fin 7} {S : Slab} {next : Nat}

theorem FreeChain.agree {a : Nat} {l : List Nat} (h : FreeChain m a l)
    (first : m.Agree m' a 8) (rest : ∀ o ∈ l, m.Agree m' o 8) : FreeChain m' a l := by
  induction h with
  | nil empty => exact .nil (empty.agree first)
  | cons here _ ih =>
    exact .cons (here.agree first) (ih (rest _ List.mem_cons_self)
      (fun o member => rest o (List.mem_cons_of_mem _ member)))

/-- A slab whose header up to the link and whose free list stay as they are. -/
theorem SlabAt.relink {next' : Nat} (h : SlabAt m cls S next) (mapped : m'.Mapped S.base 4096)
    (header : m.Agree m' S.base 24) (free : ∀ o ∈ S.free, m.Agree m' o 8)
    (link : m'.Field 8 (S.base + 24) next') : SlabAt m' cls S next' where
  aligned := h.aligned
  mapped := mapped
  magic := h.magic.agree (header.sub (by omega) (by omega))
  objSize := h.objSize.agree (header.sub (by omega) (by omega))
  count := h.count.agree (header.sub (by omega) (by omega))
  list := h.list.agree (header.sub (by omega) (by omega)) free
  link := link
  nodup := h.nodup
  objects := h.objects

/-- The second half of the header and the objects in use do not matter. -/
theorem SlabAt.agree (h : SlabAt m cls S next) (mapped : m'.Mapped S.base 4096)
    (header : m.Agree m' S.base 32) (free : ∀ o ∈ S.free, m.Agree m' o 8) :
    SlabAt m' cls S next :=
  h.relink mapped (header.sub (by omega) (by omega)) free
    (h.link.agree (header.sub (by omega) (by omega)))

theorem SlabAt.free_agree (h : SlabAt m cls S next) (same : m.Agree m' (S.base + 64) 4032) :
    ∀ o ∈ S.free, m.Agree m' o 8 := by
  intro o member
  obtain ⟨low, high⟩ := object_within (h.objects o member)
  have size := (slabObjSize_facts cls).1
  exact same.sub (by omega) (by omega)

theorem SlabAt.agree_page (h : SlabAt m cls S next) (same : m.Agree m' S.base 4096) :
    SlabAt m' cls S next :=
  h.agree (h.mapped.agree same) (same.sub (by omega) (by omega))
    (h.free_agree (same.sub (by omega) (by omega)))

theorem SlabChain.map {p : Nat} {l : List Slab} (h : SlabChain m cls p l)
    (each : ∀ S ∈ l, ∀ next, SlabAt m cls S next → SlabAt m' cls S next) :
    SlabChain m' cls p l := by
  induction h with
  | nil => exact .nil
  | cons ne here _ ih =>
    exact .cons ne (each _ List.mem_cons_self _ here)
      (ih fun S member => each S (List.mem_cons_of_mem _ member))

theorem SlabChain.agree {p : Nat} {l : List Slab} (h : SlabChain m cls p l)
    (same : ∀ S ∈ l, m.Agree m' S.base 4096) : SlabChain m' cls p l :=
  h.map fun S member _ here => here.agree_page (same S member)

/-- Only the header of a large block matters. -/
theorem LargeAt.agree_header {b n : Nat} (h : LargeAt m b n) (mapped : m'.Mapped b (n * 4096))
    (header : m.Agree m' b 16) : LargeAt m' b n where
  aligned := h.aligned
  pos := h.pos
  small := h.small
  mapped := mapped
  pages := h.pages.agree (header.sub (by omega) (by omega))
  canary := h.canary.agree (header.sub (by omega) (by omega))

theorem LargeAt.agree {b n : Nat} (h : LargeAt m b n) (same : m.Agree m' b (n * 4096)) :
    LargeAt m' b n := by
  have pos := h.pos
  exact h.agree_header (h.mapped.agree same) (same.sub (by omega) (by omega))

theorem SlabChain.head {p : Nat} {l : List Slab} (h : SlabChain m cls p l) :
    p = 0 ∨ ∃ S ∈ l, S.base = p := by
  cases h with
  | nil => exact .inl rfl
  | cons _ _ _ => exact .inr ⟨_, List.mem_cons_self, rfl⟩

theorem SlabChain.at {p : Nat} {l : List Slab} (h : SlabChain m cls p l) (member : S ∈ l) :
    S.base ≠ 0 ∧ ∃ next, SlabAt m cls S next := by
  induction h with
  | nil => cases member
  | cons ne here _ ih =>
    rcases List.mem_cons.mp member with rfl | later
    · exact ⟨ne, _, here⟩
    · exact ih later

/-- Another free list for the slab at `base`. -/
def setFree (base : Nat) (free : List Nat) (S : Slab) : Slab :=
  if S.base = base then ⟨base, free⟩ else S

theorem setFree_base (base : Nat) (free : List Nat) (S : Slab) : (setFree base free S).base = S.base := by
  unfold setFree
  split
  · rename_i same
    exact same.symm
  · rfl

/-- The free list of one slab changes, the others keep their pages. -/
theorem SlabChain.setFree {p base : Nat} {free : List Nat} {l : List Slab}
    (h : SlabChain m cls p l) (others : ∀ S ∈ l, S.base ≠ base → m.Agree m' S.base 4096)
    (here : ∀ S ∈ l, ∀ next, S.base = base → SlabAt m cls S next → SlabAt m' cls ⟨base, free⟩ next) :
    SlabChain m' cls p (l.map (setFree base free)) := by
  induction h with
  | nil => exact .nil
  | @cons S next l ne slab _ ih =>
    have tail := ih (fun S member => others S (List.mem_cons_of_mem _ member))
      (fun S member => here S (List.mem_cons_of_mem _ member))
    rw [List.map_cons]
    by_cases same : S.base = base
    · have changed := here S List.mem_cons_self next same slab
      have eq : Mm.setFree base free S = ⟨base, free⟩ := if_pos same
      rw [eq, same]
      rw [same] at ne
      exact .cons ne changed tail
    · have eq : Mm.setFree base free S = S := if_neg same
      rw [eq]
      exact .cons ne (slab.agree_page (others S List.mem_cons_self same)) tail

/-! ## The invariant -/

inductive PageOwner where
  | slab (cls : Fin 7)
  | large (base : Nat)
  deriving DecidableEq

/-- What the heap's memory stands for: the slabs of each class, the large blocks in use with
their number of pages, and whom each page has been given to. -/
structure HeapGhost where
  slabs : Fin 7 → List Slab
  large : List (Nat × Nat)
  owner : Nat → Option PageOwner

structure HeapInv (K : KernelTables) (roots : List Nat) (h : HeapState) (G : HeapGhost) : Prop where
  pages : Paged K roots h.mm
  aligned : h.mm.kheapNext.toNat % 4096 = 0
  chain : ∀ c, SlabChain (heapView h.mm) c (h.slabHeads c) (G.slabs c)
  slabOwner : ∀ c, ∀ S ∈ G.slabs c, G.owner S.base = some (.slab c)
  slabNodup : ∀ c, ((G.slabs c).map Slab.base).Nodup
  largeAt : ∀ x ∈ G.large, LargeAt (heapView h.mm) x.1 x.2
  largeOwner : ∀ x ∈ G.large, ∀ i < x.2, G.owner (x.1 + i * 4096) = some (.large x.1)
  ahead : ∀ a, h.mm.kheapNext.toNat ≤ a → G.owner a = none

/-- A block in use: its address, its capacity, and whether a slab holds it. -/
structure Block where
  addr : Nat
  cap : Nat
  slab : Bool
  deriving DecidableEq

/-- The blocks in use. -/
inductive HeapGhost.Live (G : HeapGhost) : Block → Prop where
  | object {c S o} : S ∈ G.slabs c → o ∈ slabObjects c S.base → o ∉ S.free →
      G.Live ⟨o, slabObjSize c, true⟩
  | large {b n} : (b, n) ∈ G.large → G.Live ⟨b + 16, n * 4096 - 16, false⟩

variable {K : KernelTables} {roots : List Nat} {h : HeapState} {G : HeapGhost}

namespace HeapInv

theorem slab (inv : HeapInv K roots h G) {c : Fin 7} (member : S ∈ G.slabs c) :
    S.base ≠ 0 ∧ ∃ next, SlabAt (heapView h.mm) c S next :=
  (inv.chain c).at member

/-- Slabs at one address are one slab. -/
theorem slab_unique (inv : HeapInv K roots h G) {c c' : Fin 7} {S S' : Slab}
    (here : S ∈ G.slabs c) (there : S' ∈ G.slabs c') (same : S.base = S'.base) :
    c = c' ∧ S = S' := by
  have first := inv.slabOwner c S here
  have second := inv.slabOwner c' S' there
  rw [same, second] at first
  obtain rfl : c' = c := PageOwner.slab.inj (Option.some.inj first)
  exact ⟨rfl, List.inj_on_of_nodup_map (inv.slabNodup c') here there same⟩

theorem slabs_apart (inv : HeapInv K roots h G) {c c' : Fin 7} {S S' : Slab}
    (here : S ∈ G.slabs c) (there : S' ∈ G.slabs c') (ne : S.base ≠ S'.base) :
    S.base + 4096 ≤ S'.base ∨ S'.base + 4096 ≤ S.base := by
  obtain ⟨_, _, first⟩ := inv.slab here
  obtain ⟨_, _, second⟩ := inv.slab there
  have aligned := first.aligned
  have aligned' := second.aligned
  omega

/-- A page that belongs to somebody else is outside a large block. -/
theorem large_apart (inv : HeapInv K roots h G) {x : Nat × Nat} (member : x ∈ G.large) {p : Nat}
    (aligned : p % 4096 = 0) (other : G.owner p ≠ some (.large x.1)) :
    p + 4096 ≤ x.1 ∨ x.1 + x.2 * 4096 ≤ p := by
  have base := (inv.largeAt x member).aligned
  by_contra inside
  have place : p = x.1 + (p - x.1) / 4096 * 4096 := by omega
  have lt : (p - x.1) / 4096 < x.2 := by omega
  have own := inv.largeOwner x member _ lt
  rw [← place] at own
  exact other own

theorem large_unique (inv : HeapInv K roots h G) {x y : Nat × Nat} (here : x ∈ G.large)
    (there : y ∈ G.large) (same : x.1 = y.1) : x = y := by
  have first := (inv.largeAt x here).pages
  have second := (inv.largeAt y there).pages
  rw [same] at first
  exact Prod.ext same (first.unique second)

theorem larges_apart (inv : HeapInv K roots h G) {x y : Nat × Nat} (here : x ∈ G.large)
    (there : y ∈ G.large) (ne : x.1 ≠ y.1) :
    x.1 + x.2 * 4096 ≤ y.1 ∨ y.1 + y.2 * 4096 ≤ x.1 := by
  have pos := (inv.largeAt x here).pos
  have pos' := (inv.largeAt y there).pos
  have own := inv.largeOwner x here 0 pos
  have own' := inv.largeOwner y there 0 pos'
  rw [Nat.zero_mul, Nat.add_zero] at own own'
  have first := inv.large_apart there (inv.largeAt x here).aligned (by
    rw [own]
    exact fun eq => ne (PageOwner.large.inj (Option.some.inj eq)))
  have second := inv.large_apart here (inv.largeAt y there).aligned (by
    rw [own']
    exact fun eq => ne (PageOwner.large.inj (Option.some.inj eq)).symm)
  omega

theorem slab_large_apart (inv : HeapInv K roots h G) {c : Fin 7} {x : Nat × Nat}
    (here : S ∈ G.slabs c) (there : x ∈ G.large) :
    S.base + 4096 ≤ x.1 ∨ x.1 + x.2 * 4096 ≤ S.base := by
  obtain ⟨_, _, slab⟩ := inv.slab here
  refine inv.large_apart there slab.aligned ?_
  rw [inv.slabOwner c S here]
  intro eq
  cases eq

/-- A page that somebody owns lies below the end of the heap. -/
theorem below (inv : HeapInv K roots h G) {a : Nat} (owned : G.owner a ≠ none) :
    a < h.mm.kheapNext.toNat := by
  by_contra ge
  exact owned (inv.ahead a (by omega))

theorem slab_below (inv : HeapInv K roots h G) {c : Fin 7} (member : S ∈ G.slabs c) :
    S.base + 4096 ≤ h.mm.kheapNext.toNat := by
  obtain ⟨_, _, slab⟩ := inv.slab member
  have lt := inv.below (a := S.base) (by rw [inv.slabOwner c S member]; simp)
  have aligned := slab.aligned
  have end_ := inv.aligned
  omega

theorem large_below (inv : HeapInv K roots h G) {x : Nat × Nat} (member : x ∈ G.large) :
    x.1 + x.2 * 4096 ≤ h.mm.kheapNext.toNat := by
  obtain ⟨aligned, pos, _⟩ := inv.largeAt x member
  have last : x.2 - 1 < x.2 := by omega
  have lt := inv.below (a := x.1 + (x.2 - 1) * 4096)
    (by rw [inv.largeOwner x member _ last]; simp)
  have end_ := inv.aligned
  have count : (x.2 - 1) * 4096 + 4096 = x.2 * 4096 := by omega
  omega

end HeapInv

end LithiumKernel.Mm
