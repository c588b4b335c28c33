import LithiumKernel.Mm.HeapObjects

/-!
# Slabs of the kernel heap

What `HeapInv` says about blocks in use, and the functions of kernel/mm/heap.c that work on
one slab: making one, giving out an object, taking one back, finding a slab with a free
object. Every store is inside one page, so all other slabs and blocks keep their bytes.
-/
namespace LithiumKernel.Mm

open LithiumKernel.Lib

variable {K : KernelTables} {roots : List Nat} {h h' : HeapState} {G : HeapGhost} {cls : Fin 7}
  {S : Slab}

/-- The frame pool stops the kernel only at a saturated reference count. -/
def HeapSaturated (e : HeapHalt) (h : HeapState) : Prop := ∃ k, e = .kassert k ∧ Saturated k h.mm

/-- The part `m` of a call that takes pages stopped the kernel. -/
def PagesStopped {α : Type} (m : MmM α) (h : HeapState) (e : HeapHalt) (h' : HeapState) : Prop :=
  ∃ k, m h.mm = .error k h'.mm ∧ e = .kassert k ∧ Saturated k h'.mm

/-- The part `m` of a call that takes pages found no memory, and the call did nothing else. -/
def PagesRefused {α : Type} (m : MmM (Option α)) (h h' : HeapState) : Prop :=
  m h.mm = .ok none h'.mm ∧ h' = { h with mm := h'.mm }

theorem PagesStopped.saturated {α : Type} {m : MmM α} {e : HeapHalt} (stop : PagesStopped m h e h') :
    HeapSaturated e h' := by
  obtain ⟨k, _, rfl, sat⟩ := stop
  exact ⟨k, rfl, sat⟩

/-! ## Blocks in use -/

theorem HeapGhost.Live.ne_zero {b : Block} (here : G.Live b) : b.addr ≠ 0 := by
  cases here with
  | object _ object _ =>
    have := (object_within object).1
    dsimp only
    omega
  | large => simp

namespace HeapInv

/-- Two blocks in use are the same or do not overlap. -/
theorem live_apart (inv : HeapInv K roots h G) {b b' : Block} (here : G.Live b)
    (there : G.Live b') : b = b' ∨ b.addr + b.cap ≤ b'.addr ∨ b'.addr + b'.cap ≤ b.addr := by
  cases here with
  | @object c S o slab object used =>
    obtain ⟨low, high⟩ := object_within object
    cases there with
    | @object c' S' o' slab' object' used' =>
      obtain ⟨low', high'⟩ := object_within object'
      by_cases page : S.base = S'.base
      · obtain ⟨rfl, rfl⟩ := inv.slab_unique slab slab' page
        by_cases same : o = o'
        · subst same
          exact .inl rfl
        · exact .inr (objects_apart object object' same)
      · have apart := inv.slabs_apart slab slab' page
        right
        dsimp only
        omega
    | @large b n member =>
      have apart := inv.slab_large_apart slab member
      have pos := (inv.largeAt _ member).pos
      right
      dsimp only at *
      omega
  | @large b n member =>
    have pos := (inv.largeAt _ member).pos
    cases there with
    | @object c' S' o' slab' object' used' =>
      obtain ⟨low', high'⟩ := object_within object'
      have apart := inv.slab_large_apart slab' member
      right
      dsimp only at *
      omega
    | @large b' n' member' =>
      by_cases same : b = b'
      · obtain ⟨_, rfl⟩ := Prod.mk.inj (inv.large_unique member member' same)
        subst same
        exact .inl rfl
      · have pos' := (inv.largeAt _ member').pos
        have apart := inv.larges_apart member member' same
        right
        dsimp only at *
        omega

theorem live_pos (inv : HeapInv K roots h G) {b : Block} (here : G.Live b) : 0 < b.cap := by
  cases here with
  | @object c S o slab object used =>
    have := (slabObjSize_facts c).1
    dsimp only
    omega
  | @large b n member =>
    have := (inv.largeAt _ member).pos
    dsimp only at *
    omega

theorem live_unique (inv : HeapInv K roots h G) {b b' : Block} (here : G.Live b)
    (there : G.Live b') (same : b.addr = b'.addr) : b = b' := by
  have pos := inv.live_pos here
  have pos' := inv.live_pos there
  rcases inv.live_apart here there with eq | apart
  · exact eq
  · omega

theorem live_aligned (inv : HeapInv K roots h G) {b : Block} (here : G.Live b) :
    b.addr % 16 = 0 := by
  cases here with
  | object slab object _ =>
    obtain ⟨_, _, at_⟩ := inv.slab slab
    exact object_aligned object at_.aligned
  | large member =>
    have := (inv.largeAt _ member).aligned
    dsimp only at *
    omega

theorem live_mapped (inv : HeapInv K roots h G) {b : Block} (here : G.Live b) :
    (heapView h.mm).Mapped b.addr b.cap := by
  cases here with
  | object slab object _ =>
    obtain ⟨_, _, at_⟩ := inv.slab slab
    obtain ⟨low, high⟩ := object_within object
    exact at_.mapped.sub (by dsimp only; omega) (by dsimp only; omega)
  | large member =>
    have at_ := inv.largeAt _ member
    have := at_.pos
    exact at_.mapped.sub (by dsimp only; omega) (by dsimp only at *; omega)

/-- No block in use overlaps the header of a slab. -/
theorem live_header (inv : HeapInv K roots h G) {b : Block} (here : G.Live b) {c : Fin 7}
    (slab : S ∈ G.slabs c) : b.addr + b.cap ≤ S.base ∨ S.base + 64 ≤ b.addr := by
  cases here with
  | @object c' S' o slab' object _ =>
    obtain ⟨low, high⟩ := object_within object
    by_cases same : S'.base = S.base
    · dsimp only
      omega
    · have := inv.slabs_apart slab' slab same
      dsimp only
      omega
  | @large b n member =>
    have apart := inv.slab_large_apart slab member
    have := (inv.largeAt _ member).pos
    dsimp only at *
    omega

/-- No block in use overlaps the header of a large block. -/
theorem live_largeHeader (inv : HeapInv K roots h G) {b : Block} (here : G.Live b)
    {x : Nat × Nat} (member : x ∈ G.large) : b.addr + b.cap ≤ x.1 ∨ x.1 + 16 ≤ b.addr := by
  have pos := (inv.largeAt x member).pos
  cases here with
  | @object c' S' o slab' object _ =>
    obtain ⟨low, high⟩ := object_within object
    have := inv.slab_large_apart slab' member
    dsimp only
    omega
  | @large b n member' =>
    by_cases same : b = x.1
    · dsimp only
      omega
    · have apart := inv.larges_apart member' member same
      have := (inv.largeAt _ member').pos
      dsimp only at *
      omega

/-- A free object is not in use. -/
theorem free_apart (inv : HeapInv K roots h G) {c : Fin 7} (slab : S ∈ G.slabs c) {o : Nat}
    (free : o ∈ S.free) {b : Block} (here : G.Live b) :
    b.addr + b.cap ≤ o ∨ o + slabObjSize c ≤ b.addr := by
  obtain ⟨_, _, at_⟩ := inv.slab slab
  have within := object_within (at_.objects o free)
  cases here with
  | @object c' S' o' slab' object used =>
    have within' := object_within object
    by_cases same : S'.base = S.base
    · obtain ⟨rfl, rfl⟩ := inv.slab_unique slab' slab same
      refine objects_apart object (at_.objects o free) ?_
      rintro rfl
      exact used free
    · have := inv.slabs_apart slab' slab same
      dsimp only
      omega
  | @large b n member =>
    have apart := inv.slab_large_apart slab member
    have pos := (inv.largeAt _ member).pos
    dsimp only at *
    omega

theorem free_not_live (inv : HeapInv K roots h G) {c : Fin 7} (slab : S ∈ G.slabs c) {o : Nat}
    (free : o ∈ S.free) {b : Block} (here : G.Live b) : b.addr ≠ o := by
  have apart := inv.free_apart slab free here
  have pos := inv.live_pos here
  have size := (slabObjSize_facts c).1
  omega

theorem live_below (inv : HeapInv K roots h G) {b : Block} (here : G.Live b) :
    b.addr + b.cap ≤ h.mm.kheapNext.toNat := by
  cases here with
  | object slab object _ =>
    have := inv.slab_below slab
    have := object_within object
    dsimp only
    omega
  | @large b n member =>
    have := inv.large_below member
    have := (inv.largeAt _ member).pos
    dsimp only at *
    omega

/-- What lies beyond the end of the heap does not matter. -/
theorem extend (inv : HeapInv K roots h G) (pages : Paged K roots h'.mm)
    (heads : h'.slabHeads = h.slabHeads) (aligned : h'.mm.kheapNext.toNat % 4096 = 0)
    (next : h.mm.kheapNext.toNat ≤ h'.mm.kheapNext.toNat)
    (below : ∀ a, a < h.mm.kheapNext.toNat → heapView h'.mm a = heapView h.mm a) :
    HeapInv K roots h' G where
  pages := pages
  aligned := aligned
  chain c := by
    rw [heads]
    refine (inv.chain c).agree ?_
    intro S member b _ lt
    have := inv.slab_below member
    exact below b (by omega)
  slabOwner := inv.slabOwner
  slabNodup := inv.slabNodup
  largeAt x member := by
    refine (inv.largeAt x member).agree ?_
    intro b _ lt
    have := inv.large_below member
    exact below b (by omega)
  largeOwner := inv.largeOwner
  ahead a ge := inv.ahead a (by omega)

end HeapInv

/-! ## Stores inside one page -/

/-- What stores inside the page at `s` leave. -/
structure InPage (K : KernelTables) (roots : List Nat) (s : Nat) (h h' : HeapState) : Prop where
  pages : Paged K roots h'.mm
  mapped : (heapView h'.mm).Mapped s 4096
  outside : ∀ a, a < s ∨ s + 4096 ≤ a → heapView h'.mm a = heapView h.mm a
  heads : h'.slabHeads = h.slabHeads
  next : h'.mm.kheapNext = h.mm.kheapNext

theorem InPage.stored {s : Nat} {view : ByteMem} {h'' : HeapState} (before : InPage K roots s h h')
    (stored : Stored K roots h' view h'') (mapped : view.Mapped s 4096)
    (outside : ∀ a, a < s ∨ s + 4096 ≤ a → view a = heapView h'.mm a) : InPage K roots s h h'' where
  pages := stored.pages
  mapped := by rwa [stored.view]
  outside a off := by rw [stored.view, outside a off, before.outside a off]
  heads := stored.heads.trans before.heads
  next := stored.next.trans before.next

/-- A number of `n` bytes, its address and its value. -/
structure Cell where
  width : Nat
  addr : Nat
  value : Nat

def Cell.Apart (x y : Cell) : Prop := x.addr + x.width ≤ y.addr ∨ y.addr + y.width ≤ x.addr

def storeAll (cells : List Cell) : HeapM Unit := forM cells fun x => kstore x.width x.addr x.value

/-- Stores to separate places of one page are all read back. -/
theorem storeAll_spec {s : Nat} {cells : List Cell} {halt : HeapHalt → HeapState → Prop}
    (pages : Paged K roots h.mm) (mapped : (heapView h.mm).Mapped s 4096)
    (apart : cells.Pairwise Cell.Apart)
    (inside : ∀ x ∈ cells, s ≤ x.addr ∧ x.addr + x.width ≤ s + 4096 ∧ x.value < 256 ^ x.width) :
    wp (storeAll cells) (fun _ h' => InPage K roots s h h' ∧
      ∀ x ∈ cells, (heapView h'.mm).Field x.width x.addr x.value) halt h := by
  refine wp_forM (fun done h' => InPage K roots s h h' ∧
      ∀ x ∈ done, (heapView h'.mm).Field x.width x.addr x.value) cells ?_
    ⟨⟨pages, mapped, fun _ _ => rfl, rfl, rfl⟩, by simp⟩
  intro done x rest h₁ split ⟨now, fields⟩
  obtain ⟨low, high, small⟩ := inside x (by simp [split])
  refine wp_imp (kstore_spec now.pages (now.mapped.sub low high)) ?_
  intro _ h₂ stored
  refine ⟨now.stored stored (ByteMem.put_mapped now.mapped) ?_, ?_⟩
  · intro a off
    exact ByteMem.put_outside (by omega)
  · intro y member
    rw [stored.view]
    rcases List.mem_append.mp member with old | new
    · rw [split, List.pairwise_append] at apart
      have off : y.Apart x := apart.2.2 y old x List.mem_cons_self
      exact (fields y old).agree (ByteMem.put_agree off)
    · obtain rfl := List.mem_singleton.mp new
      exact ByteMem.put_field small

/-! ## A new slab -/

/-- What `slabInit` writes before the free list. -/
def headerCells (cls : Fin 7) (s : Nat) : List Cell :=
  [⟨4, s, slabMagic⟩, ⟨4, s + 4, slabObjSize cls⟩, ⟨2, s + 8, slabTotal cls⟩,
    ⟨2, s + 10, slabTotal cls⟩, ⟨8, s + 24, 0⟩, ⟨8, s + 32, 0⟩, ⟨8, s + 16, s + 64⟩]

/-- The pointers of the free list, each object to the next. -/
def objectCells (cls : Fin 7) (s : Nat) : List Cell :=
  (List.range (slabTotal cls - 1)).map fun i =>
    ⟨8, s + 64 + i * slabObjSize cls, s + 64 + (i + 1) * slabObjSize cls⟩

def lastCell (cls : Fin 7) (s : Nat) : Cell :=
  ⟨8, s + 64 + (slabTotal cls - 1) * slabObjSize cls, 0⟩

theorem slabInit_eq (cls : Fin 7) (s : Nat) :
    slabInit cls s = storeAll (headerCells cls s ++ (objectCells cls s ++ [lastCell cls s])) := by
  rw [storeAll, headerCells, objectCells]
  simp only [slabInit, slabHdrSize, lastCell, List.forM_append, List.forM_map, List.forM_cons,
    List.forM_nil, List.cons_append, List.nil_append, bind_pure_comp, id_map']

theorem headerCells_within {s : Nat} {x : Cell} (member : x ∈ headerCells cls s) :
    s ≤ x.addr ∧ x.addr + x.width ≤ s + 40 := by
  simp only [headerCells, List.mem_cons, List.not_mem_nil, or_false] at member
  rcases member with rfl | rfl | rfl | rfl | rfl | rfl | rfl <;> constructor <;> dsimp only <;> omega

/-- The pointers lie in the objects of the slab. -/
theorem objectCells_within {s : Nat} {x : Cell} (member : x ∈ objectCells cls s ++ [lastCell cls s]) :
    ∃ i < slabTotal cls, x.width = 8 ∧ x.addr = s + 64 + i * slabObjSize cls := by
  have := (slabObjSize_facts cls).2.2.2.1
  rcases List.mem_append.mp member with inner | last
  · obtain ⟨i, range, rfl⟩ := List.mem_map.mp inner
    have lt := List.mem_range.mp range
    exact ⟨i, by omega, rfl, rfl⟩
  · obtain rfl := List.mem_singleton.mp last
    exact ⟨slabTotal cls - 1, by omega, rfl, rfl⟩

theorem slabCells_apart (cls : Fin 7) (s : Nat) :
    (headerCells cls s ++ (objectCells cls s ++ [lastCell cls s])).Pairwise Cell.Apart := by
  have size := (slabObjSize_facts cls).1
  have apart : ∀ {i j : Nat}, i < j → i * slabObjSize cls + 8 ≤ j * slabObjSize cls := by
    intro i j lt
    have le := Nat.mul_le_mul_right (slabObjSize cls) (Nat.succ_le_of_lt lt)
    rw [Nat.succ_mul] at le
    omega
  refine List.pairwise_append.mpr ⟨?_, List.pairwise_append.mpr ⟨?_, List.pairwise_singleton _ _, ?_⟩, ?_⟩
  · simp [headerCells, Cell.Apart]
  · refine List.pairwise_map.mpr (List.pairwise_lt_range.imp ?_)
    intro i j lt
    have := apart lt
    left
    dsimp only
    omega
  · intro x inner y last
    obtain rfl := List.mem_singleton.mp last
    obtain ⟨i, range, rfl⟩ := List.mem_map.mp inner
    have := apart (List.mem_range.mp range)
    left
    dsimp only [lastCell]
    omega
  · intro x header y object
    obtain ⟨i, _, width, addr⟩ := objectCells_within object
    have := headerCells_within header
    left
    omega

theorem FreeChain.of_range {m : ByteMem} {f : Nat → Nat} : ∀ (n k a : Nat),
    (∀ i, k ≤ i → i + 1 < k + n → m.Field 8 (f i) (f (i + 1))) →
    (0 < n → m.Field 8 (f (k + n - 1)) 0) → m.Field 8 a (if n = 0 then 0 else f k) →
    FreeChain m a ((List.range' k n).map f) := by
  intro n
  induction n with
  | zero =>
    intro k a _ _ first
    exact .nil first
  | succ n ih =>
    intro k a links last first
    rw [List.range'_succ, List.map_cons]
    rw [if_neg (by omega)] at first
    refine .cons first (ih (k + 1) (f k) (fun i low high => links i (by omega) (by omega)) ?_ ?_)
    · intro pos
      have := last (by omega)
      rwa [show k + 1 + n - 1 = k + (n + 1) - 1 by omega]
    · by_cases empty : n = 0
      · rw [if_pos empty]
        have := last (by omega)
        rwa [empty] at this
      · rw [if_neg empty]
        exact links k (le_refl _) (by omega)

/-- The header and the free list of a new slab. -/
theorem slabInit_spec {s : Nat} {halt : HeapHalt → HeapState → Prop} (pages : Paged K roots h.mm)
    (mapped : (heapView h.mm).Mapped s 4096) (aligned : s % 4096 = 0) (room : s + 4096 ≤ 2 ^ 64) :
    wp (slabInit cls s) (fun _ h' => InPage K roots s h h' ∧
      SlabAt (heapView h'.mm) cls ⟨s, slabObjects cls s⟩ 0) halt h := by
  obtain ⟨low, _, small, many, few, fits⟩ := slabObjSize_facts cls
  have place : ∀ {i}, i < slabTotal cls → i * slabObjSize cls + slabObjSize cls ≤ 4032 := by
    intro i lt
    have le := Nat.mul_le_mul_right (slabObjSize cls) (Nat.succ_le_of_lt lt)
    rw [Nat.succ_mul] at le
    omega
  have pow : (256 : Nat) ^ 8 = 2 ^ 64 := by decide
  rw [slabInit_eq]
  refine wp_imp (storeAll_spec pages mapped (slabCells_apart cls s) ?_) ?_
  · intro x member
    rcases List.mem_append.mp member with header | object
    · have within := headerCells_within header
      refine ⟨within.1, by omega, ?_⟩
      simp only [headerCells, List.mem_cons, List.not_mem_nil, or_false] at header
      rcases header with rfl | rfl | rfl | rfl | rfl | rfl | rfl <;> dsimp only
      · decide
      · omega
      · omega
      · omega
      · decide
      · decide
      · omega
    · obtain ⟨i, lt, width, addr⟩ := objectCells_within object
      have := place lt
      refine ⟨by omega, by omega, ?_⟩
      rw [width, pow]
      rcases List.mem_append.mp object with inner | last
      · obtain ⟨j, range, rfl⟩ := List.mem_map.mp inner
        have next := place (i := j + 1) (by have := List.mem_range.mp range; omega)
        dsimp only
        omega
      · obtain rfl := List.mem_singleton.mp last
        dsimp only [lastCell]
        omega
  · rintro _ h' ⟨inPage, fields⟩
    have header : ∀ {x}, x ∈ headerCells cls s → (heapView h'.mm).Field x.width x.addr x.value :=
      fun member => fields _ (List.mem_append_left _ member)
    refine ⟨inPage, aligned, inPage.mapped, header (x := ⟨4, s, slabMagic⟩) (by simp [headerCells]),
      header (x := ⟨4, s + 4, slabObjSize cls⟩) (by simp [headerCells]), ?_, ?_,
      header (x := ⟨8, s + 24, 0⟩) (by simp [headerCells]), nodup_slabObjects cls s,
      fun _ member => member⟩
    · rw [length_slabObjects]
      exact header (x := ⟨2, s + 8, slabTotal cls⟩) (by simp [headerCells])
    · rw [slabObjects, List.range_eq_range']
      refine .of_range _ _ _ ?_ ?_ ?_
      · intro i _ lt
        refine fields ⟨8, s + 64 + i * slabObjSize cls, s + 64 + (i + 1) * slabObjSize cls⟩ ?_
        refine List.mem_append_right _ (List.mem_append_left _ (List.mem_map.mpr ⟨i, ?_, rfl⟩))
        exact List.mem_range.mpr (by omega)
      · intro _
        have last := fields (lastCell cls s) (by simp)
        rwa [Nat.zero_add]
      · rw [if_neg (by omega), Nat.zero_mul]
        exact header (x := ⟨8, s + 16, s + 64⟩) (by simp [headerCells])

/-! ## The free list of one slab -/

/-- A list may be read from another pointer to its first object. -/
theorem FreeChain.move {m : ByteMem} {a : Nat} {l : List Nat} (chain : FreeChain m a l) :
    ∃ x, m.Field 8 a x ∧ ∀ m' a', ByteMem.Field m' 8 a' x → (∀ o ∈ l, m.Agree m' o 8) →
      FreeChain m' a' l := by
  cases chain with
  | nil empty => exact ⟨0, empty, fun _ _ field _ => .nil field⟩
  | @cons _ o l first rest =>
    refine ⟨o, first, fun m' a' field same => .cons field (rest.agree ?_ ?_)⟩
    · exact same o List.mem_cons_self
    · exact fun o' member => same o' (List.mem_cons_of_mem _ member)

theorem SlabAt.free_length {m : ByteMem} {next : Nat} (slab : SlabAt m cls S next) :
    S.free.length ≤ slabTotal cls := by
  rw [← length_slabObjects cls S.base]
  exact (slab.nodup.subperm fun o member => slab.objects o member).length_le

def HeapGhost.setFree (G : HeapGhost) (cls : Fin 7) (base : Nat) (free : List Nat) : HeapGhost :=
  { G with slabs := Function.update G.slabs cls ((G.slabs cls).map (Mm.setFree base free)) }

theorem HeapGhost.setFree_self (base : Nat) (free : List Nat) :
    (G.setFree cls base free).slabs cls = (G.slabs cls).map (Mm.setFree base free) :=
  Function.update_self ..

theorem HeapGhost.setFree_of_ne (base : Nat) (free : List Nat) {c : Fin 7} (ne : c ≠ cls) :
    (G.setFree cls base free).slabs c = G.slabs c :=
  Function.update_of_ne ne _ _

namespace HeapInv

variable {free : List Nat}

theorem mem_setFree (inv : HeapInv K roots h G) (member : S ∈ G.slabs cls) {T : Slab} {c : Fin 7} :
    T ∈ (G.setFree cls S.base free).slabs c ↔
      T ∈ G.slabs c ∧ T.base ≠ S.base ∨ c = cls ∧ T = ⟨S.base, free⟩ := by
  by_cases here : c = cls
  · subst here
    rw [HeapGhost.setFree_self, List.mem_map]
    constructor
    · rintro ⟨T', old, rfl⟩
      by_cases same : T'.base = S.base
      · exact .inr ⟨rfl, if_pos same⟩
      · have eq : Mm.setFree S.base free T' = T' := if_neg same
        rw [eq]
        exact .inl ⟨old, same⟩
    · rintro (⟨old, other⟩ | ⟨_, rfl⟩)
      · exact ⟨T, old, if_neg other⟩
      · exact ⟨S, member, if_pos rfl⟩
  · rw [HeapGhost.setFree_of_ne _ _ here]
    constructor
    · intro old
      exact .inl ⟨old, fun same => here (inv.slab_unique old member same).1⟩
    · rintro (⟨old, _⟩ | ⟨same, _⟩)
      · exact old
      · exact absurd same here

/-- Stores inside one slab that leave a slab with the free list `free` there. -/
theorem setFree (inv : HeapInv K roots h G) (member : S ∈ G.slabs cls)
    (inPage : InPage K roots S.base h h')
    (slab : ∀ next, SlabAt (heapView h.mm) cls S next →
      SlabAt (heapView h'.mm) cls ⟨S.base, free⟩ next) :
    HeapInv K roots h' (G.setFree cls S.base free) := by
  have other : ∀ {c T}, T ∈ G.slabs c → T.base ≠ S.base →
      (heapView h.mm).Agree (heapView h'.mm) T.base 4096 := by
    intro c T there ne a ge lt
    have := inv.slabs_apart there member ne
    exact inPage.outside a (by omega)
  refine ⟨inPage.pages, by rw [inPage.next]; exact inv.aligned, ?_, ?_, ?_, ?_, inv.largeOwner,
    by rw [inPage.next]; exact inv.ahead⟩
  · intro c
    rw [inPage.heads]
    by_cases here : c = cls
    · subst here
      rw [HeapGhost.setFree_self]
      refine (inv.chain c).setFree (fun T there ne => other there ne) ?_
      intro T there next same at_
      obtain ⟨_, rfl⟩ := inv.slab_unique there member same
      exact slab next at_
    · rw [HeapGhost.setFree_of_ne _ _ here]
      exact (inv.chain c).agree fun T there =>
        other there fun same => here (inv.slab_unique there member same).1
  · intro c T there
    rcases (inv.mem_setFree member).mp there with ⟨old, _⟩ | ⟨rfl, rfl⟩
    · exact inv.slabOwner c T old
    · exact inv.slabOwner c S member
  · intro c
    by_cases here : c = cls
    · subst here
      have bases : Slab.base ∘ Mm.setFree S.base free = Slab.base := by
        funext T
        exact setFree_base _ _ _
      rw [HeapGhost.setFree_self, List.map_map, bases]
      exact inv.slabNodup c
    · rw [HeapGhost.setFree_of_ne _ _ here]
      exact inv.slabNodup c
  · intro x large
    refine (inv.largeAt x large).agree ?_
    intro a ge lt
    have := inv.slab_large_apart member large
    exact inPage.outside a (by omega)

/-- The first object of the free list comes into use. -/
theorem live_take (inv : HeapInv K roots h G) (member : S ∈ G.slabs cls) {o : Nat}
    {rest : List Nat} (list : S.free = o :: rest) {b : Block} :
    (G.setFree cls S.base rest).Live b ↔ G.Live b ∨ b = ⟨o, slabObjSize cls, true⟩ := by
  obtain ⟨_, _, slab⟩ := inv.slab member
  have nodup := slab.nodup
  rw [list, List.nodup_cons] at nodup
  have object : o ∈ slabObjects cls S.base := slab.objects o (by rw [list]; exact List.mem_cons_self)
  constructor
  · intro live
    cases live with
    | @object c T o' there here used =>
      rcases (inv.mem_setFree member).mp there with ⟨old, _⟩ | ⟨rfl, rfl⟩
      · exact .inl (.object old here used)
      · by_cases same : o' = o
        · exact .inr (by rw [same])
        · refine .inl (.object member here ?_)
          rw [list, List.mem_cons, not_or]
          exact ⟨same, used⟩
    | large large => exact .inl (.large large)
  · rintro (live | rfl)
    · cases live with
      | @object c T o' there here used =>
        by_cases same : T.base = S.base
        · obtain ⟨rfl, rfl⟩ := inv.slab_unique there member same
          refine .object ((inv.mem_setFree member).mpr (.inr ⟨rfl, rfl⟩)) here ?_
          rw [list, List.mem_cons, not_or] at used
          exact used.2
        · exact .object ((inv.mem_setFree member).mpr (.inl ⟨there, same⟩)) here used
      | large large => exact .large large
    · exact .object ((inv.mem_setFree member).mpr (.inr ⟨rfl, rfl⟩)) object nodup.1

/-- A block of the slab goes out of use. -/
theorem live_free (inv : HeapInv K roots h G) (member : S ∈ G.slabs cls) {p : Nat}
    (object : p ∈ slabObjects cls S.base) {b : Block} :
    (G.setFree cls S.base (p :: S.free)).Live b ↔ G.Live b ∧ b.addr ≠ p := by
  obtain ⟨low, high⟩ := object_within object
  have size := (slabObjSize_facts cls).1
  constructor
  · intro live
    cases live with
    | @object c T o there here used =>
      rcases (inv.mem_setFree member).mp there with ⟨old, ne⟩ | ⟨rfl, rfl⟩
      · have apart := inv.slabs_apart old member ne
        have within := object_within here
        exact ⟨.object old here used, by dsimp only; omega⟩
      · rw [List.mem_cons, not_or] at used
        exact ⟨.object member here used.2, used.1⟩
    | @large b n large =>
      have apart := inv.slab_large_apart member large
      have pos := (inv.largeAt _ large).pos
      exact ⟨.large large, by dsimp only at *; omega⟩
  · rintro ⟨live, ne⟩
    cases live with
    | @object c T o there here used =>
      by_cases same : T.base = S.base
      · obtain ⟨rfl, rfl⟩ := inv.slab_unique there member same
        refine .object ((inv.mem_setFree member).mpr (.inr ⟨rfl, rfl⟩)) here ?_
        rw [List.mem_cons, not_or]
        exact ⟨ne, used⟩
      · exact .object ((inv.mem_setFree member).mpr (.inl ⟨there, same⟩)) here used
    | large large => exact .large large

end HeapInv

section Slabs

variable {halt : HeapHalt → HeapState → Prop}

/-- A slab with a free object gives it out. -/
theorem slabTake_spec (inv : HeapInv K roots h G) (member : S ∈ G.slabs cls) {o : Nat}
    {rest : List Nat} (list : S.free = o :: rest) :
    wp (slabTake S.base) (fun r h' => r = o ∧
      HeapInv K roots h' (G.setFree cls S.base rest) ∧
      ∀ a, a < S.base ∨ S.base + 64 ≤ a → heapView h'.mm a = heapView h.mm a) halt h := by
  obtain ⟨_, next, slab⟩ := inv.slab member
  have chain := slab.list
  rw [list] at chain
  obtain ⟨first, tail⟩ : (heapView h.mm).Field 8 (S.base + 16) o ∧ FreeChain (heapView h.mm) o rest := by
    cases chain with
    | cons first tail => exact ⟨first, tail⟩
  obtain ⟨x, second, moved⟩ := tail.move
  have few := slab.free_length
  have total := (slabObjSize_facts cls).2.2.2.2.1
  have length : S.free.length = rest.length + 1 := by rw [list, List.length_cons]
  have objects : ∀ o' ∈ rest, S.base + 64 ≤ o' ∧ o' + 16 ≤ S.base + 4096 := by
    intro o' there
    have within := object_within (slab.objects o' (by rw [list]; exact List.mem_cons_of_mem _ there))
    have size := (slabObjSize_facts cls).1
    omega
  unfold slabTake
  refine wp_kload first (wp_kload second ?_)
  refine wp_seq (kstore_spec inv.pages (slab.mapped.sub (by omega) (by omega))) ?_
  intro _ h₁ stored₁
  have count : (heapView h₁.mm).Field 2 (S.base + 8) S.free.length := by
    rw [stored₁.view]
    exact slab.count.agree (ByteMem.put_agree (by omega))
  refine wp_kload count (wp_seq (kstore_spec stored₁.pages ?_) ?_)
  · rw [stored₁.view]
    exact (ByteMem.put_mapped slab.mapped).sub (by omega) (by omega)
  intro _ h₂ stored₂
  have left : (S.free.length + 0xFFFF) % 0x10000 = rest.length := by omega
  rw [left, stored₁.view] at stored₂
  have same : ∀ a, a < S.base ∨ S.base + 64 ≤ a → heapView h₂.mm a = heapView h.mm a := by
    intro a off
    rw [stored₂.view, ByteMem.put_outside (by omega), ByteMem.put_outside (by omega)]
  have inPage : InPage K roots S.base h h₂ := by
    refine ⟨stored₂.pages, ?_, fun a off => same a (by omega), stored₂.heads.trans stored₁.heads,
      stored₂.next.trans stored₁.next⟩
    rw [stored₂.view]
    exact ByteMem.put_mapped (ByteMem.put_mapped slab.mapped)
  refine ⟨rfl, inv.setFree member inPage ?_, same⟩
  intro next' at_
  have keep : ∀ {c n}, c + n ≤ S.base + 8 ∨ S.base + 24 ≤ c →
      (heapView h.mm).Agree (heapView h₂.mm) c n := by
    intro c n off
    rw [stored₂.view]
    exact (ByteMem.put_agree (by omega)).trans (ByteMem.put_agree (by omega))
  refine ⟨at_.aligned, inPage.mapped, at_.magic.agree (keep (by omega)),
    at_.objSize.agree (keep (by omega)), ?_, ?_, at_.link.agree (keep (by omega)), ?_, ?_⟩
  · rw [stored₂.view]
    exact ByteMem.put_field (by omega)
  · refine moved _ _ ?_ (fun o' there => keep (by have := objects o' there; omega))
    rw [stored₂.view]
    exact (ByteMem.put_field second.lt).agree (ByteMem.put_agree (by dsimp only; omega))
  · have nodup := at_.nodup
    rw [list] at nodup
    exact (List.nodup_cons.mp nodup).2
  · intro o' there
    exact at_.objects o' (by rw [list]; exact List.mem_cons_of_mem _ there)

/-- An object goes back to its slab. -/
theorem kfreeSlab_spec (inv : HeapInv K roots h G) (member : S ∈ G.slabs cls) {p : Nat}
    (object : p ∈ slabObjects cls S.base) (used : p ∉ S.free) :
    wp (kfreeSlab p S.base) (fun _ h' =>
      HeapInv K roots h' (G.setFree cls S.base (p :: S.free)) ∧
      ∀ a, (a < S.base ∨ S.base + 64 ≤ a) → (a < p ∨ p + slabObjSize cls ≤ a) →
        heapView h'.mm a = heapView h.mm a) halt h := by
  obtain ⟨_, next, slab⟩ := inv.slab member
  obtain ⟨low, high⟩ := object_within object
  obtain ⟨size, _, _, _, total, _⟩ := slabObjSize_facts cls
  obtain ⟨x, first, moved⟩ := slab.list.move
  have few := slab.free_length
  have range := heapView_range (slab.mapped (S.base + 4095) (by omega) (by omega))
  have others : ∀ o ∈ S.free, S.base + 64 ≤ o ∧ o + 16 ≤ S.base + 4096 ∧ (o + 8 ≤ p ∨ p + 8 ≤ o) := by
    intro o there
    have within := object_within (slab.objects o there)
    have ne : o ≠ p := by
      rintro rfl
      exact used there
    have apart := objects_apart (slab.objects o there) object ne
    omega
  unfold kfreeSlab
  rw [if_neg (by rw [slabHdrSize]; omega)]
  refine wp_kload first (wp_seq (kstore_spec inv.pages (slab.mapped.sub (by omega) (by omega))) ?_)
  intro _ h₁ stored₁
  refine wp_seq (kstore_spec stored₁.pages ?_) ?_
  · rw [stored₁.view]
    exact (ByteMem.put_mapped slab.mapped).sub (by omega) (by omega)
  intro _ h₂ stored₂
  rw [stored₁.view] at stored₂
  have count : (heapView h₂.mm).Field 2 (S.base + 8) S.free.length := by
    rw [stored₂.view]
    exact slab.count.agree
      ((ByteMem.put_agree (by omega)).trans (ByteMem.put_agree (by omega)))
  refine wp_kload count (wp_imp (kstore_spec stored₂.pages ?_) ?_)
  · rw [stored₂.view]
    exact (ByteMem.put_mapped (ByteMem.put_mapped slab.mapped)).sub (by omega) (by omega)
  intro _ h₃ stored₃
  have more : (S.free.length + 1) % 0x10000 = S.free.length + 1 := by omega
  rw [more, stored₂.view] at stored₃
  have same : ∀ a, (a < S.base ∨ S.base + 64 ≤ a) → (a < p ∨ p + slabObjSize cls ≤ a) →
      heapView h₃.mm a = heapView h.mm a := by
    intro a off off'
    rw [stored₃.view, ByteMem.put_outside (by omega), ByteMem.put_outside (by omega),
      ByteMem.put_outside (by omega)]
  have inPage : InPage K roots S.base h h₃ := by
    refine ⟨stored₃.pages, ?_, fun a off => same a (by omega) (by omega),
      stored₃.heads.trans (stored₂.heads.trans stored₁.heads),
      stored₃.next.trans (stored₂.next.trans stored₁.next)⟩
    rw [stored₃.view]
    exact ByteMem.put_mapped (ByteMem.put_mapped (ByteMem.put_mapped slab.mapped))
  refine ⟨inv.setFree member inPage ?_, same⟩
  intro next' at_
  have keep : ∀ {c n}, c + n ≤ S.base + 8 ∨ S.base + 24 ≤ c → c + n ≤ p ∨ p + 8 ≤ c →
      (heapView h.mm).Agree (heapView h₃.mm) c n := by
    intro c n off off'
    rw [stored₃.view]
    exact ((ByteMem.put_agree (by omega)).trans (ByteMem.put_agree (by omega))).trans
      (ByteMem.put_agree (by omega))
  refine ⟨at_.aligned, inPage.mapped, at_.magic.agree (keep (by omega) (by omega)),
    at_.objSize.agree (keep (by omega) (by omega)), ?_, .cons (o := p) ?_ ?_,
    at_.link.agree (keep (by omega) (by omega)), ?_, ?_⟩
  · rw [stored₃.view]
    exact ByteMem.put_field (by omega)
  · rw [stored₃.view]
    exact (ByteMem.put_field (by omega)).agree (ByteMem.put_agree (by dsimp only; omega))
  · refine moved _ _ ?_ (fun o there => keep (by have := others o there; omega)
      (by have := others o there; omega))
    rw [stored₃.view]
    exact (ByteMem.put_field first.lt).agree
      ((ByteMem.put_agree (by omega)).trans (ByteMem.put_agree (by omega)))
  · exact List.nodup_cons.mpr ⟨used, at_.nodup⟩
  · intro o there
    rcases List.mem_cons.mp there with rfl | old
    · exact object
    · exact at_.objects o old

/-- The walk for a slab with a free object. -/
theorem findSlab_spec {p : Nat} {l : List Slab} (chain : SlabChain (heapView h.mm) cls p l) :
    ∀ {fuel : Nat}, l.length < fuel →
    wp (findSlab fuel p) (fun r h' => h' = h ∧ (r = 0 ∨ ∃ S ∈ l, r = S.base ∧ S.free ≠ [])) halt h := by
  induction chain with
  | nil =>
    intro fuel enough
    obtain ⟨fuel, rfl⟩ := Nat.exists_eq_succ_of_ne_zero (show fuel ≠ 0 by omega)
    rw [findSlab, if_pos rfl]
    exact ⟨rfl, .inl rfl⟩
  | @cons S next l ne slab _ ih =>
    intro fuel enough
    rw [List.length_cons] at enough
    obtain ⟨fuel, rfl⟩ := Nat.exists_eq_succ_of_ne_zero (show fuel ≠ 0 by omega)
    rw [findSlab, if_neg ne]
    refine wp_kload slab.count ?_
    apply wp_ite
    · intro free
      refine ⟨rfl, .inr ⟨S, List.mem_cons_self, rfl, ?_⟩⟩
      intro none
      rw [none] at free
      exact free rfl
    · intro _
      have rest := @ih fuel (by omega)
      refine wp_kload slab.link (wp_imp rest ?_)
      rintro r h' ⟨same, zero | ⟨T, member, found⟩⟩
      · exact ⟨same, .inl zero⟩
      · exact ⟨same, .inr ⟨T, List.mem_cons_of_mem _ member, found⟩⟩

/-- There are fewer slabs than pages. -/
theorem HeapInv.slabs_length (inv : HeapInv K roots h G) (cls : Fin 7) :
    (G.slabs cls).length < maxSlabs := by
  have subset : (G.slabs cls).map (fun S => S.base / 4096) ⊆ List.range' 1 (2 ^ 52 - 1) := by
    intro n member
    obtain ⟨S, slab, rfl⟩ := List.mem_map.mp member
    obtain ⟨ne, _, at_⟩ := inv.slab slab
    have range := heapView_range (at_.mapped S.base (le_refl _) (by omega))
    have aligned := at_.aligned
    rw [List.mem_range'_1]
    omega
  have nodup : ((G.slabs cls).map (fun S => S.base / 4096)).Nodup := by
    refine List.Nodup.map_on ?_ (List.Nodup.of_map _ (inv.slabNodup cls))
    intro S here T there same
    obtain ⟨_, _, first⟩ := inv.slab here
    obtain ⟨_, _, second⟩ := inv.slab there
    have aligned := first.aligned
    have aligned' := second.aligned
    exact (inv.slab_unique here there (by omega)).2
  have le := (nodup.subperm subset).length_le
  rw [List.length_map, List.length_range'] at le
  rw [maxSlabs]
  omega

end Slabs

/-- A page for a new slab: it lies beyond all that was there before. -/
theorem slabAllocPageFor_spec (inv : HeapInv K roots h G)
    (room : h.mm.kheapNext.toNat + 4096 < 2 ^ 64) :
    wp (slabAllocPageFor cls) (fun r h' => HeapInv K roots h' G ∧ h'.slabHeads = h.slabHeads ∧
      (∀ a, a < h.mm.kheapNext.toNat → heapView h'.mm a = heapView h.mm a) ∧
      (r = 0 → PagesRefused slabAllocPage h h') ∧
      (r ≠ 0 → r = h.mm.kheapNext.toNat ∧ h'.mm.kheapNext.toNat = r + 4096 ∧
        SlabAt (heapView h'.mm) cls ⟨r, slabObjects cls r⟩ 0)) (PagesStopped slabAllocPage h) h := by
  have end_ := inv.aligned
  unfold slabAllocPageFor
  rw [wp_bind, wp_onMm]
  refine wp_mono (wp_of_run (slabAllocPage_view inv.pages inv.aligned room)) ?_
    (fun e s stop => ⟨e, stop.1, rfl, stop.2⟩)
  rintro (_ | v) s ⟨ran, extended, mapped⟩
  · exact ⟨inv.extend extended.pages rfl extended.aligned extended.next extended.below, rfl,
      extended.below, fun _ => ⟨ran, rfl⟩, fun no => absurd rfl no⟩
  obtain ⟨rfl, grown, page⟩ := mapped v rfl
  have some_ : h.mm.kheapNext.toNat ≠ 0 := by
    have low : 0 < heapBase.toNat := by decide
    have range := heapView_range (page _ (le_refl _) (by omega))
    omega
  refine wp_seq (slabInit_spec extended.pages page inv.aligned (by omega)) ?_
  rintro _ h' ⟨inPage, slab⟩
  have below : ∀ a, a < h.mm.kheapNext.toNat → heapView h'.mm a = heapView h.mm a := by
    intro a lt
    rw [inPage.outside a (by omega)]
    exact extended.below a lt
  have next : h'.mm.kheapNext.toNat = h.mm.kheapNext.toNat + 4096 := by
    rw [inPage.next]
    exact grown
  exact ⟨inv.extend inPage.pages inPage.heads (by omega) (by omega) below, inPage.heads, below,
    fun zero => absurd zero some_, fun _ => ⟨rfl, next, slab⟩⟩

def HeapGhost.addSlab (G : HeapGhost) (cls : Fin 7) (s : Nat) : HeapGhost :=
  { G with
    slabs := Function.update G.slabs cls (⟨s, slabObjects cls s⟩ :: G.slabs cls)
    owner := Function.update G.owner s (some (.slab cls)) }

theorem HeapGhost.addSlab_self (s : Nat) :
    (G.addSlab cls s).slabs cls = ⟨s, slabObjects cls s⟩ :: G.slabs cls :=
  Function.update_self ..

theorem HeapGhost.addSlab_of_ne (s : Nat) {c : Fin 7} (ne : c ≠ cls) :
    (G.addSlab cls s).slabs c = G.slabs c :=
  Function.update_of_ne ne _ _

theorem HeapGhost.mem_addSlab {s : Nat} {c : Fin 7} {T : Slab} :
    T ∈ (G.addSlab cls s).slabs c ↔ T ∈ G.slabs c ∨ c = cls ∧ T = ⟨s, slabObjects cls s⟩ := by
  by_cases here : c = cls
  · subst here
    rw [addSlab_self, List.mem_cons, or_comm]
    simp
  · rw [addSlab_of_ne s here]
    simp [here]

/-- All objects of a new slab are free. -/
theorem HeapGhost.live_addSlab {s : Nat} {b : Block} : (G.addSlab cls s).Live b ↔ G.Live b := by
  constructor
  · intro live
    cases live with
    | object there here used =>
      rcases mem_addSlab.mp there with old | ⟨rfl, rfl⟩
      · exact .object old here used
      · exact absurd here used
    | large large => exact .large large
  · intro live
    cases live with
    | object there here used => exact .object (mem_addSlab.mpr (.inl there)) here used
    | large large => exact .large large

/-- The link from the old head back to the new slab. -/
theorem linkPrev_spec {halt : HeapHalt → HeapState → Prop} {old s : Nat}
    (pages : Paged K roots h.mm) (head : old = 0 ∨ (heapView h.mm).Mapped old 4096) :
    wp (linkPrev old s) (fun _ h' => Paged K roots h'.mm ∧ h'.slabHeads = h.slabHeads ∧
        h'.mm.kheapNext = h.mm.kheapNext ∧
        (∀ {c n}, (heapView h.mm).Mapped c n → (heapView h'.mm).Mapped c n) ∧
        ∀ a, old = 0 ∨ a < old + 32 ∨ old + 40 ≤ a → heapView h'.mm a = heapView h.mm a) halt h := by
  unfold linkPrev
  apply wp_ite
  · intro ne
    have mapped := head.resolve_left ne
    refine wp_imp (kstore_spec pages (mapped.sub (by omega) (by omega))) ?_
    intro _ h' stored
    refine ⟨stored.pages, stored.heads, stored.next, ?_, ?_⟩
    · intro c n there
      rw [stored.view]
      exact ByteMem.put_mapped there
    · intro a off
      rw [stored.view]
      exact ByteMem.put_outside (by omega)
  · intro _
    exact ⟨pages, rfl, rfl, fun there => there, fun _ _ => rfl⟩

/-- A slab that was made beyond the end of the heap becomes the head of its list. -/
theorem HeapInv.addSlab {h₁ : HeapState} (h₃ : HeapState) {s old : Nat} (inv : HeapInv K roots h G)
    (inv₁ : HeapInv K roots h₁ G) (place : s = h.mm.kheapNext.toNat) (ne : s ≠ 0)
    (head : h₁.slabHeads cls = old) (pages : Paged K roots h₃.mm)
    (heads : h₃.slabHeads = Function.update h₁.slabHeads cls s)
    (grown : h₃.mm.kheapNext.toNat = s + 4096)
    (mapped : ∀ {c n}, (heapView h₁.mm).Mapped c n → (heapView h₃.mm).Mapped c n)
    (slab : SlabAt (heapView h₃.mm) cls ⟨s, slabObjects cls s⟩ old)
    (far : ∀ a, a < s → old = 0 ∨ a < old + 32 ∨ old + 40 ≤ a →
      heapView h₃.mm a = heapView h₁.mm a) :
    HeapInv K roots h₃ (G.addSlab cls s) ∧
      ∀ b, G.Live b → (heapView h₁.mm).Agree (heapView h₃.mm) b.addr b.cap := by
  have chain := inv₁.chain cls
  rw [head] at chain
  have first : old = 0 ∨ ∃ T ∈ G.slabs cls, T.base = old := chain.head
  have each : ∀ c, ∀ S ∈ G.slabs c, ∀ next, SlabAt (heapView h₁.mm) c S next →
      SlabAt (heapView h₃.mm) c S next := by
    intro c S member next at_
    have low := inv.slab_below member
    have apart : old = 0 ∨ S.base = old ∨ S.base + 4096 ≤ old ∨ old + 4096 ≤ S.base := by
      rcases first with zero | ⟨T, there, rfl⟩
      · exact .inl zero
      · by_cases same : S.base = T.base
        · exact .inr (.inl same)
        · exact .inr (.inr (inv.slabs_apart member there same))
    refine at_.agree (mapped at_.mapped) ?_ (at_.free_agree ?_)
    · intro a ge lt
      exact far a (by omega) (by omega)
    · intro a ge lt
      exact far a (by omega) (by omega)
  have aligned := inv.aligned
  refine ⟨⟨pages, by omega, ?_, ?_, ?_, ?_, ?_, ?_⟩, ?_⟩
  · intro c
    rw [heads]
    by_cases here : c = cls
    · subst here
      rw [HeapGhost.addSlab_self, Function.update_self]
      exact .cons ne slab (chain.map (each c))
    · rw [HeapGhost.addSlab_of_ne s here, Function.update_of_ne here]
      exact (inv₁.chain c).map (each c)
  · intro c T member
    rcases HeapGhost.mem_addSlab.mp member with there | ⟨rfl, rfl⟩
    · have := inv.slab_below there
      have other : T.base ≠ s := by omega
      exact (Function.update_of_ne other _ _).trans (inv.slabOwner c T there)
    · exact Function.update_self ..
  · intro c
    by_cases here : c = cls
    · subst here
      rw [HeapGhost.addSlab_self, List.map_cons, List.nodup_cons]
      refine ⟨?_, inv.slabNodup c⟩
      intro member
      obtain ⟨T, there, same⟩ := List.mem_map.mp member
      have := inv.slab_below there
      dsimp only at same
      omega
    · rw [HeapGhost.addSlab_of_ne s here]
      exact inv.slabNodup c
  · intro x large
    refine (inv₁.largeAt x large).agree ?_
    intro a ge lt
    have low := inv.large_below large
    refine far a (by omega) ?_
    rcases first with zero | ⟨T, there, rfl⟩
    · exact .inl zero
    · have := inv.slab_large_apart there large
      omega
  · intro x large i lt
    have low := inv.large_below large
    have other : x.1 + i * 4096 ≠ s := by omega
    exact (Function.update_of_ne other _ _).trans (inv.largeOwner x large i lt)
  · intro a ge
    have other : a ≠ s := by omega
    exact (Function.update_of_ne other _ _).trans (inv.ahead a (by omega))
  · intro b live a ge lt
    have low := inv.live_below live
    refine far a (by omega) ?_
    rcases first with zero | ⟨T, there, rfl⟩
    · exact .inl zero
    · have := inv.live_header live there
      omega

theorem slabPrepend_spec (inv : HeapInv K roots h G)
    (room : h.mm.kheapNext.toNat + 4096 < 2 ^ 64) :
    wp (slabPrepend cls) (fun r h' =>
      (if r = 0 then HeapInv K roots h' G ∧ PagesRefused slabAllocPage h h'
        else HeapInv K roots h' (G.addSlab cls r)) ∧
      ∀ b, G.Live b → (heapView h.mm).Agree (heapView h'.mm) b.addr b.cap)
      (PagesStopped slabAllocPage h) h := by
  unfold slabPrepend
  refine wp_seq (slabAllocPageFor_spec inv room) ?_
  rintro s h₁ ⟨inv₁, heads₁, below₁, refused, made⟩
  have live₁ : ∀ b, G.Live b → (heapView h.mm).Agree (heapView h₁.mm) b.addr b.cap := by
    intro b live a _ lt
    have := inv.live_below live
    exact below₁ a (by omega)
  apply wp_ite
  · rintro rfl
    rw [wp_pure, if_pos rfl]
    exact ⟨⟨inv₁, refused rfl⟩, live₁⟩
  intro ne
  obtain ⟨place, next₁, slab₁⟩ := made ne
  have inside : (heapView h₁.mm).Mapped s 4096 := slab₁.mapped
  have small := heapView_range (inside s (le_refl _) (by omega))
  rw [wp_bind, wp_get]
  generalize was : h₁.slabHeads cls = old
  -- the head of the old list, if there is one, is a slab below the new one
  have oldPage : old = 0 ∨ old + 4096 ≤ s ∧ (heapView h₁.mm).Mapped old 4096 := by
    have chain := inv₁.chain cls
    rw [was] at chain
    rcases chain.head with zero | ⟨S, member, rfl⟩
    · exact .inl zero
    · obtain ⟨_, _, at_⟩ := inv₁.slab member
      have := inv.slab_below member
      exact .inr ⟨by omega, at_.mapped⟩
  refine wp_seq (kstore_spec inv₁.pages (inside.sub (by omega) (by omega))) ?_
  intro _ h₂ stored₂
  have maps₂ : ∀ {c n}, (heapView h₁.mm).Mapped c n → (heapView h₂.mm).Mapped c n := by
    intro c n there
    rw [stored₂.view]
    exact ByteMem.put_mapped there
  refine wp_seq (linkPrev_spec stored₂.pages (oldPage.imp_right fun page => maps₂ page.2)) ?_
  rintro _ h₃ ⟨pages₃, heads₃, next₃, maps₃, same₃⟩
  rw [wp_bind, wp_modify, wp_pure, if_neg ne]
  have far : ∀ a, a < s + 24 ∨ s + 32 ≤ a → old = 0 ∨ a < old + 32 ∨ old + 40 ≤ a →
      heapView h₃.mm a = heapView h₁.mm a := by
    intro a off off'
    rw [same₃ a off', stored₂.view, ByteMem.put_outside (by omega)]
  have linked : SlabAt (heapView h₃.mm) cls ⟨s, slabObjects cls s⟩ old := by
    have pow : (256 : Nat) ^ 8 = 2 ^ 64 := by decide
    refine slab₁.relink (maps₃ (maps₂ inside)) ?_ (slab₁.free_agree ?_) ?_
    · intro a ge lt
      dsimp only at ge lt
      exact far a (by omega) (by omega)
    · intro a ge lt
      dsimp only at ge lt
      exact far a (by omega) (by omega)
    · have field : (heapView h₂.mm).Field 8 (s + 24) old := by
        rw [stored₂.view]
        exact ByteMem.put_field (by omega)
      refine field.agree ?_
      intro a ge lt
      exact same₃ a (by omega)
  have heads : h₃.slabHeads = h₁.slabHeads := heads₃.trans stored₂.heads
  obtain ⟨after, same⟩ := inv.addSlab { h₃ with slabHeads := Function.update h₃.slabHeads cls s }
    inv₁ place ne was pages₃ (by rw [heads]) (by rw [next₃, stored₂.next, next₁])
    (fun there => maps₃ (maps₂ there)) linked (fun a lt off => far a (by omega) off)
  exact ⟨after, fun b live => (live₁ b live).trans (same b live)⟩

end LithiumKernel.Mm
