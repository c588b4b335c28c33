import LithiumKernel.Mm.HeapSlabs

/-!
# The calls of the kernel heap keep its invariant

For each function of kernel/mm/heap.c one specification over `HeapInv`: which block comes
into use or goes out of it, and that the bytes of every other block stay as they were.
-/
namespace LithiumKernel.Mm

open LithiumKernel.Lib

variable {K : KernelTables} {roots : List Nat} {h h' : HeapState} {G : HeapGhost} {cls : Fin 7}
  {S : Slab}

/-! ## Allocation -/

/-- What an allocation leaves: a new block at `p`, unless it failed, and every block that was
in use before as it was. -/
def Allocated (K : KernelTables) (roots : List Nat) (h : HeapState) (G : HeapGhost) (block : Block)
    (p : Nat) (h' : HeapState) : Prop :=
  ∃ G', HeapInv K roots h' G' ∧ (p = 0 ∨ p = block.addr ∧ ∀ b, G.Live b → b.addr ≠ p) ∧
    (∀ b, G'.Live b ↔ G.Live b ∨ p ≠ 0 ∧ b = block) ∧
    ∀ b, G.Live b → (heapView h.mm).Agree (heapView h'.mm) b.addr b.cap

theorem Allocated.failed (inv : HeapInv K roots h' G) {block : Block}
    (same : ∀ b, G.Live b → (heapView h.mm).Agree (heapView h'.mm) b.addr b.cap) :
    Allocated K roots h G block 0 h' :=
  ⟨G, inv, .inl rfl, by simp, same⟩

/-- An object of a slab with a free one. -/
theorem slabTake_allocated {halt : HeapHalt → HeapState → Prop} {h₁ : HeapState} {G₁ : HeapGhost}
    (inv : HeapInv K roots h₁ G₁) (live : ∀ b, G₁.Live b ↔ G.Live b)
    (same : ∀ b, G.Live b → (heapView h.mm).Agree (heapView h₁.mm) b.addr b.cap)
    (member : S ∈ G₁.slabs cls) (free : S.free ≠ []) :
    wp (slabTake S.base) (fun p h' => p ≠ 0 ∧
      Allocated K roots h G ⟨p, slabObjSize cls, true⟩ p h') halt h₁ := by
  obtain ⟨o, rest, list⟩ := List.exists_cons_of_ne_nil free
  obtain ⟨_, _, slab⟩ := inv.slab member
  have first : o ∈ S.free := by
    rw [list]
    exact List.mem_cons_self
  have ne : o ≠ 0 := by
    have := (object_within (slab.objects o first)).1
    omega
  refine wp_imp (slabTake_spec inv member list) ?_
  rintro p h' ⟨taken, after, kept⟩
  rw [taken]
  refine ⟨ne, _, after,
    .inr ⟨rfl, fun b used => inv.free_not_live member first ((live b).mpr used)⟩, ?_, ?_⟩
  · intro b
    rw [inv.live_take member list, live]
    simp [ne]
  · intro b used
    refine (same b used).trans ?_
    intro a ge lt
    have := inv.live_header ((live b).mpr used) member
    exact kept a (by omega)

theorem kmallocSlab_outcome (inv : HeapInv K roots h G)
    (room : h.mm.kheapNext.toNat + 4096 < 2 ^ 64) :
    wp (kmallocSlab cls) (fun p h' => (p = 0 → PagesRefused slabAllocPage h h') ∧
      Allocated K roots h G ⟨p, slabObjSize cls, true⟩ p h') (PagesStopped slabAllocPage h) h := by
  unfold kmallocSlab
  rw [wp_bind, wp_get]
  refine wp_seq (findSlab_spec (inv.chain cls) (inv.slabs_length cls)) ?_
  rintro found h₀ ⟨rfl, none | ⟨S, member, rfl, free⟩⟩
  · -- no slab of the class has a free object
    rw [if_neg (not_not.mpr none)]
    refine wp_seq (slabPrepend_spec inv room) ?_
    rintro s h₁ ⟨made, same⟩
    apply wp_ite
    · rintro rfl
      rw [if_pos rfl] at made
      exact ⟨fun _ => made.2, .failed made.1 same⟩
    · intro ne
      rw [if_neg ne] at made
      have objects : slabObjects cls s ≠ [] := by
        rw [← List.length_pos_iff, length_slabObjects]
        have := (slabObjSize_facts cls).2.2.2.1
        omega
      refine wp_imp (slabTake_allocated (S := ⟨s, slabObjects cls s⟩) made
        (fun b => HeapGhost.live_addSlab) same (HeapGhost.mem_addSlab.mpr (.inr ⟨rfl, rfl⟩))
        objects) ?_
      rintro p h₂ ⟨some_, taken⟩
      exact ⟨fun zero => absurd zero some_, taken⟩
  · have ne := (inv.slab member).1
    rw [if_pos ne, wp_bind, wp_pure]
    dsimp only
    rw [if_neg ne]
    refine wp_imp (slabTake_allocated inv (fun _ => Iff.rfl) (fun b _ => .refl _ _ _) member free) ?_
    rintro p h₂ ⟨some_, taken⟩
    exact ⟨fun zero => absurd zero some_, taken⟩

theorem kmallocSlab_spec (inv : HeapInv K roots h G)
    (room : h.mm.kheapNext.toNat + 4096 < 2 ^ 64) :
    wp (kmallocSlab cls) (fun p h' => Allocated K roots h G ⟨p, slabObjSize cls, true⟩ p h')
      HeapSaturated h :=
  wp_mono (kmallocSlab_outcome inv room) (fun _ _ made => made.2) fun _ _ => PagesStopped.saturated

/-! ## Large blocks -/

def HeapGhost.addLarge (G : HeapGhost) (b n : Nat) : HeapGhost :=
  { G with
    large := (b, n) :: G.large
    owner := fun a => if b ≤ a ∧ a < b + n * 4096 then some (.large b) else G.owner a }

/-- Pages beyond the end of the heap become a large block. -/
theorem HeapInv.addLarge (inv : HeapInv K roots h G) {n : Nat} (pages : Paged K roots h'.mm)
    (heads : h'.slabHeads = h.slabHeads)
    (below : ∀ a, a < h.mm.kheapNext.toNat → heapView h'.mm a = heapView h.mm a)
    (next : h'.mm.kheapNext.toNat = h.mm.kheapNext.toNat + n * 4096)
    (large : LargeAt (heapView h'.mm) h.mm.kheapNext.toNat n) :
    HeapInv K roots h' (G.addLarge h.mm.kheapNext.toNat n) := by
  have end_ := inv.aligned
  have before := inv.extend pages heads (by omega) (by omega) below
  refine ⟨pages, before.aligned, before.chain, ?_, before.slabNodup, ?_, ?_, ?_⟩
  · intro c S member
    have := inv.slab_below member
    exact (if_neg (by omega)).trans (inv.slabOwner c S member)
  · intro x member
    rcases List.mem_cons.mp member with rfl | old
    · exact large
    · exact before.largeAt x old
  · intro x member i lt
    rcases List.mem_cons.mp member with rfl | old
    · exact if_pos (by dsimp only at *; omega)
    · have := inv.large_below old
      exact (if_neg (by omega)).trans (inv.largeOwner x old i lt)
  · intro a ge
    exact (if_neg (by omega)).trans (inv.ahead a (by omega))

theorem HeapGhost.live_addLarge {s n : Nat} {b : Block} :
    (G.addLarge s n).Live b ↔ G.Live b ∨ b = ⟨s + 16, n * 4096 - 16, false⟩ := by
  constructor
  · intro live
    cases live with
    | object there here used => exact .inl (.object there here used)
    | large large =>
      rcases List.mem_cons.mp large with new | old
      · obtain ⟨rfl, rfl⟩ := Prod.mk.inj new
        exact .inr rfl
      · exact .inl (.large old)
  · rintro (live | rfl)
    · cases live with
      | object there here used => exact .object there here used
      | large large => exact .large (List.mem_cons_of_mem _ large)
    · exact .large List.mem_cons_self

/-- The pages of a large request. -/
def largePages (size : Nat) : Nat := (size + 16 + 4095) / 4096

theorem largeBytes_toNat {size : Nat} (small : size < 2 ^ 32) :
    (largeBytes (BitVec.ofNat 64 size)).toNat = largePages size * 4096 := by
  rw [largeBytes, alignUp_page_toNat, BitVec.toNat_add, BitVec.toNat_ofNat, largePages]
  change ((size % 2 ^ 64 + 16) % 2 ^ 64 + 4095) % 2 ^ 64 / 4096 * 4096 = _
  omega

/-- A block of the pages that the size is rounded to. -/
theorem kmallocBlock_outcome (inv : HeapInv K roots h G) {size n : Nat}
    (bytes : (largeBytes (BitVec.ofNat 64 size)).toNat = n * 4096) (count : 0 < n ∧ n ≤ 2 ^ 21)
    (room : h.mm.kheapNext.toNat + n * 4096 < 2 ^ 64) :
    wp (kmallocBlock size) (fun p h' =>
      (p = 0 → PagesRefused (kmallocLarge (BitVec.ofNat 64 size)) h h') ∧
      Allocated K roots h G ⟨p, n * 4096 - 16, false⟩ p h')
      (PagesStopped (kmallocLarge (BitVec.ofNat 64 size)) h) h := by
  have end_ := inv.aligned
  have pow : (256 : Nat) ^ 8 = 2 ^ 64 := by decide
  unfold kmallocBlock
  rw [wp_bind, wp_onMm]
  refine wp_mono (wp_of_run (kmallocLarge_view inv.pages inv.aligned (by rwa [bytes]))) ?_
    (fun e s stop => ⟨e, stop.1, rfl, stop.2⟩)
  rintro (_ | p) s ⟨ran, extended, mapped⟩
  · have after : HeapInv K roots { h with mm := s } G :=
      inv.extend extended.pages rfl extended.aligned extended.next extended.below
    refine ⟨fun _ => ⟨ran, rfl⟩, .failed after ?_⟩
    intro b live a _ lt
    have := inv.live_below live
    exact extended.below a (by omega)
  obtain ⟨rfl, grown, pages⟩ := mapped p rfl
  rw [bytes] at grown pages
  have place : (h.mm.kheapNext + 16#64).toNat = h.mm.kheapNext.toNat + 16 := by
    rw [BitVec.toNat_add]
    change (h.mm.kheapNext.toNat + 16) % 2 ^ 64 = _
    omega
  have number : n * 4096 / 4096 = n := Nat.mul_div_cancel _ (by decide)
  dsimp only
  rw [place, Nat.add_sub_cancel, bytes, number]
  refine wp_seq (kstore_spec (h := { h with mm := s }) extended.pages
    (pages.sub (by omega) (by omega))) ?_
  intro _ h₁ stored₁
  refine wp_seq (kstore_spec stored₁.pages ?_) ?_
  · rw [stored₁.view]
    exact (ByteMem.put_mapped pages).sub (by omega) (by omega)
  intro _ h₂ stored₂
  rw [stored₁.view] at stored₂
  have below : ∀ a, a < h.mm.kheapNext.toNat → heapView h₂.mm a = heapView h.mm a := by
    intro a lt
    rw [stored₂.view, ByteMem.put_outside (by omega), ByteMem.put_outside (by omega)]
    exact extended.below a lt
  have next : h₂.mm.kheapNext.toNat = h.mm.kheapNext.toNat + n * 4096 := by
    rw [stored₂.next, stored₁.next]
    exact grown
  have large : LargeAt (heapView h₂.mm) h.mm.kheapNext.toNat (n) := by
    rw [stored₂.view]
    refine ⟨end_, count.1, count.2, ByteMem.put_mapped (ByteMem.put_mapped pages), ?_, ?_⟩
    · exact (ByteMem.put_field (by omega)).agree (ByteMem.put_agree (by omega))
    · exact ByteMem.put_field (by decide)
  refine ⟨fun zero => absurd zero (Nat.succ_ne_zero _), _,
    inv.addLarge stored₂.pages (stored₂.heads.trans stored₁.heads) below next large,
    .inr ⟨rfl, ?_⟩, ?_, ?_⟩
  · intro b live
    have := inv.live_below live
    omega
  · intro b
    rw [HeapGhost.live_addLarge]
    simp
  · intro b live a _ lt
    have := inv.live_below live
    exact below a (by omega)

theorem largePages_count {size : Nat} (small : size < 2 ^ 32) :
    0 < largePages size ∧ largePages size ≤ 2 ^ 21 := by
  rw [largePages]
  omega

theorem kmallocBlock_spec (inv : HeapInv K roots h G) {size : Nat} (small : size < 2 ^ 32)
    (room : h.mm.kheapNext.toNat + largePages size * 4096 < 2 ^ 64) :
    wp (kmallocBlock size) (fun p h' =>
      Allocated K roots h G ⟨p, largePages size * 4096 - 16, false⟩ p h') HeapSaturated h :=
  wp_mono (kmallocBlock_outcome inv (largeBytes_toNat small) (largePages_count small) room)
    (fun _ _ made => made.2) fun _ _ => PagesStopped.saturated

def HeapGhost.dropLarge (G : HeapGhost) (b : Nat) : HeapGhost :=
  { G with large := G.large.filter (·.1 ≠ b) }

theorem HeapGhost.mem_dropLarge {b : Nat} {x : Nat × Nat} :
    x ∈ (G.dropLarge b).large ↔ x ∈ G.large ∧ x.1 ≠ b := by
  simp [dropLarge]

theorem HeapInv.live_dropLarge (inv : HeapInv K roots h G) {s n : Nat} (member : (s, n) ∈ G.large)
    {b : Block} : (G.dropLarge s).Live b ↔ G.Live b ∧ b.addr ≠ s + 16 := by
  constructor
  · intro live
    cases live with
    | @object c S o there here used =>
      have within := object_within here
      have apart := inv.slab_large_apart there member
      have pos := (inv.largeAt _ member).pos
      exact ⟨.object there here used, by dsimp only at *; omega⟩
    | @large b n large =>
      obtain ⟨old, ne⟩ := HeapGhost.mem_dropLarge.mp large
      exact ⟨.large old, by dsimp only at *; omega⟩
  · rintro ⟨live, ne⟩
    cases live with
    | object there here used => exact .object there here used
    | @large b n large =>
      exact .large (HeapGhost.mem_dropLarge.mpr ⟨large, by dsimp only at *; omega⟩)

theorem largeHdr_eq {b : Nat} (lt : b < 2 ^ 64) : largeHdr (b + 16) = b := by
  rw [largeHdr]
  omega

theorem kfreeBlock_spec (inv : HeapInv K roots h G) {s n : Nat} (member : (s, n) ∈ G.large) :
    wp (kfreeBlock (s + 16)) (fun _ h' => HeapInv K roots h' (G.dropLarge s) ∧
      ∀ a, a < s ∨ s + n * 4096 ≤ a → heapView h'.mm a = heapView h.mm a) HeapSaturated h := by
  obtain ⟨aligned, pos, small, mapped, pages, canary⟩ := inv.largeAt _ member
  dsimp only at aligned pos small mapped pages canary
  have low := heapView_range (mapped s (le_refl _) (by omega))
  have high := heapView_range (mapped (s + n * 4096 - 1) (by omega) (by omega))
  obtain ⟨above, value⟩ := ofNat_above low.1 low.2
  unfold kfreeBlock
  rw [largeHdr_eq low.2]
  refine wp_kload canary ?_
  rw [if_neg (not_not.mpr rfl)]
  refine wp_kload pages ?_
  rw [wp_onMm]
  refine wp_mono (kfreeLarge_view above (by rwa [value]) (by omega) inv.pages) ?_
    (fun e t sat => ⟨e, rfl, sat⟩)
  rintro _ t ⟨paged, next, outside⟩
  rw [value] at outside
  refine ⟨⟨paged, by rw [next]; exact inv.aligned, ?_, inv.slabOwner, inv.slabNodup, ?_, ?_, ?_⟩,
    outside⟩
  · intro c
    refine (inv.chain c).agree ?_
    intro S there a ge lt
    have := inv.slab_large_apart there member
    exact outside a (by dsimp only at *; omega)
  · intro x there
    obtain ⟨old, ne⟩ := HeapGhost.mem_dropLarge.mp there
    refine (inv.largeAt x old).agree ?_
    intro a ge lt
    have := inv.larges_apart old member ne
    exact outside a (by dsimp only at *; omega)
  · intro x there
    exact inv.largeOwner x (HeapGhost.mem_dropLarge.mp there).1
  · rw [next]
    exact inv.ahead

/-! ## The calls -/

/-- What a request for `size` bytes gets. -/
def blockFor (size p : Nat) : Block :=
  match sizeToClass (max size 16) with
  | some cls => ⟨p, slabObjSize cls, true⟩
  | none => ⟨p, largePages size * 4096 - 16, false⟩

/-- The addresses a request may take from the kernel's address space. -/
def heapNeed (size : Nat) : Nat :=
  match sizeToClass (max size 16) with
  | some _ => 4096
  | none => largePages size * 4096

theorem sizeToClass_some {sz : Nat} {cls : Fin 7} (found : sizeToClass sz = some cls) :
    sz ≤ slabObjSize cls := by
  have := List.find?_some found
  simpa using this

theorem sizeToClass_none {sz : Nat} (none_ : sizeToClass sz = none) : 1024 < sz := by
  have := List.find?_eq_none.mp none_ 6 (List.mem_finRange _)
  simpa [slabObjSize] using this

/-- The block is as large as was asked for. -/
theorem le_blockFor_cap (size p : Nat) : size ≤ (blockFor size p).cap := by
  unfold blockFor
  split
  · rename_i cls found
    have := sizeToClass_some found
    dsimp only
    omega
  · dsimp only
    rw [largePages]
    omega

theorem blockFor_addr (size p : Nat) : (blockFor size p).addr = p := by
  unfold blockFor
  split <;> rfl

theorem kmalloc_spec (inv : HeapInv K roots h G) {size : Nat} (small : size < 2 ^ 32)
    (room : h.mm.kheapNext.toNat + heapNeed size < 2 ^ 64) :
    wp (kmalloc size) (fun p h' => Allocated K roots h G (blockFor size p) p h')
      HeapSaturated h := by
  unfold kmalloc
  apply wp_ite
  · intro _
    exact .failed inv (fun b _ => .refl _ _ _)
  intro pos
  have rounded : (if size < 16 then 16 else size) = max size 16 := by
    split <;> omega
  have below : max size 16 % 2 ^ 32 = max size 16 := Nat.mod_eq_of_lt (by omega)
  dsimp only
  rw [rounded, below]
  unfold heapNeed at room
  unfold blockFor
  cases found : sizeToClass (max size 16) with
  | some cls =>
    rw [found] at room
    exact kmallocSlab_spec inv room
  | none =>
    rw [found] at room
    have large := sizeToClass_none found
    have same : max size 16 = size := by omega
    rw [same]
    exact kmallocBlock_spec inv small room

/-- What `kfree` of the block at `p` leaves. -/
def Freed (K : KernelTables) (roots : List Nat) (h : HeapState) (G : HeapGhost) (p : Nat)
    (h' : HeapState) : Prop :=
  ∃ G', HeapInv K roots h' G' ∧ (∀ b, G'.Live b ↔ G.Live b ∧ b.addr ≠ p) ∧
    ∀ b, G.Live b → b.addr ≠ p → (heapView h.mm).Agree (heapView h'.mm) b.addr b.cap

/-- The first word of a block's page tells where it came from. -/
theorem HeapInv.magic (inv : HeapInv K roots h G) {b : Block} (live : G.Live b) :
    ∃ x, (heapView h.mm).Field 4 (slabOf b.addr) x ∧ (x = slabMagic ↔ b.slab = true) := by
  cases live with
  | @object c S o there here used =>
    obtain ⟨_, _, at_⟩ := inv.slab there
    have within := object_within here
    have aligned := at_.aligned
    have size := (slabObjSize_facts c).1
    have page : slabOf o = S.base := by
      rw [slabOf]
      omega
    dsimp only
    rw [page]
    exact ⟨slabMagic, at_.magic, by simp⟩
  | @large b n member =>
    obtain ⟨aligned, _, small, _, pages, _⟩ := inv.largeAt _ member
    dsimp only at aligned small pages
    have page : slabOf (b + 16) = b := by
      rw [slabOf]
      omega
    dsimp only
    rw [page]
    refine ⟨n % 256 ^ 4, pages.low (n := 4) (k := 4), ?_⟩
    rw [slabMagic]
    constructor
    · intro eq
      omega
    · intro no
      cases no

theorem kfree_spec (inv : HeapInv K roots h G) {b : Block} (live : G.Live b) :
    wp (kfree b.addr) (fun _ h' => Freed K roots h G b.addr h') HeapSaturated h := by
  obtain ⟨x, first, iff⟩ := inv.magic live
  unfold kfree
  rw [if_neg live.ne_zero]
  refine wp_kload first ?_
  have apart : ∀ b', G.Live b' → b'.addr ≠ b.addr →
      b'.addr + b'.cap ≤ b.addr ∨ b.addr + b.cap ≤ b'.addr := by
    intro b' live' ne
    rcases inv.live_apart live' live with rfl | apart
    · exact absurd rfl ne
    · exact apart
  cases live with
  | @object c S o there here used =>
    obtain ⟨_, _, at_⟩ := inv.slab there
    have within := object_within here
    have aligned := at_.aligned
    have size := (slabObjSize_facts c).1
    have page : slabOf o = S.base := by
      rw [slabOf]
      omega
    rw [if_pos (iff.mpr rfl)]
    dsimp only
    rw [page]
    refine wp_imp (kfreeSlab_spec inv there here used) ?_
    rintro _ h' ⟨after, same⟩
    refine ⟨_, after, fun b' => inv.live_free there here, ?_⟩
    intro b' live' ne a ge lt
    have := inv.live_header live' there
    have := apart b' live' ne
    exact same a (by omega) (by dsimp only at *; omega)
  | @large s n member =>
    have pos := (inv.largeAt _ member).pos
    rw [if_neg (fun eq => by cases iff.mp eq)]
    refine wp_imp (kfreeBlock_spec inv member) ?_
    rintro _ h' ⟨after, same⟩
    refine ⟨_, after, fun b' => inv.live_dropLarge member, ?_⟩
    intro b' live' ne a ge lt
    have := inv.live_largeHeader live' member
    have := apart b' live' ne
    exact same a (by dsimp only at *; omega)

/-- The size `krealloc` reads is the capacity of the block. -/
theorem oldSize_spec {halt : HeapHalt → HeapState → Prop} (inv : HeapInv K roots h G) {b : Block}
    (live : G.Live b) : wp (oldSize b.addr) (fun n h' => n = b.cap ∧ h' = h) halt h := by
  obtain ⟨x, first, iff⟩ := inv.magic live
  unfold oldSize
  refine wp_kload first ?_
  cases live with
  | @object c S o there here used =>
    obtain ⟨_, _, at_⟩ := inv.slab there
    have within := object_within here
    have aligned := at_.aligned
    have size := (slabObjSize_facts c).1
    have page : slabOf o = S.base := by
      rw [slabOf]
      omega
    rw [if_pos (iff.mpr rfl)]
    dsimp only
    rw [page]
    exact kload_spec at_.objSize
  | @large s n member =>
    obtain ⟨aligned, pos, small, mapped, pages, _⟩ := inv.largeAt _ member
    dsimp only at pos small mapped pages
    have low := heapView_range (mapped s (le_refl _) (by omega))
    rw [if_neg (fun eq => by cases iff.mp eq)]
    dsimp only
    rw [largeHdr_eq low.2]
    refine wp_kload pages ?_
    refine ⟨?_, rfl⟩
    omega

/-- The owner of a block may write to it. -/
theorem HeapInv.write (inv : HeapInv K roots h G) {b : Block} (live : G.Live b) {view : ByteMem}
    (stored : Stored K roots h view h')
    (mapped : ∀ {c n}, (heapView h.mm).Mapped c n → view.Mapped c n)
    (outside : ∀ a, a < b.addr ∨ b.addr + b.cap ≤ a → view a = heapView h.mm a) :
    HeapInv K roots h' G := by
  obtain ⟨pages, rfl, heads, next⟩ := stored
  refine ⟨pages, by rw [next]; exact inv.aligned, ?_, inv.slabOwner, inv.slabNodup, ?_,
    inv.largeOwner, by rw [next]; exact inv.ahead⟩
  · intro c
    rw [heads]
    refine (inv.chain c).map ?_
    intro S member _ at_
    have header := inv.live_header live member
    refine at_.agree (mapped at_.mapped) ?_ ?_
    · intro a ge lt
      exact outside a (by omega)
    · intro o free a ge lt
      have apart := inv.free_apart member free live
      have size := (slabObjSize_facts c).1
      exact outside a (by omega)
  · intro x member
    have header := inv.live_largeHeader live member
    have at_ := inv.largeAt x member
    refine at_.agree_header (mapped at_.mapped) ?_
    intro a ge lt
    exact outside a (by omega)

/-- Stores to a block that has just been allocated change no other block. -/
theorem Allocated.write {h'' : HeapState} {block : Block} {p : Nat} {view : ByteMem}
    (made : Allocated K roots h G block p h') (ne : p ≠ 0) (stored : Stored K roots h' view h'')
    (mapped : ∀ {c n}, (heapView h'.mm).Mapped c n → view.Mapped c n)
    (outside : ∀ a, a < p ∨ p + block.cap ≤ a → view a = heapView h'.mm a) :
    Allocated K roots h G block p h'' := by
  obtain ⟨G', inv, place, live, same⟩ := made
  obtain ⟨rfl, fresh⟩ := place.resolve_left ne
  have new : G'.Live block := (live block).mpr (.inr ⟨ne, rfl⟩)
  refine ⟨G', inv.write new stored mapped outside, .inr ⟨rfl, fresh⟩, live, ?_⟩
  intro b used
  refine (same b used).trans ?_
  intro a ge lt
  rw [stored.view]
  have apart : b.addr + b.cap ≤ block.addr ∨ block.addr + block.cap ≤ b.addr := by
    rcases inv.live_apart ((live b).mpr (.inl used)) new with rfl | apart
    · exact absurd rfl (fresh b used)
    · exact apart
  exact outside a (by omega)

theorem Allocated.mapped {block : Block} {p : Nat} (made : Allocated K roots h G block p h')
    (ne : p ≠ 0) : (heapView h'.mm).Mapped p block.cap := by
  obtain ⟨G', inv, place, live, _⟩ := made
  obtain ⟨rfl, _⟩ := place.resolve_left ne
  exact inv.live_mapped ((live block).mpr (.inr ⟨ne, rfl⟩))

theorem kzalloc_spec (inv : HeapInv K roots h G) {size : Nat} (small : size < 2 ^ 32)
    (room : h.mm.kheapNext.toNat + heapNeed size < 2 ^ 64) :
    wp (kzalloc size) (fun p h' => Allocated K roots h G (blockFor size p) p h' ∧
      (p ≠ 0 → ∀ i < size, heapView h'.mm (p + i) = some 0#8)) HeapSaturated h := by
  unfold kzalloc
  refine wp_seq (kmalloc_spec inv small room) ?_
  intro p h₁ made
  apply wp_ite
  · rintro rfl
    exact ⟨made, fun no => absurd rfl no⟩
  intro ne
  have fits := le_blockFor_cap size p
  obtain ⟨_, inv₁, _⟩ := id made
  refine wp_seq (memset_spec _ inv₁.pages ((made.mapped ne).sub (le_refl _) (by omega))) ?_
  intro _ h₂ stored
  refine ⟨made.write ne stored ?_ ?_, ?_⟩
  · intro c n there a ge lt
    unfold ByteMem.fill
    split
    · rfl
    · exact there a ge lt
  · intro a off
    exact if_neg (by omega)
  · intro _ i lt
    rw [stored.view]
    exact if_pos (by omega)

/-- What `krealloc` of a block `b` leaves: the block where it was, because it was large
enough or because no other could be had, or its bytes in a new block. -/
inductive Resized (K : KernelTables) (roots : List Nat) (h : HeapState) (G : HeapGhost) (b : Block)
    (size p : Nat) (h' : HeapState) : Prop where
  | kept : p = b.addr → size ≤ b.cap → h' = h → Resized K roots h G b size p h'
  | failed : p = 0 → Allocated K roots h G (blockFor size 0) 0 h' → Resized K roots h G b size p h'
  | moved {h₁ G₁} : p ≠ 0 → b.cap < size → Allocated K roots h G (blockFor size p) p h₁ →
      HeapInv K roots h₁ G₁ → (∀ x, G₁.Live x ↔ G.Live x ∨ x = blockFor size p) →
      (∀ i < b.cap, heapView h₁.mm (p + i) = heapView h.mm (b.addr + i)) →
      Freed K roots h₁ G₁ b.addr h' → Resized K roots h G b size p h'

theorem krealloc_spec (inv : HeapInv K roots h G) {b : Block} (live : G.Live b) {size : Nat}
    (pos : size ≠ 0) (small : size < 2 ^ 32)
    (room : h.mm.kheapNext.toNat + heapNeed size < 2 ^ 64) :
    wp (krealloc b.addr size) (fun p h' => Resized K roots h G b size p h') HeapSaturated h := by
  unfold krealloc
  rw [if_neg live.ne_zero, if_neg pos]
  refine wp_seq (oldSize_spec inv live) ?_
  intro old h₀ read
  rw [read.1, read.2]
  apply wp_ite
  · intro fits
    exact .kept rfl fits rfl
  intro large
  refine wp_seq (kmalloc_spec inv small room) ?_
  intro p h₁ made
  apply wp_ite
  · rintro rfl
    exact .failed rfl made
  intro ne
  have fits := le_blockFor_cap size p
  obtain ⟨G₁, inv₁, place, live₁, same₁⟩ := id made
  obtain ⟨addr, fresh⟩ := place.resolve_left ne
  have stays : G₁.Live b := (live₁ b).mpr (.inl live)
  have new : G₁.Live (blockFor size p) := (live₁ _).mpr (.inr ⟨ne, rfl⟩)
  have apart : b.addr + b.cap ≤ p ∨ p + (blockFor size p).cap ≤ b.addr := by
    rcases inv₁.live_apart stays new with eq | apart
    · exact absurd (by rw [eq]; exact addr.symm) (fresh b live)
    · rwa [← addr] at apart
  refine wp_seq (memcpy_spec inv₁.pages ((made.mapped ne).sub (le_refl _) (by omega))
    (inv₁.live_mapped stays) (by omega)) ?_
  intro _ h₂ stored
  have copied : Allocated K roots h G (blockFor size p) p h₂ := by
    refine made.write ne stored ?_ ?_
    · intro c n there a ge lt
      unfold ByteMem.copy
      split
      · exact inv₁.live_mapped stays _ (by omega) (by omega)
      · exact there a ge lt
    · intro a off
      exact if_neg (by omega)
  have inv₂ : HeapInv K roots h₂ G₁ := by
    refine inv₁.write new stored ?_ ?_
    · intro c n there a ge lt
      unfold ByteMem.copy
      split
      · exact inv₁.live_mapped stays _ (by omega) (by omega)
      · exact there a ge lt
    · intro a off
      rw [← addr] at off
      exact if_neg (by omega)
  refine wp_seq (kfree_spec inv₂ stays) ?_
  intro _ h₃ freed
  refine .moved ne (by omega) copied inv₂ ?_ ?_ freed
  · intro x
    rw [live₁]
    simp [ne]
  · intro i lt
    rw [stored.view, ByteMem.copy, if_pos (by omega), Nat.add_sub_cancel_left]
    exact same₁ b live _ (by omega) (by omega)

end LithiumKernel.Mm
