import LithiumKernel.Mm.HeapSafety

/-!
# Requests of every size (kernel/mm/heap.c)

`size_to_class` takes a `uint32_t`, and `kmalloc` passes it the low half of the size; the large path
adds 16 and rounds up to pages without looking for an overflow. A request whose low half is the size
of a slab object gets such an object, and one of the last 15 sizes gets a single page. A request that
is too large for the machine fails, since the pool has at most 2^20 frames.
-/
namespace LithiumKernel.Mm

open LithiumKernel.Lib

/-- The block at `p`, as its header describes it, is mapped and has at least `size` bytes. -/
def Delivers (size p : Nat) (h : HeapState) : Prop :=
  ∃ n, resultValue (oldSize p h) = some n ∧ size ≤ n ∧ (heapView h.mm).Mapped p n

/-- Nothing is mapped at the addresses that have not been handed out. -/
def Ahead (h : HeapState) : Prop := ∀ a, h.mm.kheapNext.toNat ≤ a → heapView h.mm a = none

/-- The kernel has the addresses for the request left. -/
def Roomy (h : HeapState) (size : Nat) : Prop :=
  size < 2 ^ 32 → h.mm.kheapNext.toNat + heapNeed size < 2 ^ 64

/-- Neither the conversion to 32 bits nor the round-up to pages loses a part of the size. -/
def SizeKept (size : Nat) : Prop := size ≤ 1024 ∨ 1024 < size % 2 ^ 32 ∧ size ≤ 2 ^ 64 - 16

variable {K : KernelTables} {roots : List Nat} {h h' : HeapState} {G : HeapGhost} {size p : Nat}

/-! ## Requests below 4 GiB -/

theorem HeapInv.delivers (inv : HeapInv K roots h G) {b : Block} (live : G.Live b)
    (le : size ≤ b.cap) : Delivers size b.addr h := by
  obtain ⟨n, h', ran, rfl, _⟩ := exists_run (oldSize_spec inv live)
  exact ⟨_, by rw [ran]; rfl, le, inv.live_mapped live⟩

theorem Allocated.delivers (made : Allocated K roots h G (blockFor size p) p h') (some_ : p ≠ 0) :
    Delivers size p h' := by
  obtain ⟨G', inv, place, live, _⟩ := made
  have here := inv.delivers ((live _).mpr (.inr ⟨some_, rfl⟩)) (le_blockFor_cap size p)
  rwa [blockFor_addr] at here

theorem Resized.delivers {b : Block} (inv : HeapInv K roots h G) (live : G.Live b)
    (resized : Resized K roots h G b size p h') (some_ : p ≠ 0) : Delivers size p h' := by
  cases resized with
  | kept place fits same =>
    subst place same
    exact inv.delivers live fits
  | failed none_ => exact absurd none_ some_
  | @moved h₁ G₁ _ less made inv₁ live₁ _ freed =>
    obtain ⟨_, _, place, _, _⟩ := made
    obtain ⟨G₂, inv₂, live₂, _⟩ := freed
    obtain ⟨addr, fresh⟩ := place.resolve_left some_
    have other : (blockFor size p).addr ≠ b.addr := by
      rw [← addr]
      exact (fresh b live).symm
    have here := inv₂.delivers ((live₂ _).mpr ⟨(live₁ _).mpr (.inr rfl), other⟩)
      (le_blockFor_cap size p)
    rwa [blockFor_addr] at here

/-! ## Requests beyond the frames of the machine -/

/-- `m` takes frames from the pool and gives none back. -/
def Draws {α : Type} (m : MmM α) : Prop := ∀ s, s.pmm.Ok →
  wp m (fun _ s' => s'.pmm.Ok ∧ s'.pmm.freeFrames ≤ s.pmm.freeFrames) (fun _ _ => True) s

theorem Draws.bind {α β : Type} {m : MmM α} {k : α → MmM β} (first : Draws m)
    (rest : ∀ a, Draws (k a)) : Draws (m >>= k) := by
  intro s ok
  refine wp_seq (first s ok) ?_
  rintro a s' ⟨ok', le⟩
  refine wp_imp (rest a s' ok') ?_
  rintro _ s'' ⟨ok'', le'⟩
  exact ⟨ok'', le'.trans le⟩

theorem Draws.pure {α : Type} (a : α) : Draws (Pure.pure a) := fun _ ok => ⟨ok, le_refl _⟩

theorem Draws.ite {α : Type} {c : Prop} [Decidable c] {m k : MmM α} (yes : Draws m) (no : Draws k) :
    Draws (if c then m else k) := by
  split
  · exact yes
  · exact no

theorem draws_readEntry (t : Nat) (i : Idx) : Draws (readEntry t i) := fun _ ok => ⟨ok, le_refl _⟩

theorem draws_writeEntry (t : Nat) (i : Idx) (w : Word) : Draws (writeEntry t i w) :=
  fun _ ok => ⟨ok, le_refl _⟩

theorem draws_zeroFrame (f : Nat) : Draws (zeroFrame f) := fun _ ok => ⟨ok, le_refl _⟩

/-- A frame that is handed out is one less in the pool. -/
theorem allocFrame_draws {s : MemState} (ok : s.pmm.Ok) :
    wp allocFrame (fun r s' => s'.pmm.Ok ∧
      s'.pmm.freeFrames + (if r.isSome then 1 else 0) = s.pmm.freeFrames) (fun _ _ => True) s := by
  rw [wp_allocFrame]
  rcases pmmAllocFrame_cases s.pmm with ⟨f, run, lt, free⟩ | run
  · rw [run]
    exact ⟨Pmm.takeFrame_ok ok lt free, takeFrame_left ok lt free⟩
  · rw [run]
    exact ⟨ok, rfl⟩

theorem draws_allocFrame : Draws allocFrame := by
  intro s ok
  refine wp_imp (allocFrame_draws ok) ?_
  rintro r s' ⟨ok', left⟩
  exact ⟨ok', by omega⟩

theorem draws_ptWalkOrAlloc (t : Nat) (i : Idx) : Draws (ptWalkOrAlloc t i) := by
  unfold ptWalkOrAlloc
  refine (draws_readEntry t i).bind fun e => .ite (.pure _) (draws_allocFrame.bind fun r => ?_)
  cases r with
  | none => exact .pure _
  | some phys =>
    exact (draws_zeroFrame _).bind fun _ => (draws_writeEntry _ _ _).bind fun _ => .pure _

theorem draws_markUser (flags : Word) (t : Nat) (i : Idx) : Draws (markUser flags t i) :=
  .ite ((draws_readEntry _ _).bind fun _ => draws_writeEntry _ _ _) (.pure _)

theorem draws_vmmMapPage (r : Nat) (virt phys flags : Word) :
    Draws (vmmMapPage r virt phys flags) := by
  unfold vmmMapPage mapBelowPdpt
  refine (draws_ptWalkOrAlloc _ _).bind fun pdpt => ?_
  cases pdpt with
  | none => exact .pure _
  | some pdpt =>
    refine (draws_markUser _ _ _).bind fun _ => (draws_ptWalkOrAlloc _ _).bind fun pd => ?_
    cases pd with
    | none => exact .pure _
    | some pd =>
      refine (draws_markUser _ _ _).bind fun _ => (draws_readEntry _ _).bind fun e =>
        .ite (.pure _) ((draws_ptWalkOrAlloc _ _).bind fun pt => ?_)
      cases pt with
      | none => exact .pure _
      | some pt =>
        exact (draws_markUser _ _ _).bind fun _ => (draws_writeEntry _ _ _).bind fun _ => .pure _

/-- A page that gets mapped takes a frame. -/
theorem mapKernelPage_draws (v : Word) {s : MemState} (ok : s.pmm.Ok) :
    wp (mapKernelPage v) (fun done s' => done = true →
      s'.pmm.Ok ∧ s'.pmm.freeFrames + 1 ≤ s.pmm.freeFrames) (fun _ _ => True) s := by
  unfold mapKernelPage
  refine wp_seq (allocFrame_draws ok) ?_
  rintro (_ | phys) s₁ ⟨ok₁, left⟩
  · exact nofun
  rw [Option.isSome_some, if_pos rfl] at left
  rw [wp_bind, wp_get]
  unfold mapOrFree
  refine wp_seq (draws_vmmMapPage _ _ _ _ s₁ ok₁) ?_
  rintro (_ | _) s₂ ⟨ok₂, le⟩
  · rw [if_neg (by decide)]
    exact wp_seq (wp_true s₂) fun _ _ _ => nofun
  · exact fun _ => ⟨ok₂, by omega⟩

/-- A large request that is met has taken a frame for each page. -/
theorem kmallocLarge_draws (bytes : Word) {s : MemState} (ok : s.pmm.Ok) :
    wp (kmallocLarge bytes) (fun r _ => r.isSome = true →
      (largeBytes bytes).toNat / 4096 ≤ s.pmm.freeFrames) (fun _ _ => True) s := by
  unfold kmallocLarge
  simp only [vmmAllocKernel, wp_bind, wp_get, wp_modify, wp_pure]
  refine wp_imp (wp_allM (fun done s' => s'.pmm.Ok ∧
    s'.pmm.freeFrames + done.length ≤ s.pmm.freeFrames) (fun _ => True) _ ?_ ⟨ok, le_refl _⟩) ?_
  · rintro done i rest s₁ split ⟨ok₁, left⟩
    refine wp_imp (mapKernelPage_draws _ ok₁) ?_
    rintro (_ | _) s₂ mapped
    · trivial
    · obtain ⟨ok₂, less⟩ := mapped rfl
      refine ⟨ok₂, ?_⟩
      rw [List.length_append, List.length_singleton]
      omega
  · rintro (_ | _) s' after
    · exact fun some_ => absurd some_ (by simp)
    · obtain ⟨_, left⟩ := after
      rw [List.length_range] at left
      exact fun _ => by omega

/-- From 4 GiB on a request has more pages than a machine has frames, or its size wraps to 0. -/
theorem largeBytes_beyond (large : 2 ^ 32 ≤ size) (most : size ≤ 2 ^ 64 - 16) :
    (largeBytes (BitVec.ofNat 64 size)).toNat = 0 ∨
      2 ^ 20 < (largeBytes (BitVec.ofNat 64 size)).toNat / 4096 := by
  rw [largeBytes, alignUp_page_toNat, BitVec.toNat_add, BitVec.toNat_ofNat]
  change ((size % 2 ^ 64 + 16) % 2 ^ 64 + 4095) % 2 ^ 64 / 4096 * 4096 = 0 ∨
    2 ^ 20 < ((size % 2 ^ 64 + 16) % 2 ^ 64 + 4095) % 2 ^ 64 / 4096 * 4096 / 4096
  omega

/-- A store to an address that is not mapped does not return. -/
theorem kstore_unmapped {n a x : Nat} (low : heapBase.toNat ≤ a) (high : a < 2 ^ 64)
    (none_ : heapView h.mm a = none) (post : Unit → HeapState → Prop) :
    wp (kstore (n + 1) a x) post (fun _ _ => True) h := by
  have absent : vmmGetPhysical h.mm.mem h.mm.cr3 (BitVec.ofNat 64 a) = none := by
    rwa [heapView, if_pos ⟨low, high⟩, Option.map_eq_none_iff] at none_
  rw [kstore, wp_bind]
  unfold kstoreByte
  rw [wp_bind, wp_get, absent]
  trivial

theorem sizeToClass_large {sz : Nat} (large : 1024 < sz) : sizeToClass sz = none := by
  refine List.find?_eq_none.mpr fun cls _ => ?_
  have most := (slabObjSize_facts cls).2.2.1
  simp only [decide_eq_true_eq]
  omega

theorem Pmm.Ok.freeFrames_le {p : Pmm} (ok : p.Ok) : p.freeFrames ≤ 2 ^ 20 := calc
  p.freeFrames = p.freeSet.card := ok.count
  _ ≤ (Finset.range p.totalFrames).card := Finset.card_filter_le ..
  _ = p.totalFrames := Finset.card_range _
  _ ≤ 2 ^ 20 := ok.total_le

/-- Requests of 4 GiB or more are never met: the pool is too small, or the rounded size is 0 and
the header goes to a page that is not there. -/
theorem kmalloc_beyond (inv : HeapInv K roots h G) (ahead : Ahead h) (large : 2 ^ 32 ≤ size)
    (class_ : 1024 < size % 2 ^ 32) (most : size ≤ 2 ^ 64 - 16) :
    wp (kmalloc size) (fun p _ => p = 0) (fun _ _ => True) h := by
  obtain ⟨g, pages⟩ := inv.pages
  have ok := pages.vm.ok
  have frames := ok.freeFrames_le
  unfold kmalloc
  rw [if_neg (by omega), if_neg (by omega)]
  dsimp only
  rw [sizeToClass_large class_]
  unfold kmallocBlock
  rw [wp_bind, wp_onMm]
  rcases largeBytes_beyond large most with zero | many
  · have low : heapBase.toNat ≤ h.mm.kheapNext.toNat := pages.heap
    have aligned := inv.aligned
    have high := h.mm.kheapNext.isLt
    have header : (h.mm.kheapNext + 16#64).toNat - 16 = h.mm.kheapNext.toNat := by
      rw [BitVec.toNat_add]
      change (h.mm.kheapNext.toNat + 16) % 2 ^ 64 - 16 = _
      omega
    have nothing : largeBytes (BitVec.ofNat 64 size) = 0#64 := BitVec.eq_of_toNat_eq zero
    unfold kmallocLarge
    simp only [vmmAllocKernel, wp_bind, wp_get, wp_modify, wp_pure]
    rw [nothing]
    refine wp_pure _ _ _ _ |>.mpr ?_
    rw [if_pos rfl, wp_pure]
    dsimp only
    rw [header, wp_bind]
    -- no address has been taken, and the header goes to the page at the end of the heap
    exact @kstore_unmapped { h with mm := { h.mm with
      kheapNext := h.mm.kheapNext + alignUp 0#64 pageSize } } 7 _ _ low high (ahead _ (le_refl _)) _
  · refine wp_imp (kmallocLarge_draws _ ok) ?_
    rintro (_ | p) s' met
    · rfl
    · exact absurd (met rfl) (by omega)

/-! ## All requests -/

/-- The three ways to get a block of `size` bytes. -/
structure AllDeliver (h : HeapState) (G : HeapGhost) (size : Nat) : Prop where
  kmalloc : ∀ p h', kmalloc size h = .ok p h' → p ≠ 0 → Delivers size p h'
  kzalloc : ∀ p h', kzalloc size h = .ok p h' → p ≠ 0 → Delivers size p h'
  krealloc : ∀ ptr p h', (ptr = 0 ∨ ∃ b, G.Live b ∧ b.addr = ptr) →
    krealloc ptr size h = .ok p h' → p ≠ 0 → Delivers size p h'

theorem allDeliver_of (inv : HeapInv K roots h G)
    (made : wp (Mm.kmalloc size) (fun p h' => p ≠ 0 → Delivers size p h') (fun _ _ => True) h)
    (zeroed : wp (Mm.kzalloc size) (fun p h' => p ≠ 0 → Delivers size p h') (fun _ _ => True) h)
    (resized : ∀ b, G.Live b → b.cap < size →
      wp (Mm.krealloc b.addr size) (fun p h' => p ≠ 0 → Delivers size p h') (fun _ _ => True) h) :
    AllDeliver h G size where
  kmalloc p h' ran := wp_ok made ran
  kzalloc p h' ran := wp_ok zeroed ran
  krealloc := by
    rintro _ p h' (rfl | ⟨b, live, rfl⟩) ran
    · rw [Mm.krealloc, if_pos rfl] at ran
      exact wp_ok made ran
    have outcome : wp (Mm.krealloc b.addr size) (fun p h' => p ≠ 0 → Delivers size p h')
        (fun _ _ => True) h := by
      by_cases less : b.cap < size
      · exact resized b live less
      unfold Mm.krealloc
      rw [if_neg live.ne_zero]
      apply wp_ite
      · intro _
        exact wp_seq (wp_true h) fun _ _ _ no => absurd rfl no
      · intro _
        refine wp_seq (oldSize_spec inv live) ?_
        rintro old h₀ ⟨rfl, rfl⟩
        rw [if_pos (by omega), wp_pure]
        exact fun _ => inv.delivers live (by omega)
    exact wp_ok outcome ran

/-- Below 4 GiB a block has the bytes that were asked for. -/
theorem allDeliver_small (inv : HeapInv K roots h G) (small : size < 2 ^ 32) (roomy : Roomy h size) :
    AllDeliver h G size := by
  have room := roomy small
  refine allDeliver_of inv ?_ ?_ ?_
  · exact wp_mono (kmalloc_spec inv small room) (fun _ _ made => made.delivers) fun _ _ _ => trivial
  · exact wp_mono (kzalloc_spec inv small room) (fun _ _ made => made.1.delivers)
      fun _ _ _ => trivial
  · intro b live less
    exact wp_mono (krealloc_spec inv live (by omega) small room)
      (fun _ _ resized => resized.delivers inv live) fun _ _ _ => trivial

/-- From 4 GiB on no request is met, as long as its low half does not look like a small one. -/
theorem allDeliver_beyond (inv : HeapInv K roots h G) (ahead : Ahead h) (large : 2 ^ 32 ≤ size)
    (class_ : 1024 < size % 2 ^ 32) (most : size ≤ 2 ^ 64 - 16) : AllDeliver h G size := by
  have none_ := kmalloc_beyond inv ahead large class_ most
  refine allDeliver_of inv ?_ ?_ ?_
  · exact wp_imp none_ fun _ _ zero some_ => absurd zero some_
  · unfold Mm.kzalloc
    refine wp_seq none_ ?_
    rintro p h' rfl
    exact fun some_ => absurd rfl some_
  · intro b live less
    unfold Mm.krealloc
    rw [if_neg live.ne_zero, if_neg (by omega)]
    refine wp_seq (oldSize_spec inv live) ?_
    rintro old h₀ ⟨rfl, rfl⟩
    rw [if_neg (by omega)]
    refine wp_seq none_ ?_
    rintro p h' rfl
    exact fun some_ => absurd rfl some_

/-! ## Sizes that are lost -/

/-- The header names the size of the block, and that is all there is. -/
theorem Allocated.not_delivers {block : Block} (made : Allocated K roots h G block p h')
    (some_ : p ≠ 0) (less : block.cap < size) : ¬ Delivers size p h' := by
  rintro ⟨n, old, fits, _⟩
  obtain ⟨G', inv, place, live, _⟩ := made
  obtain ⟨addr, _⟩ := place.resolve_left some_
  obtain ⟨n', h'', ran, cap, _⟩ := exists_run (oldSize_spec inv ((live block).mpr (.inr ⟨some_, rfl⟩)))
  rw [← addr] at ran
  rw [ran] at old
  obtain rfl : n' = n := Option.some.inj old
  omega

/-- The heap of the small machine is as `heap_init` leaves it. -/
theorem smallHeap_inv : HeapInv smallTables [] (freshHeap smallMachine)
    ⟨fun _ => [], [], fun _ => none⟩ :=
  (smallMachine_booted.tracked (smallMachine_booted.heapBase_le (by decide))).inv

theorem Booted.ahead {kernelEnd : Word} {s : MemState} (boot : Booted K kernelEnd s)
    (heap : heapBase ≤ s.kheapNext) : Ahead (freshHeap s) := by
  intro a ge
  unfold heapView
  by_cases range : heapBase.toNat ≤ a ∧ a < 2 ^ 64
  · have above : heapBase ≤ BitVec.ofNat 64 a := by
      rw [BitVec.le_def, BitVec.toNat_ofNat, Nat.mod_eq_of_lt range.2]
      exact range.1
    have absent : vmmGetPhysical s.mem s.cr3 (BitVec.ofNat 64 a) = none := by
      rw [(boot.system heap).heapPhysical above]
      exact if_pos rfl
    rw [if_pos range]
    exact Option.map_eq_none_iff.mpr absent
  · exact if_neg range

theorem PagesStopped.not_met {α : Type} {m : MmM (Option α)} {e : HeapHalt} {v : α}
    (stop : PagesStopped m h e h') : resultValue (m h.mm) ≠ some (some v) := by
  obtain ⟨k, ran, _⟩ := stop
  rw [ran]
  exact nofun

theorem PagesRefused.not_met {α : Type} {m : MmM (Option α)} {v : α}
    (refused : PagesRefused m h h') : resultValue (m h.mm) ≠ some (some v) := by
  rw [refused.1]
  intro same
  cases Option.some.inj same

/-- A request that gets its pages gets a block. -/
theorem kmalloc_met {m : MmM (Option Word)} {v : Word} {block : Nat → Block}
    (outcome : wp (Mm.kmalloc size) (fun p h' => (p = 0 → PagesRefused m h h') ∧
      Allocated K roots h G (block p) p h') (PagesStopped m h) h)
    (met : resultValue (m h.mm) = some (some v)) :
    ∃ p h', Mm.kmalloc size h = .ok p h' ∧ p ≠ 0 ∧ Allocated K roots h G (block p) p h' := by
  refine exists_run (wp_mono outcome ?_ fun _ _ stop => stop.not_met met)
  rintro p h' ⟨refused, made⟩
  exact ⟨fun zero => (refused zero).not_met met, made⟩

/-- `kmalloc` hands out a block that is too small. -/
def GivesShort (h : HeapState) (size : Nat) : Prop :=
  ∃ p h', Mm.kmalloc size h = .ok p h' ∧ p ≠ 0 ∧ ¬ Delivers size p h'

theorem kmalloc_of_large (large : 16 ≤ size) : Mm.kmalloc size =
    match sizeToClass (size % 2 ^ 32) with
    | some cls => kmallocSlab cls
    | none => kmallocBlock size := by
  have nonzero : size ≠ 0 := by omega
  have enough : ¬ size < 16 := by omega
  cases found : sizeToClass (size % 2 ^ 32) <;>
    simp only [Mm.kmalloc, if_neg nonzero, if_neg enough, found]

/-- The last 15 sizes are rounded to one page. -/
theorem largeBytes_last (last : 2 ^ 64 - 16 < size) (top : size < 2 ^ 64) :
    largeBytes (BitVec.ofNat 64 size) = largeBytes 2000#64 := by
  refine BitVec.eq_of_toNat_eq ?_
  rw [largeBytes, alignUp_page_toNat, BitVec.toNat_add, BitVec.toNat_ofNat]
  change ((size % 2 ^ 64 + 16) % 2 ^ 64 + 4095) % 2 ^ 64 / 4096 * 4096 = 4096
  omega

theorem kmallocLarge_congr {a b : Word} (same : largeBytes a = largeBytes b) :
    kmallocLarge a = kmallocLarge b := by
  unfold kmallocLarge
  rw [same]

/-- A heap with the memory for one page meets every request whose size is lost. -/
theorem givesShort (inv : HeapInv K roots h G) (room : h.mm.kheapNext.toNat + 1 * 4096 < 2 ^ 64)
    {v w : Word} (slab : resultValue (slabAllocPage h.mm) = some (some v))
    (block : resultValue (kmallocLarge 2000#64 h.mm) = some (some w)) (top : size < 2 ^ 64)
    (lost : ¬ SizeKept size) : GivesShort h size := by
  have large : 1024 < size ∧ (size % 2 ^ 32 ≤ 1024 ∨ 2 ^ 64 - 16 < size) := by
    unfold SizeKept at lost
    omega
  cases found : sizeToClass (size % 2 ^ 32) with
  | some cls =>
    have most := (slabObjSize_facts cls).2.2.1
    have path : Mm.kmalloc size = kmallocSlab cls := by
      rw [kmalloc_of_large (by omega), found]
    have outcome := @kmallocSlab_outcome _ _ _ _ cls inv room
    rw [← path] at outcome
    obtain ⟨p, h', ran, some_, made⟩ := kmalloc_met outcome slab
    exact ⟨p, h', ran, some_, made.not_delivers some_ (by dsimp only; omega)⟩
  | none =>
    have last : 2 ^ 64 - 16 < size := by
      have := sizeToClass_none found
      omega
    have bytes := largeBytes_last last top
    have page : (largeBytes (BitVec.ofNat 64 size)).toNat = 1 * 4096 := by
      rw [bytes]
      decide
    have path : Mm.kmalloc size = kmallocBlock size := by
      rw [kmalloc_of_large (by omega), found]
    have outcome := kmallocBlock_outcome inv page (by decide) room
    rw [← path, kmallocLarge_congr bytes] at outcome
    obtain ⟨p, h', ran, some_, made⟩ := kmalloc_met outcome block
    exact ⟨p, h', ran, some_, made.not_delivers some_ (by dsimp only; omega)⟩

/-- The small machine has the memory for a slab and for a large block of one page. -/
theorem givesShort_small (top : size < 2 ^ 64) (lost : ¬ SizeKept size) :
    GivesShort (freshHeap smallMachine) size := by
  have slab : resultValue (slabAllocPage (freshHeap smallMachine).mm) =
      some (some 0xFFFFFFFF80200000#64) := by decide +kernel
  have block : resultValue (kmallocLarge 2000#64 (freshHeap smallMachine).mm) =
      some (some 0xFFFFFFFF80200010#64) := by decide +kernel
  exact givesShort smallHeap_inv (by decide) slab block top lost

/-- **kmalloc delivers what was asked**, exactly for the sizes that survive the conversion to
`uint32_t` and the round-up to pages: in every heap whose kernel addresses are not used up, a
pointer from `kmalloc`, `kzalloc` or `krealloc` is to a block of at least `size` bytes. -/
theorem heap_delivers_iff (top : size < 2 ^ 64) :
    (∀ K roots h G, HeapInv K roots h G → Ahead h → Roomy h size → AllDeliver h G size) ↔
      SizeKept size := by
  constructor
  · intro all
    by_contra lost
    obtain ⟨p, h', ran, some_, short⟩ := givesShort_small top lost
    have roomy : Roomy (freshHeap smallMachine) size := by
      intro small
      unfold SizeKept at lost
      omega
    have ahead := smallMachine_booted.ahead (smallMachine_booted.heapBase_le (by decide))
    exact short ((all _ _ _ _ smallHeap_inv ahead roomy).kmalloc p h' ran some_)
  · intro kept K roots h G inv ahead roomy
    by_cases small : size < 2 ^ 32
    · exact allDeliver_small inv small roomy
    · have beyond : 1024 < size % 2 ^ 32 ∧ size ≤ 2 ^ 64 - 16 := kept.resolve_left (by omega)
      exact allDeliver_beyond inv ahead (by omega) beyond.1 beyond.2

theorem heap_delivers_iff_page : SizeKept 4096 ∧
    AllDeliver (freshHeap smallMachine) ⟨fun _ => [], [], fun _ => none⟩ 4096 := by
  have kept : SizeKept 4096 := .inr (by decide)
  refine ⟨kept, (heap_delivers_iff (by decide)).mpr kept _ _ _ _ smallHeap_inv ?_ ?_⟩
  · exact smallMachine_booted.ahead (smallMachine_booted.heapBase_le (by decide))
  · exact fun _ => by decide

/-- A request for 4 GiB gets an object of 16 bytes. -/
theorem kmalloc_of_4gib_short : HeapInv smallTables [] (freshHeap smallMachine)
    ⟨fun _ => [], [], fun _ => none⟩ ∧ GivesShort (freshHeap smallMachine) (2 ^ 32) :=
  ⟨smallHeap_inv, givesShort_small (by decide) (by unfold SizeKept; decide)⟩

end LithiumKernel.Mm
