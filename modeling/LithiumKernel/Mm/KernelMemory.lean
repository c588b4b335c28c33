import LithiumKernel.Lib.ByteMem
import LithiumKernel.Mm.Heap

/-!
# Kernel accesses to heap memory

The kernel reads and writes its heap through the page tables of whatever root is loaded.
`heapView` is the memory it sees there, as bytes. The frames behind two heap pages are never
the same (`HeapPages`), so a store changes one byte of the view, mapping a page changes the
bytes of that page only, and so does unmapping it. An access to an unmapped page stops the
kernel, as does a failed `KASSERT`; `HeapHalt` names the reasons.
-/
namespace LithiumKernel.Mm

open LithiumKernel.Lib LithiumKernel.Lib.Forest

/-! ## The heap's state and its accesses -/

inductive HeapHalt where
  | kassert (e : Kassert)
  | pageFault (addr : Nat)
  | belowHeader
  | canary
  | endlessList
  deriving DecidableEq, Repr

/-- Memory and the heads of the slab lists, one for each size class; 0 is `NULL`. -/
structure HeapState where
  mm : MemState
  slabHeads : Fin 7 → Nat

abbrev HeapM := EStateM HeapHalt HeapState

/-- A function of the frame pool or the page tables, called from the heap. -/
def onMm {α : Type} (m : MmM α) : HeapM α := fun h =>
  match m h.mm with
  | .ok a s => .ok a { h with mm := s }
  | .error e s => .error (.kassert e) { h with mm := s }

def kloadByte (a : Nat) : HeapM Byte := fun h =>
  match vmmGetPhysical h.mm.mem h.mm.cr3 (BitVec.ofNat 64 a) with
  | none => .error (.pageFault a) h
  | some phys => .ok (getByte (h.mm.mem (phys.toNat / pmmFrameSize)) (phys.toNat % pmmFrameSize)) h

def kstoreByte (a : Nat) (b : Byte) : HeapM Unit := do
  let h ← get
  match vmmGetPhysical h.mm.mem h.mm.cr3 (BitVec.ofNat 64 a) with
  | none => throw (.pageFault a)
  | some phys => onMm (writeByte phys b)

/-- A load of an unsigned integer of `n` bytes. -/
def kload : Nat → Nat → HeapM Nat
  | 0, _ => pure 0
  | n + 1, a => do
    let low ← kloadByte a
    let high ← kload n (a + 1)
    pure (low.toNat + 256 * high)

/-- A store of an unsigned integer of `n` bytes. -/
def kstore : Nat → Nat → Nat → HeapM Unit
  | 0, _, _ => pure ()
  | n + 1, a, x => do
    kstoreByte a (BitVec.ofNat 8 x)
    kstore n (a + 1) (x / 256)

/-- `memset` of lib/string.c. -/
def memset (dst : Nat) (c : Byte) : Nat → HeapM Unit
  | 0 => pure ()
  | n + 1 => do
    kstoreByte dst c
    memset (dst + 1) c n

/-- `memcpy` of lib/string.c. -/
def memcpy (dst src : Nat) : Nat → HeapM Unit
  | 0 => pure ()
  | n + 1 => do
    kstoreByte dst (← kloadByte src)
    memcpy (dst + 1) (src + 1) n

theorem wp_onMm {α : Type} (m : MmM α) (post : α → HeapState → Prop)
    (halt : HeapHalt → HeapState → Prop) (h : HeapState) :
    wp (onMm m) post halt h ↔ wp m (fun a s => post a { h with mm := s })
      (fun e s => halt (.kassert e) { h with mm := s }) h.mm := by
  unfold wp onMm
  cases m h.mm <;> rfl

/-! ## What the kernel sees -/

/-- The memory of the heap, as the loaded root maps it. -/
def heapView (s : MemState) : ByteMem := fun a =>
  if heapBase.toNat ≤ a ∧ a < 2 ^ 64 then
    (vmmGetPhysical s.mem s.cr3 (BitVec.ofNat 64 a)).map fun phys =>
      getByte (s.mem (phys.toNat / pmmFrameSize)) (phys.toNat % pmmFrameSize)
  else none

/-- No frame is mapped at two heap pages. -/
structure HeapPages (K : KernelTables) (roots : List Nat) (s : MemState) (g : SpaceGhost) : Prop
    extends System K roots s g where
  sole : ∀ {v w : Word}, heapBase ≤ v → heapBase ≤ w → g.leaf (.kernel, pagePath v) ≠ 0#64 →
    g.leaf (.kernel, pagePath w) ≠ 0#64 →
    frameOf (g.leaf (.kernel, pagePath v)) = frameOf (g.leaf (.kernel, pagePath w)) →
    pagePath v = pagePath w

def Paged (K : KernelTables) (roots : List Nat) (s : MemState) : Prop :=
  ∃ g, HeapPages K roots s g

variable {K : KernelTables} {roots : List Nat} {s s' : MemState} {g g' : SpaceGhost}

theorem heapBase_toNat : heapBase.toNat = 0xFFFFFFFF80200000 := by decide

/-- Heap addresses with the same indices are on the same page. -/
theorem pagePath_heap {v w : Word} (v_above : heapBase ≤ v) (w_above : heapBase ≤ w) :
    pagePath v = pagePath w ↔ v.toNat / 4096 = w.toNat / 4096 := by
  have v_low : 0xFFFFFFFF80200000 ≤ v.toNat := v_above
  have w_low : 0xFFFFFFFF80200000 ≤ w.toNat := w_above
  have v_high := v.isLt
  have w_high := w.isLt
  simp only [pagePath, List.cons.injEq, and_true, Fin.ext_iff, pml4Idx, pdptIdx, pdIdx, ptIdx,
    idxOf_shift_val]
  omega

theorem ofNat_above {a : Nat} (low : heapBase.toNat ≤ a) (high : a < 2 ^ 64) :
    heapBase ≤ BitVec.ofNat 64 a ∧ (BitVec.ofNat 64 a).toNat = a := by
  have value : (BitVec.ofNat 64 a).toNat = a := by
    rw [BitVec.toNat_ofNat, Nat.mod_eq_of_lt high]
  exact ⟨by rw [BitVec.le_def, value]; exact low, value⟩

/-- The view in terms of the leaves of the kernel's tables. -/
theorem System.heapView_eq (h : System K roots s g) {a : Nat} (low : heapBase.toNat ≤ a)
    (high : a < 2 ^ 64) :
    heapView s a = if g.leaf (.kernel, pagePath (BitVec.ofNat 64 a)) = 0#64 then none
      else some (getByte (s.mem (frameOf (g.leaf (.kernel, pagePath (BitVec.ofNat 64 a)))))
        (a % 4096)) := by
  obtain ⟨above, value⟩ := ofNat_above low high
  rw [heapView, if_pos ⟨low, high⟩, h.heapPhysical above]
  split
  · rfl
  · rw [Option.map_some, phys_frame, phys_offset, value]

theorem heapView_range {a : Nat} (here : (heapView s a).isSome = true) :
    heapBase.toNat ≤ a ∧ a < 2 ^ 64 := by
  by_contra out
  rw [heapView, if_neg out] at here
  cases here

/-- A heap page keeps its bytes when its leaf and its frame are as before. -/
theorem System.heapView_same (h : System K roots s g) (h' : System K roots s' g') {a : Nat}
    (leaf : ∀ v : Word, heapBase ≤ v → v.toNat = a →
      g'.leaf (.kernel, pagePath v) = g.leaf (.kernel, pagePath v))
    (mem : ∀ v : Word, heapBase ≤ v → v.toNat = a → g.leaf (.kernel, pagePath v) ≠ 0#64 →
      s'.mem (frameOf (g.leaf (.kernel, pagePath v))) =
        s.mem (frameOf (g.leaf (.kernel, pagePath v)))) :
    heapView s' a = heapView s a := by
  by_cases range : heapBase.toNat ≤ a ∧ a < 2 ^ 64
  · obtain ⟨above, value⟩ := ofNat_above range.1 range.2
    rw [h.heapView_eq range.1 range.2, h'.heapView_eq range.1 range.2, leaf _ above value]
    split
    · rfl
    · rw [mem _ above value ‹_›]
  · rw [heapView, if_neg range, heapView, if_neg range]

/-! ## Loads and stores -/

/-- What a store leaves: the view has changed as said, and nothing else. -/
structure Stored (K : KernelTables) (roots : List Nat) (h : HeapState) (view : ByteMem)
    (h' : HeapState) : Prop where
  pages : Paged K roots h'.mm
  view : heapView h'.mm = view
  heads : h'.slabHeads = h.slabHeads
  next : h'.mm.kheapNext = h.mm.kheapNext

section Accesses

variable {h : HeapState} {halt : HeapHalt → HeapState → Prop}

theorem kloadByte_spec {a : Nat} {b : Byte} (here : heapView h.mm a = some b) :
    wp (kloadByte a) (fun x h' => x = b ∧ h' = h) halt h := by
  have range := heapView_range (by rw [here]; rfl : (heapView h.mm a).isSome = true)
  rw [heapView, if_pos range] at here
  obtain ⟨phys, found, value⟩ := Option.map_eq_some_iff.mp here
  simp only [wp, kloadByte, found]
  exact ⟨value, trivial⟩

theorem kstoreByte_spec {a : Nat} (b : Byte) (pages : Paged K roots h.mm)
    (here : (heapView h.mm a).isSome = true) :
    wp (kstoreByte a b) (fun _ h' =>
      Stored K roots h (Function.update (heapView h.mm) a (some b)) h') halt h := by
  obtain ⟨g, now⟩ := pages
  obtain ⟨low, high⟩ := heapView_range here
  obtain ⟨above, value⟩ := ofNat_above low high
  have filled : g.leaf (.kernel, pagePath (BitVec.ofNat 64 a)) ≠ 0#64 := by
    intro empty
    rw [now.heapView_eq low high, if_pos empty] at here
    cases here
  obtain ⟨_, _, data, _⟩ := now.vm.leaf_facts filled
  unfold kstoreByte
  rw [wp_bind, wp_get]
  rw [now.heapPhysical above, if_neg filled]
  dsimp only
  rw [wp_onMm, wp_writeByte]
  have after := now.toSystem.scribble data (now.apart _ filled)
    (setByte (h.mm.mem (frameOf (g.leaf (.kernel, pagePath (BitVec.ofNat 64 a))))) (a % 4096) b)
  refine ⟨⟨g, ?_⟩, ?_, rfl, rfl⟩
  · rw [written, value]
    exact ⟨after, now.sole⟩
  · funext a'
    rw [written, value]
    by_cases range : heapBase.toNat ≤ a' ∧ a' < 2 ^ 64
    · obtain ⟨above', value'⟩ := ofNat_above range.1 range.2
      rw [after.heapView_eq range.1 range.2]
      by_cases empty : g.leaf (.kernel, pagePath (BitVec.ofNat 64 a')) = 0#64
      · have ne : a' ≠ a := by
          rintro rfl
          exact filled empty
        rw [if_pos empty, Function.update_of_ne ne, now.heapView_eq range.1 range.2, if_pos empty]
      rw [if_neg empty]
      by_cases frame : frameOf (g.leaf (.kernel, pagePath (BitVec.ofNat 64 a'))) =
          frameOf (g.leaf (.kernel, pagePath (BitVec.ofNat 64 a)))
      · have page := (pagePath_heap above' above).mp (now.sole above' above empty filled frame)
        rw [value, value'] at page
        rw [frame]
        dsimp only
        rw [Function.update_self, getByte_setByte]
        by_cases same : a' = a
        · subst same
          rw [if_pos rfl, Function.update_self]
        · rw [if_neg (by omega), Function.update_of_ne same, now.heapView_eq range.1 range.2,
            if_neg empty, frame]
      · have ne : a' ≠ a := by
          rintro rfl
          exact frame rfl
        rw [Function.update_of_ne ne, now.heapView_eq range.1 range.2, if_neg empty]
        dsimp only
        rw [Function.update_of_ne frame]
    · have ne : a' ≠ a := by
        rintro rfl
        exact range ⟨low, high⟩
      rw [Function.update_of_ne ne, heapView, if_neg range, heapView, if_neg range]

theorem kload_spec {n a x : Nat} (field : (heapView h.mm).Field n a x) :
    wp (kload n a) (fun y h' => y = x ∧ h' = h) halt h := by
  induction n generalizing a x with
  | zero => exact ⟨Eq.symm field, rfl⟩
  | succ n ih =>
    rw [kload]
    refine wp_seq (kloadByte_spec field.1) ?_
    rintro low h' ⟨rfl, rfl⟩
    refine wp_seq (ih field.2) ?_
    rintro high h' ⟨rfl, rfl⟩
    refine ⟨?_, rfl⟩
    rw [BitVec.toNat_ofNat]
    omega

/-- A load whose value is known, before the rest of a computation. -/
theorem wp_kload {β : Type} {k : Nat → HeapM β} {post : β → HeapState → Prop} {n a x : Nat}
    (field : (heapView h.mm).Field n a x) (rest : wp (k x) post halt h) :
    wp (kload n a >>= k) post halt h := by
  refine wp_seq (kload_spec field) ?_
  rintro y h' ⟨rfl, rfl⟩
  exact rest

theorem Stored.trans {h' h'' : HeapState} {view view' : ByteMem} (first : Stored K roots h view h')
    (second : Stored K roots h' view' h'') : Stored K roots h view' h'' :=
  ⟨second.pages, second.view, second.heads.trans first.heads, second.next.trans first.next⟩

theorem kstore_spec {n a x : Nat} (pages : Paged K roots h.mm)
    (here : (heapView h.mm).Mapped a n) :
    wp (kstore n a x) (fun _ h' => Stored K roots h ((heapView h.mm).put n a x) h') halt h := by
  induction n generalizing a x h with
  | zero => exact ⟨pages, rfl, rfl, rfl⟩
  | succ n ih =>
    rw [kstore]
    refine wp_seq (kstoreByte_spec _ pages (here a (le_refl _) (by omega))) ?_
    intro _ h' stored
    have mapped : (heapView h'.mm).Mapped (a + 1) n := by
      rw [stored.view]
      intro b ge lt
      rw [Function.update_of_ne (by omega)]
      exact here b (by omega) (by omega)
    refine wp_imp (ih stored.pages mapped) ?_
    intro _ h'' rest
    rw [stored.view] at rest
    exact stored.trans rest

theorem memset_spec {dst n : Nat} (c : Byte) (pages : Paged K roots h.mm)
    (here : (heapView h.mm).Mapped dst n) :
    wp (memset dst c n) (fun _ h' => Stored K roots h ((heapView h.mm).fill dst n c) h') halt h := by
  induction n generalizing dst h with
  | zero =>
    refine ⟨pages, ?_, rfl, rfl⟩
    funext b
    rw [ByteMem.fill, if_neg (by omega)]
  | succ n ih =>
    rw [memset]
    refine wp_seq (kstoreByte_spec _ pages (here dst (le_refl _) (by omega))) ?_
    intro _ h' stored
    have mapped : (heapView h'.mm).Mapped (dst + 1) n := by
      rw [stored.view]
      intro b ge lt
      rw [Function.update_of_ne (by omega)]
      exact here b (by omega) (by omega)
    refine wp_imp (ih stored.pages mapped) ?_
    intro _ h'' rest
    rw [stored.view, ByteMem.fill_succ] at rest
    exact stored.trans rest

theorem memcpy_spec {dst src n : Nat} (pages : Paged K roots h.mm)
    (target : (heapView h.mm).Mapped dst n) (source : (heapView h.mm).Mapped src n)
    (apart : src + n ≤ dst ∨ dst + n ≤ src) :
    wp (memcpy dst src n) (fun _ h' => Stored K roots h ((heapView h.mm).copy dst src n) h')
      halt h := by
  induction n generalizing dst src h with
  | zero =>
    refine ⟨pages, ?_, rfl, rfl⟩
    funext b
    rw [ByteMem.copy, if_neg (by omega)]
  | succ n ih =>
    obtain ⟨byte, found⟩ := Option.isSome_iff_exists.mp (source src (le_refl _) (by omega))
    rw [memcpy]
    refine wp_seq (kloadByte_spec found) ?_
    intro _ h₁ loaded
    rw [loaded.1, loaded.2]
    refine wp_seq (kstoreByte_spec _ pages (target dst (le_refl _) (by omega))) ?_
    intro _ h' stored
    have keep : ∀ {p}, (heapView h.mm).Mapped p (n + 1) → (heapView h'.mm).Mapped (p + 1) n := by
      intro p mapped b ge lt
      rw [stored.view]
      by_cases first : b = dst
      · rw [first, Function.update_self]
        rfl
      · rw [Function.update_of_ne first]
        exact mapped b (by omega) (by omega)
    refine wp_imp (ih stored.pages (keep target) (keep source) (by omega)) ?_
    intro _ h'' rest
    rw [stored.view, ← found, ByteMem.copy_succ apart] at rest
    exact stored.trans rest

end Accesses

/-! ## Pages -/

/-- A frame from the pool is at no other heap page. -/
theorem HeapPages.fresh (now : HeapPages K roots s g) {v : Word} {flags : Word} {page : Page}
    {done : Bool} (result : FreshResult K.pdptHh s g (.kernel, pagePath v) flags page done s' g') :
    HeapPages K roots s' g' := by
  refine ⟨now.toSystem.keep result.toGrow.keep (now.toSpaces.fresh result), ?_⟩
  have effect := result.effect
  cases done with
  | false =>
    intro u w u_above w_above
    rw [effect.1]
    exact now.sole u_above w_above
  | true =>
    obtain ⟨f, lt, zero, _, leaf, _⟩ := effect
    have other : ∀ {x}, g.leaf x ≠ 0#64 → frameOf (g.leaf x) ≠ f := fun filled =>
      now.vm.wf.target_ne (now.vm.wf.unused lt zero).2.1 filled
    have frame := leafEntry_frame (now.vm.frame_small lt) flags
    intro u w u_above w_above
    rw [leaf]
    by_cases first : pagePath u = pagePath v
    · by_cases second : pagePath w = pagePath v
      · rw [first, second]
        exact fun _ _ _ => rfl
      · rw [first, Function.update_self, Function.update_of_ne (by simp [second]), frame]
        exact fun _ filled same => absurd same.symm (other filled)
    · by_cases second : pagePath w = pagePath v
      · rw [second, Function.update_self, Function.update_of_ne (by simp [first]), frame]
        exact fun filled _ same => absurd same (other filled)
      · rw [Function.update_of_ne (by simp [first]), Function.update_of_ne (by simp [second])]
        exact now.sole u_above w_above

theorem HeapPages.unmapped (now : HeapPages K roots s g) {x : List Idx}
    (gone : Unmapped K.pdptHh (.kernel, x) s g s' g') : HeapPages K roots s' g' := by
  refine ⟨now.toSystem.keep gone.toKeep (now.toSpaces.unmapped gone), ?_⟩
  intro u w u_above w_above
  rw [gone.leaf]
  by_cases first : pagePath u = x
  · rw [first, Function.update_self]
    exact fun no => absurd rfl no
  · by_cases second : pagePath w = x
    · rw [second, Function.update_self]
      exact fun _ no => absurd rfl no
    · rw [Function.update_of_ne (by simp [first]), Function.update_of_ne (by simp [second])]
      exact now.sole u_above w_above

theorem HeapPages.reserve (now : HeapPages K roots s g) {w : Word} (above : heapBase ≤ w) :
    HeapPages K roots { s with kheapNext := w } g :=
  ⟨now.toSystem.reserve above, now.sole⟩

theorem heapView_reserve (w : Word) : heapView { s with kheapNext := w } = heapView s :=
  rfl

/-- What may have changed when a page of the heap was mapped or unmapped. -/
structure PageChange (K : KernelTables) (roots : List Nat) (page : Nat) (s s' : MemState) : Prop where
  pages : Paged K roots s'
  next : s'.kheapNext = s.kheapNext
  elsewhere : ∀ a, a / 4096 ≠ page → heapView s' a = heapView s a

theorem PageChange.refl (pages : Paged K roots s) (page : Nat) : PageChange K roots page s s :=
  ⟨pages, rfl, fun _ _ => rfl⟩

theorem HeapPages.mapped (now : HeapPages K roots s g) {v : Word} {flags : Word} {page : Page}
    {done : Bool} (above : heapBase ≤ v)
    (result : FreshResult K.pdptHh s g (.kernel, pagePath v) flags page done s' g') :
    PageChange K roots (v.toNat / 4096) s s' ∧
      (done = true → ∀ a, a / 4096 = v.toNat / 4096 → (heapView s' a).isSome = true) := by
  have after := now.fresh result
  have effect := result.effect
  refine ⟨⟨⟨g', after⟩, result.heap, ?_⟩, ?_⟩
  · intro a off
    refine now.heapView_same after.toSystem ?_ ?_
    · intro w w_above value
      have ne : pagePath w ≠ pagePath v := by
        rw [ne_eq, pagePath_heap w_above above, value]
        exact off
      cases done with
      | false => rw [effect.1]
      | true =>
        obtain ⟨_, _, _, _, leaf, _⟩ := effect
        rw [leaf, Function.update_of_ne (by simp [ne])]
    · intro w _ _ filled
      obtain ⟨_, _, data, pos⟩ := now.vm.leaf_facts filled
      exact (result.data data pos).2.2
  · rintro rfl a here
    obtain ⟨f, lt, _, _, leaf, _⟩ := effect
    have low : 0xFFFFFFFF80200000 ≤ v.toNat := above
    have high := v.isLt
    have range : heapBase.toNat ≤ a ∧ a < 2 ^ 64 := by
      rw [heapBase_toNat]
      omega
    obtain ⟨a_above, value⟩ := ofNat_above range.1 range.2
    have path : pagePath (BitVec.ofNat 64 a) = pagePath v := by
      rw [pagePath_heap a_above above, value]
      exact here
    have filled : leafEntry (frameAddr f) flags ≠ 0#64 := by
      refine ne_zero_of_bit (k := 0) ?_
      rw [leafEntry_low f flags (by decide)]
      simp
    rw [after.heapView_eq range.1 range.2, path, leaf, Function.update_self, if_neg filled]
    rfl

theorem mapKernelPage_view {v : Word} (above : heapBase ≤ v) (pages : Paged K roots s) :
    wp (mapKernelPage v) (fun done s' => PageChange K roots (v.toNat / 4096) s s' ∧
      (done = true → ∀ a, a / 4096 = v.toNat / 4096 → (heapView s' a).isSome = true))
      Saturated s := by
  obtain ⟨g, now⟩ := pages
  unfold mapKernelPage
  rw [wp_bind]
  apply allocFrame_spec now.vm
  · intro _
    exact ⟨.refl ⟨g, now⟩ _, fun no => by cases no⟩
  · intro f q lt zero evolves counts _
    refine wp_imp (now.mapOrFree_fresh above lt zero evolves counts) ?_
    rintro done s' ⟨g', result⟩
    exact now.mapped above result

theorem unmapKernelPage_view {v : Word} (above : heapBase ≤ v) (aligned : v.toNat % 4096 = 0)
    (pages : Paged K roots s) :
    wp (unmapKernelPage v) (fun _ s' => PageChange K roots (v.toNat / 4096) s s') Saturated s := by
  obtain ⟨g, now⟩ := pages
  refine wp_imp (now.unmapKernelPage_spec above aligned) ?_
  rintro _ s' (⟨rfl, _⟩ | ⟨g', gone⟩)
  · exact .refl ⟨g, now⟩ _
  have after := now.unmapped gone
  refine ⟨⟨g', after⟩, gone.heap, ?_⟩
  intro a off
  refine now.heapView_same after.toSystem ?_ ?_
  · intro w w_above value
    have ne : pagePath w ≠ pagePath v := by
      rw [ne_eq, pagePath_heap w_above above, value]
      exact off
    rw [gone.leaf, Function.update_of_ne (by simp [ne])]
  · intro w _ _ filled
    obtain ⟨_, _, data, pos⟩ := now.vm.leaf_facts filled
    exact (gone.data data pos).2

/-- The heap has grown: below its old end nothing has changed. -/
structure Extended (K : KernelTables) (roots : List Nat) (s s' : MemState) : Prop where
  pages : Paged K roots s'
  next : s.kheapNext.toNat ≤ s'.kheapNext.toNat
  aligned : s'.kheapNext.toNat % 4096 = 0
  below : ∀ a, a < s.kheapNext.toNat → heapView s' a = heapView s a

theorem alignUp_pageSize : (alignUp pageSize pageSize).toNat = 4096 := by decide

/-- The mapping part of `slab_alloc_page`. -/
theorem slabAllocPage_view (pages : Paged K roots s) (aligned : s.kheapNext.toNat % 4096 = 0)
    (room : s.kheapNext.toNat + 4096 < 2 ^ 64) :
    wp slabAllocPage (fun result s' => Extended K roots s s' ∧ ∀ v, result = some v →
      v = s.kheapNext ∧ s'.kheapNext.toNat = s.kheapNext.toNat + 4096 ∧
        (heapView s').Mapped s.kheapNext.toNat 4096) Saturated s := by
  obtain ⟨g, now⟩ := pages
  unfold slabAllocPage
  rw [wp_bind]
  apply allocFrame_spec now.vm
  · intro _
    exact ⟨⟨⟨g, now⟩, le_refl _, aligned, fun _ _ => rfl⟩, fun _ no => by cases no⟩
  · intro f q lt zero evolves counts _
    have next := now.reserve (heap_next pageSize now.heap (by rwa [alignUp_pageSize]))
    have sum : (s.kheapNext + alignUp pageSize pageSize).toNat = s.kheapNext.toNat + 4096 := by
      rw [BitVec.toNat_add, alignUp_pageSize, Nat.mod_eq_of_lt room]
    simp only [vmmAllocKernel, wp_bind, wp_get, wp_modify, wp_pure]
    refine wp_imp (next.mapOrFree_fresh now.heap lt zero evolves counts) ?_
    rintro done s' ⟨g', result⟩
    obtain ⟨change_, filled⟩ := next.mapped now.heap result
    have grown : s'.kheapNext.toNat = s.kheapNext.toNat + 4096 := by
      rw [change_.next]
      exact sum
    have extended : Extended K roots s s' := by
      refine ⟨change_.pages, by omega, by omega, ?_⟩
      intro a lt
      rw [change_.elsewhere a (by omega), heapView_reserve]
    cases done with
    | false => exact ⟨extended, fun _ no => by cases no⟩
    | true =>
      refine ⟨extended, ?_⟩
      rintro v same
      refine ⟨(Option.some.inj same).symm, grown, ?_⟩
      intro b ge lt
      exact filled rfl b (by omega)

theorem lt_of_other_page {n i b : Nat} (aligned : n % 4096 = 0) (lt : b < n + (i + 1) * 4096)
    (other : b / 4096 ≠ (n + i * 4096) / 4096) : b < n + i * 4096 := by
  by_contra ge
  apply other
  omega

/-- The mapping part of the large path of `kmalloc`. -/
theorem kmallocLarge_view {size : Word} (pages : Paged K roots s)
    (aligned : s.kheapNext.toNat % 4096 = 0)
    (room : s.kheapNext.toNat + (largeBytes size).toNat < 2 ^ 64) :
    wp (kmallocLarge size) (fun result s' => Extended K roots s s' ∧ ∀ p, result = some p →
      p = s.kheapNext + 16#64 ∧
        s'.kheapNext.toNat = s.kheapNext.toNat + (largeBytes size).toNat ∧
        (heapView s').Mapped s.kheapNext.toNat (largeBytes size).toNat) Saturated s := by
  obtain ⟨g, now⟩ := pages
  have value := alignUp_page_toNat (size + 16#64)
  have twice := alignUp_page_toNat (largeBytes size)
  have same : (alignUp (largeBytes size) pageSize).toNat = (largeBytes size).toNat := by
    rw [twice, largeBytes, value]
    omega
  have whole : (largeBytes size).toNat % 4096 = 0 := by
    rw [largeBytes, value]
    omega
  have next := now.reserve (heap_next (largeBytes size) now.heap (by rwa [same]))
  have low : 0xFFFFFFFF80200000 ≤ s.kheapNext.toNat := now.heap
  have sum : (s.kheapNext + alignUp (largeBytes size) pageSize).toNat =
      s.kheapNext.toNat + (largeBytes size).toNat := by
    rw [BitVec.toNat_add, same, Nat.mod_eq_of_lt room]
  -- the pages mapped so far, of the range that has been reserved
  let inv : List Nat → MemState → Prop := fun done s' =>
    Paged K roots s' ∧ s'.kheapNext.toNat = s.kheapNext.toNat + (largeBytes size).toNat ∧
      (∀ a, a < s.kheapNext.toNat → heapView s' a = heapView s a) ∧
      (heapView s').Mapped s.kheapNext.toNat (done.length * 4096)
  unfold kmallocLarge
  simp only [vmmAllocKernel, wp_bind, wp_get, wp_modify, wp_pure]
  refine wp_imp (wp_allM inv (Extended K roots s) _ ?_
    ⟨⟨g, next⟩, sum, fun _ _ => rfl, fun b ge lt => by simp at lt; omega⟩) ?_
  · rintro done i rest s₁ split ⟨paged, grown, below, mapped⟩
    have here : i = done.length := by
      have entry : (List.range ((largeBytes size).toNat / 4096))[done.length]? = some i := by
        rw [split, List.getElem?_append_right (le_refl _), Nat.sub_self]
        rfl
      have lt := (List.getElem?_eq_some_iff.mp entry).1
      rw [List.length_range] at lt
      rw [List.getElem?_range lt] at entry
      exact (Option.some.inj entry).symm
    have count := congrArg List.length split
    rw [List.length_range, List.length_append, List.length_cons] at count
    have place : (s.kheapNext + BitVec.ofNat 64 (i * 4096)).toNat =
        s.kheapNext.toNat + i * 4096 := by
      rw [BitVec.toNat_add, BitVec.toNat_ofNat]
      omega
    refine wp_imp (mapKernelPage_view ?_ paged) ?_
    · rw [BitVec.le_def, place, heapBase_toNat]
      omega
    · rintro ok s₂ ⟨change_, filled⟩
      rw [place] at change_ filled
      have kept : ∀ a, a < s.kheapNext.toNat → heapView s₂ a = heapView s a := by
        intro a lt
        rw [change_.elsewhere a (by omega), below a lt]
      have end_ : s₂.kheapNext.toNat = s.kheapNext.toNat + (largeBytes size).toNat := by
        rw [change_.next, grown]
      cases ok with
      | false => exact ⟨change_.pages, by omega, by omega, kept⟩
      | true =>
        refine ⟨change_.pages, end_, kept, ?_⟩
        intro b ge lt
        rw [List.length_append, List.length_singleton] at lt
        by_cases page : b / 4096 = (s.kheapNext.toNat + i * 4096) / 4096
        · exact filled rfl b page
        · rw [change_.elsewhere b page]
          exact mapped b ge (lt_of_other_page aligned lt (by rwa [here] at page))
  · intro mapped s' after
    cases mapped with
    | false => exact ⟨after, fun _ no => by cases no⟩
    | true =>
      obtain ⟨paged, grown, below, all⟩ := after
      refine ⟨⟨paged, by omega, by omega, below⟩, ?_⟩
      intro p eq
      refine ⟨(Option.some.inj eq).symm, grown, ?_⟩
      rw [List.length_range] at all
      exact all.sub (le_refl _) (by omega)

/-- The large path of `kfree` changes the view of the block's own pages only. -/
theorem kfreeLarge_view {v : Word} {count : Nat} (above : heapBase ≤ v)
    (aligned : v.toNat % 4096 = 0) (room : v.toNat + count * 4096 ≤ 2 ^ 64)
    (pages : Paged K roots s) :
    wp (kfreeLarge v count) (fun _ s' => Paged K roots s' ∧ s'.kheapNext = s.kheapNext ∧
      ∀ a, a < v.toNat ∨ v.toNat + count * 4096 ≤ a → heapView s' a = heapView s a)
      Saturated s := by
  refine wp_forM_inv (fun s' => Paged K roots s' ∧ s'.kheapNext = s.kheapNext ∧
    ∀ a, a < v.toNat ∨ v.toNat + count * 4096 ≤ a → heapView s' a = heapView s a) ?_
    ⟨pages, rfl, fun _ _ => rfl⟩
  rintro i member s₁ ⟨paged, next, outside⟩
  have lt := List.mem_range.mp member
  have value : (v + BitVec.ofNat 64 (i * 4096)).toNat = v.toNat + i * 4096 := by
    rw [BitVec.toNat_add, BitVec.toNat_ofNat]
    omega
  refine wp_imp (unmapKernelPage_view ?_ (by rw [value]; omega) paged) ?_
  · rw [BitVec.le_def] at above ⊢
    omega
  · intro _ s₂ change_
    rw [value] at change_
    refine ⟨change_.pages, change_.next.trans next, ?_⟩
    intro a off
    rw [change_.elsewhere a (by omega), outside a off]

end LithiumKernel.Mm
