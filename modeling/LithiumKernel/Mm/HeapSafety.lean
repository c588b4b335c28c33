import LithiumKernel.Mm.HeapRun

/-!
# The blocks of the kernel heap

A run of heap calls together with the blocks that are in use: those a call has returned and
no call has taken back. `blockFor` says what a request gets, from its size alone, so the
blocks are known without a look at the heap's own records.
-/
namespace LithiumKernel.Mm

open LithiumKernel.Lib

structure HeapSystem where
  heap : HeapState
  live : List Block

/-- The blocks in use after a call that returned `p`. -/
def blocksAfter (live : List Block) : HeapOp → Nat → List Block
  | .kmalloc size, p => if p = 0 then live else blockFor size p :: live
  | .kzalloc size, p => if p = 0 then live else blockFor size p :: live
  | .krealloc ptr size, p =>
    if ptr = 0 then if p = 0 then live else blockFor size p :: live
    else if size = 0 then live.filter (·.addr ≠ ptr)
    else if p = 0 ∨ p = ptr then live
    else blockFor size p :: live.filter (·.addr ≠ ptr)
  | .kfree ptr, _ => live.filter (·.addr ≠ ptr)
  | .write _ _, _ => live

/-- `NULL` or a block in use. -/
def Given (st : HeapSystem) (ptr : Nat) : Prop := ptr = 0 ∨ ∃ b ∈ st.live, b.addr = ptr

/-- A request of less than 4 GiB for which there are addresses left. -/
def Fits (st : HeapSystem) (size : Nat) : Prop :=
  size < 2 ^ 32 ∧ st.heap.mm.kheapNext.toNat + heapNeed size < 2 ^ 64

/-- Only blocks in use are freed, resized or written to. -/
def HeapAllowed (st : HeapSystem) : HeapOp → Prop
  | .kmalloc size => Fits st size
  | .kzalloc size => Fits st size
  | .krealloc ptr size => Given st ptr ∧ Fits st size
  | .kfree ptr => Given st ptr
  | .write addr _ => ∃ b ∈ st.live, b.addr ≤ addr ∧ addr < b.addr + b.cap

/-- A step is labelled with the call and what it returned. -/
structure HeapStep (st : HeapSystem) (l : HeapOp × Nat) (st' : HeapSystem) : Prop where
  allowed : HeapAllowed st l.1
  ran : heapExec l.1 st.heap = .ok l.2 st'.heap
  live : st'.live = blocksAfter st.live l.1 l.2

/-! ## What holds of every state and every step -/

def Block.Apart (b b' : Block) : Prop := b.addr + b.cap ≤ b'.addr ∨ b'.addr + b'.cap ≤ b.addr

/-- The slabs that can be reached from the head `p` of a list. -/
inductive SlabIn (m : ByteMem) : Nat → Nat → Prop where
  | here {p} : p ≠ 0 → SlabIn m p p
  | next {p q s} : p ≠ 0 → m.Field 8 (p + 24) q → SlabIn m q s → SlabIn m p s

/-- The free list of the slab at `s` holds each of its objects that is not in use once, and
`free_count` is its length. -/
def FreeListOk (st : HeapSystem) (cls : Fin 7) (s : Nat) : Prop :=
  ∃ free, FreeChain (heapView st.heap.mm) (s + 16) free ∧
    (heapView st.heap.mm).Field 2 (s + 8) free.length ∧ free.Nodup ∧
    ∀ o, o ∈ free ↔ o ∈ slabObjects cls s ∧ ∀ b ∈ st.live, b.addr ≠ o

structure HeapSafe (st : HeapSystem) : Prop where
  aligned : ∀ b ∈ st.live, b.addr % 16 = 0
  apart : st.live.Pairwise Block.Apart
  slabHeader : ∀ b ∈ st.live, ∀ cls s, SlabIn (heapView st.heap.mm) (st.heap.slabHeads cls) s →
    b.addr + b.cap ≤ s ∨ s + slabHdrSize ≤ b.addr
  largeHeader : ∀ b ∈ st.live, ∀ b' ∈ st.live, b'.slab = false →
    b.addr + b.cap ≤ b'.addr - 16 ∨ b'.addr ≤ b.addr
  freeList : ∀ cls s, SlabIn (heapView st.heap.mm) (st.heap.slabHeads cls) s → FreeListOk st cls s
  kfreePath : ∀ b ∈ st.live, kfree b.addr st.heap =
    if b.slab then kfreeSlab b.addr (slabOf b.addr) st.heap else kfreeBlock b.addr st.heap

/-- The block a step frees, moves or writes to. -/
def HeapOp.Changes (p : Nat) (b : Block) : HeapOp → Prop
  | .kmalloc _ => False
  | .kzalloc _ => False
  | .krealloc ptr size => b.addr = ptr ∧ (size = 0 ∨ p ≠ 0 ∧ p ≠ ptr)
  | .kfree ptr => b.addr = ptr
  | .write addr _ => b.addr ≤ addr ∧ addr < b.addr + b.cap

/-- No step changes a byte of another block. In particular a `krealloc` that fails leaves
the block it was given; one that succeeds has kept its bytes. -/
structure StepSafe (st : HeapSystem) (op : HeapOp) (p : Nat) (h' : HeapState) : Prop where
  others : ∀ b ∈ st.live, ¬ op.Changes p b →
    (heapView st.heap.mm).Agree (heapView h'.mm) b.addr b.cap
  resized : ∀ ptr size, op = .krealloc ptr size → p ≠ 0 → ∀ b ∈ st.live, b.addr = ptr →
    ∀ i < min b.cap size, heapView h'.mm (p + i) = heapView st.heap.mm (ptr + i)
  zeroed : ∀ size, op = .kzalloc size → p ≠ 0 → ∀ i < size, heapView h'.mm (p + i) = some 0#8

/-! ## The invariant of the run -/

variable {K : KernelTables} {roots : List Nat} {st st' : HeapSystem}

/-- The blocks in use are those the heap takes to be in use. -/
structure Tracked (K : KernelTables) (roots : List Nat) (st : HeapSystem) (G : HeapGhost) : Prop where
  inv : HeapInv K roots st.heap G
  live : ∀ b, b ∈ st.live ↔ G.Live b
  nodup : st.live.Nodup

theorem SlabChain.of_slabIn {m : ByteMem} {cls : Fin 7} {p s : Nat} (reached : SlabIn m p s) :
    ∀ {l : List Slab}, SlabChain m cls p l → ∃ S ∈ l, S.base = s := by
  induction reached with
  | here ne =>
    intro l chain
    cases chain with
    | nil => exact absurd rfl ne
    | cons _ _ _ => exact ⟨_, List.mem_cons_self, rfl⟩
  | next ne link _ ih =>
    intro l chain
    cases chain with
    | nil => exact absurd rfl ne
    | cons _ slab rest =>
      rw [link.unique slab.link] at ih
      obtain ⟨S, member, base⟩ := ih rest
      exact ⟨S, List.mem_cons_of_mem _ member, base⟩

namespace Tracked

variable {G : HeapGhost}

theorem safe (now : Tracked K roots st G) : HeapSafe st where
  aligned b member := now.inv.live_aligned ((now.live b).mp member)
  apart := by
    refine now.nodup.imp_of_mem ?_
    intro b b' here there ne
    rcases now.inv.live_apart ((now.live b).mp here) ((now.live b').mp there) with eq | apart
    · exact absurd eq ne
    · exact apart
  slabHeader := by
    intro b member cls s reached
    obtain ⟨S, slab, rfl⟩ := SlabChain.of_slabIn reached (now.inv.chain cls)
    exact now.inv.live_header ((now.live b).mp member) slab
  largeHeader := by
    intro b member b' member' large
    have live' := (now.live b').mp member'
    cases live' with
    | object => cases large
    | @large base n block =>
      have := now.inv.live_largeHeader ((now.live b).mp member) block
      dsimp only at *
      omega
  freeList := by
    intro cls s reached
    obtain ⟨S, slab, rfl⟩ := SlabChain.of_slabIn reached (now.inv.chain cls)
    obtain ⟨_, _, at_⟩ := now.inv.slab slab
    refine ⟨S.free, at_.list, at_.count, at_.nodup, ?_⟩
    intro o
    constructor
    · intro free
      exact ⟨at_.objects o free, fun b member =>
        now.inv.free_not_live slab free ((now.live b).mp member)⟩
    · rintro ⟨object, unused⟩
      by_contra used
      exact unused _ ((now.live _).mpr (.object slab object used)) rfl
  kfreePath := by
    intro b member
    have live := (now.live b).mp member
    obtain ⟨x, first, iff⟩ := now.inv.magic live
    have load : kload 4 (slabOf b.addr) st.heap = .ok x st.heap := run_of_wp (kload_spec first)
    unfold kfree
    rw [if_neg live.ne_zero]
    simp only [bind, EStateM.bind, load]
    by_cases slab : b.slab = true
    · rw [if_pos (iff.mpr slab), if_pos slab]
    · rw [if_neg (fun eq => slab (iff.mp eq)), if_neg slab]

/-- A call that allocated a block, or failed to. -/
theorem allocated (now : Tracked K roots st G) {size p : Nat} {h' : HeapState}
    (made : Allocated K roots st.heap G (blockFor size p) p h') :
    ∃ G', Tracked K roots ⟨h', if p = 0 then st.live else blockFor size p :: st.live⟩ G' := by
  obtain ⟨G', inv, place, live, _⟩ := made
  refine ⟨G', inv, ?_, ?_⟩
  · intro b
    rw [live, ← now.live]
    by_cases zero : p = 0
    · simp [zero]
    · simp [zero, or_comm]
  · by_cases zero : p = 0
    · rw [if_pos zero]
      exact now.nodup
    · rw [if_neg zero]
      refine List.nodup_cons.mpr ⟨?_, now.nodup⟩
      intro member
      have fresh := (place.resolve_left zero).2 _ ((now.live _).mp member)
      exact fresh (blockFor_addr size p)

theorem freed (now : Tracked K roots st G) {ptr : Nat} {h' : HeapState}
    (gone : Freed K roots st.heap G ptr h') :
    ∃ G', Tracked K roots ⟨h', st.live.filter (·.addr ≠ ptr)⟩ G' := by
  obtain ⟨G', inv, live, _⟩ := gone
  refine ⟨G', inv, ?_, now.nodup.filter _⟩
  intro b
  rw [live, ← now.live, List.mem_filter, decide_eq_true_iff]

/-- What has to be shown of a call. -/
def Done (K : KernelTables) (roots : List Nat) (st : HeapSystem) (op : HeapOp) (p : Nat)
    (h' : HeapState) : Prop :=
  (∃ G', Tracked K roots ⟨h', blocksAfter st.live op p⟩ G') ∧ StepSafe st op p h'

theorem kmalloc_done (now : Tracked K roots st G) {size : Nat} (fits : Fits st size) :
    wp (heapExec (.kmalloc size)) (Done K roots st (.kmalloc size)) HeapSaturated st.heap := by
  refine wp_imp (kmalloc_spec now.inv fits.1 fits.2) ?_
  intro p h' made
  have kept := made
  obtain ⟨_, _, _, _, same⟩ := kept
  exact ⟨now.allocated made, fun b member _ => same b ((now.live b).mp member), by simp, by simp⟩

theorem kzalloc_done (now : Tracked K roots st G) {size : Nat} (fits : Fits st size) :
    wp (heapExec (.kzalloc size)) (Done K roots st (.kzalloc size)) HeapSaturated st.heap := by
  refine wp_imp (kzalloc_spec now.inv fits.1 fits.2) ?_
  rintro p h' ⟨made, zero⟩
  have kept := made
  obtain ⟨_, _, _, _, same⟩ := kept
  refine ⟨now.allocated made, fun b member _ => same b ((now.live b).mp member), by simp, ?_⟩
  intro size' eq
  obtain rfl := HeapOp.kzalloc.inj eq
  exact zero

/-- `kfree(NULL)` does nothing. -/
theorem kfree_null (now : Tracked K roots st G) :
    wp (kfree 0) (fun _ h' => h' = st.heap ∧ st.live.filter (·.addr ≠ 0) = st.live)
      HeapSaturated st.heap := by
  refine ⟨rfl, List.filter_eq_self.mpr ?_⟩
  intro b member
  have := ((now.live b).mp member).ne_zero
  simpa using this

theorem kfree_done (now : Tracked K roots st G) {ptr : Nat} (given : Given st ptr) :
    wp (heapExec (.kfree ptr)) (Done K roots st (.kfree ptr)) HeapSaturated st.heap := by
  rcases given with rfl | ⟨b, member, rfl⟩
  · refine wp_seq now.kfree_null ?_
    rintro _ _ ⟨rfl, same⟩
    refine ⟨⟨G, ?_⟩, fun b _ _ => .refl _ _ _, by simp, by simp⟩
    change Tracked K roots ⟨st.heap, st.live.filter (·.addr ≠ 0)⟩ G
    rw [same]
    exact now
  · refine wp_seq (kfree_spec now.inv ((now.live b).mp member)) ?_
    intro _ h' gone
    have kept := gone
    obtain ⟨_, _, _, same⟩ := kept
    exact ⟨now.freed gone, fun b' there ne => same b' ((now.live b').mp there) ne, by simp, by simp⟩

theorem write_done (now : Tracked K roots st G) {addr : Nat} {byte : Byte}
    (inside : ∃ b ∈ st.live, b.addr ≤ addr ∧ addr < b.addr + b.cap) :
    wp (heapExec (.write addr byte)) (Done K roots st (.write addr byte)) HeapSaturated st.heap := by
  obtain ⟨b, member, low, high⟩ := inside
  have live := (now.live b).mp member
  refine wp_seq (kstoreByte_spec byte now.inv.pages (now.inv.live_mapped live addr low high)) ?_
  intro _ h' stored
  refine ⟨⟨G, now.inv.write live stored ?_ ?_, now.live, now.nodup⟩, ?_, by simp, by simp⟩
  · intro c n mapped a ge lt
    by_cases here : a = addr
    · rw [here, Function.update_self]
      rfl
    · rw [Function.update_of_ne here]
      exact mapped a ge lt
  · intro a off
    exact Function.update_of_ne (by omega) _ _
  · intro b' _ other a ge lt
    rw [stored.view]
    refine Function.update_of_ne ?_ _ _
    rintro rfl
    exact other ⟨ge, lt⟩

/-- A block is moved: the new one is allocated, filled and the old one freed. -/
theorem moved_done (now : Tracked K roots st G) {b : Block} {size p : Nat} {h₁ h' : HeapState}
    {G₁ : HeapGhost} (member : b ∈ st.live) (pos : size ≠ 0) (ne : p ≠ 0) (small : b.cap < size)
    (made : Allocated K roots st.heap G (blockFor size p) p h₁) (inv₁ : HeapInv K roots h₁ G₁)
    (live₁ : ∀ x, G₁.Live x ↔ G.Live x ∨ x = blockFor size p)
    (copied : ∀ i < b.cap, heapView h₁.mm (p + i) = heapView st.heap.mm (b.addr + i))
    (gone : Freed K roots h₁ G₁ b.addr h') : Done K roots st (.krealloc b.addr size) p h' := by
  have live := (now.live b).mp member
  obtain ⟨_, _, place, _, same⟩ := made
  obtain ⟨_, fresh⟩ := place.resolve_left ne
  have other : p ≠ b.addr := Ne.symm (fresh b live)
  have new : G₁.Live (blockFor size p) := (live₁ _).mpr (.inr rfl)
  have mid : Tracked K roots ⟨h₁, blockFor size p :: st.live⟩ G₁ := by
    refine ⟨inv₁, ?_, List.nodup_cons.mpr ⟨?_, now.nodup⟩⟩
    · intro x
      rw [live₁, ← now.live, List.mem_cons, or_comm]
    · intro there
      exact fresh _ ((now.live _).mp there) (blockFor_addr size p)
  have keep : (blockFor size p).addr ≠ b.addr := by
    rw [blockFor_addr]
    exact other
  have blocks : blocksAfter st.live (.krealloc b.addr size) p =
      (blockFor size p :: st.live).filter (·.addr ≠ b.addr) := by
    rw [blocksAfter, if_neg live.ne_zero, if_neg pos, if_neg (by simp [ne, other]),
      List.filter_cons_of_pos (by simpa using keep)]
  have kept := gone
  obtain ⟨_, _, _, same'⟩ := kept
  refine ⟨?_, ?_, ?_, by simp⟩
  · rw [blocks]
    exact mid.freed gone
  · intro x there unchanged
    have apart : x.addr ≠ b.addr := fun eq => unchanged ⟨eq, .inr ⟨ne, other⟩⟩
    have old := (now.live x).mp there
    exact (same x old).trans (same' x ((live₁ x).mpr (.inl old)) apart)
  · intro ptr size' eq _ x there at_ i lt
    obtain ⟨rfl, rfl⟩ := HeapOp.krealloc.inj eq
    obtain rfl := now.inv.live_unique ((now.live x).mp there) live at_
    have fits := le_blockFor_cap size p
    have agree := same' _ new keep (p + i)
    rw [blockFor_addr] at agree
    rw [agree (by omega) (by omega)]
    exact copied i (by omega)

theorem krealloc_done (now : Tracked K roots st G) {ptr size : Nat} (given : Given st ptr)
    (fits : Fits st size) :
    wp (heapExec (.krealloc ptr size)) (Done K roots st (.krealloc ptr size)) HeapSaturated
      st.heap := by
  rcases given with rfl | ⟨b, member, rfl⟩
  · refine wp_imp (kmalloc_spec now.inv fits.1 fits.2) ?_
    intro p h' made
    have kept := made
    obtain ⟨_, _, _, _, same⟩ := kept
    refine ⟨now.allocated made, fun b member _ => same b ((now.live b).mp member), ?_, by simp⟩
    intro ptr size' eq _ b member at_
    obtain ⟨rfl, _⟩ := HeapOp.krealloc.inj eq
    exact absurd at_ ((now.live b).mp member).ne_zero
  have live := (now.live b).mp member
  by_cases zero : size = 0
  · subst zero
    have spec := kfree_spec now.inv live
    change wp (krealloc b.addr 0) _ _ _
    unfold krealloc
    rw [if_neg live.ne_zero, if_pos rfl]
    refine wp_seq spec ?_
    intro _ h' gone
    have kept := gone
    obtain ⟨_, _, _, same⟩ := kept
    have blocks : blocksAfter st.live (.krealloc b.addr 0) 0 =
        st.live.filter (·.addr ≠ b.addr) := by
      rw [blocksAfter, if_neg live.ne_zero, if_pos rfl]
    refine ⟨by rw [blocks]; exact now.freed gone, ?_, ?_, by simp⟩
    · intro x there other
      exact same x ((now.live x).mp there) fun eq => other ⟨eq, .inl rfl⟩
    · intro _ _ _ no
      exact absurd rfl no
  · refine wp_imp (krealloc_spec now.inv live zero fits.1 fits.2) ?_
    intro p h' resized
    cases resized with
    | kept same_ large unchanged =>
      subst same_ unchanged
      have blocks : blocksAfter st.live (.krealloc b.addr size) b.addr = st.live := by
        rw [blocksAfter, if_neg live.ne_zero, if_neg zero, if_pos (.inr rfl)]
      refine ⟨⟨G, by rw [blocks]; exact now⟩, fun _ _ _ => .refl _ _ _, ?_, by simp⟩
      intro ptr size' eq _ x there at_ i lt
      obtain ⟨rfl, _⟩ := HeapOp.krealloc.inj eq
      rfl
    | failed null made =>
      subst null
      obtain ⟨G', inv, place, live', same⟩ := made
      have blocks : blocksAfter st.live (.krealloc b.addr size) 0 = st.live := by
        rw [blocksAfter, if_neg live.ne_zero, if_neg zero, if_pos (.inl rfl)]
      refine ⟨⟨G', inv, ?_, ?_⟩, fun x there _ => same x ((now.live x).mp there), ?_, by simp⟩
      · intro x
        rw [blocks, live', ← now.live]
        simp
      · rw [blocks]
        exact now.nodup
      · intro _ _ _ no
        exact absurd rfl no
    | moved ne small made inv₁ live₁ copied gone =>
      exact now.moved_done member zero ne small made inv₁ live₁ copied gone

/-- Every call that is allowed keeps the invariant and is safe. -/
theorem done (now : Tracked K roots st G) {op : HeapOp} (allowed : HeapAllowed st op) :
    wp (heapExec op) (Done K roots st op) HeapSaturated st.heap := by
  cases op with
  | kmalloc size => exact now.kmalloc_done allowed
  | kzalloc size => exact now.kzalloc_done allowed
  | krealloc ptr size => exact now.krealloc_done allowed.1 allowed.2
  | kfree ptr => exact now.kfree_done allowed
  | write addr b => exact now.write_done allowed

end Tracked

/-- The heap after `vmm_init` and `heap_init`: no slab, no block. -/
theorem Booted.tracked {kernelEnd : Word} {s : MemState} (boot : Booted K kernelEnd s)
    (heap : heapBase ≤ s.kheapNext) :
    Tracked K [] ⟨freshHeap s, []⟩ ⟨fun _ => [], [], fun _ => none⟩ := by
  have pages : HeapPages K [] s (bootGhost K s.pmm.refcount) :=
    ⟨boot.system heap, fun _ _ filled => absurd rfl filled⟩
  have aligned : s.kheapNext.toNat % 4096 = 0 := by
    have value := alignUp_toNat (kernelVma + kernelEnd) (n := 21) (by decide)
    have size : BitVec.ofNat 64 (2 ^ 21) = 0x200000#64 := by decide
    rw [size] at value
    rw [boot.heap, value]
    omega
  refine ⟨⟨⟨_, pages⟩, aligned, fun _ => .nil, by simp, by simp, by simp, by simp, by simp⟩, ?_,
    List.nodup_nil⟩
  intro b
  constructor
  · intro none_
    cases none_
  · intro live
    cases live with
    | object slab _ _ => cases slab
    | large block => cases block

/-- A step that is evaluated. -/
def HeapSystem.after (st : HeapSystem) (op : HeapOp) (p : Nat) : HeapSystem :=
  ⟨resultState (heapExec op st.heap), blocksAfter st.live op p⟩

theorem HeapStep.eval {op : HeapOp} {p : Nat} (allowed : HeapAllowed st op)
    (value : resultValue (heapExec op st.heap) = some p) : HeapStep st (op, p) (st.after op p) :=
  ⟨allowed, result_eq value, rfl⟩

end LithiumKernel.Mm
