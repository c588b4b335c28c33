import LithiumKernel.Lib.Run
import LithiumKernel.Mm.PmmInit

/-!
# Runs of the physical memory manager (kernel/mm/pmm.c)

`pmm_alloc_contiguous`, and the allocator as a machine whose steps are the calls that pass
their assertions. A step is labelled with the call and its result, so that the references
taken and given up since the last allocation of a frame can be counted from the labels.
-/
namespace LithiumKernel.Mm

open LithiumKernel.Lib

/-! ## Contiguous allocation -/

namespace Pmm

/-- The scan of `pmm_alloc_contiguous` over the frames that are left. -/
def scanRun (p : Pmm) (count : Nat) : List Nat → Nat → Nat → Option Nat
  | [], _, _ => none
  | f :: rest, runStart, runLen =>
    if p.frameIsFree f then
      let runStart := if runLen = 0 then f else runStart
      if runLen + 1 = count then some runStart
      else p.scanRun count rest runStart (runLen + 1)
    else p.scanRun count rest runStart 0

/-- A frame of the run is marked used. -/
def useFrame (p : Pmm) (f : Nat) : Pmm :=
  { p.frameSetUsed f with refcount := Function.update p.refcount f 1 }

def takeRun (p : Pmm) (start count : Nat) : Pmm :=
  { (List.range' start count).foldl useFrame p with freeFrames := p.freeFrames - count }

end Pmm

def pmmAllocContiguous (p : Pmm) (count : BitVec 32) : Option Word × Pmm :=
  if count = 0#32 ∨ p.freeFrames < count.toNat then (none, p)
  else match p.scanRun count.toNat (List.range p.totalFrames) 0 0 with
    | some start => (some (frameAddr start), p.takeRun start count.toNat)
    | none => (none, p)

namespace Pmm

/-- The scan finds frames in a row that are all free. `runLen` of them, from `runStart` on,
lie right before the frames that are left. -/
theorem scanRun_some {p : Pmm} {count start : Nat} : ∀ {n f runStart runLen : Nat},
    (0 < runLen → runStart + runLen = f ∧ ∀ j, runStart ≤ j → j < f → p.frameIsFree j = true) →
    p.scanRun count (List.range' f n) runStart runLen = some start →
    start + count ≤ f + n ∧ ∀ j, start ≤ j → j < start + count → p.frameIsFree j = true := by
  intro n
  induction n with
  | zero =>
    intro f runStart runLen _ found
    cases found
  | succ n ih =>
    intro f runStart runLen before found
    rw [List.range'_succ, scanRun] at found
    by_cases free : p.frameIsFree f = true
    · rw [if_pos free] at found
      -- the run that ends with this frame
      have run : (if runLen = 0 then f else runStart) + (runLen + 1) = f + 1 ∧
          ∀ j, (if runLen = 0 then f else runStart) ≤ j → j < f + 1 → p.frameIsFree j = true := by
        by_cases first : runLen = 0
        · rw [if_pos first]
          refine ⟨by omega, fun j low high => ?_⟩
          obtain rfl : j = f := by omega
          exact free
        · rw [if_neg first]
          obtain ⟨ends, all⟩ := before (by omega)
          refine ⟨by omega, fun j low high => ?_⟩
          by_cases last : j = f
          · rwa [last]
          · exact all j low (by omega)
      dsimp only at found
      split at found
      · rename_i full
        obtain rfl := Option.some.inj found
        refine ⟨by omega, fun j low high => run.2 j low (by omega)⟩
      · obtain ⟨inside, all⟩ := ih (fun _ => run) found
        exact ⟨by omega, all⟩
    · rw [if_neg free] at found
      obtain ⟨inside, all⟩ := ih (fun none => absurd none (lt_irrefl 0)) found
      exact ⟨by omega, all⟩

theorem foldl_useFrame (fs : List Nat) : ∀ p : Pmm,
    (fs.foldl useFrame p).totalFrames = p.totalFrames ∧
      (∀ g, (fs.foldl useFrame p).frameIsFree g = true ↔ p.frameIsFree g = true ∧ g ∉ fs) ∧
      ∀ g, (fs.foldl useFrame p).refcount g = if g ∈ fs then 1 else p.refcount g := by
  induction fs with
  | nil => simp
  | cons f rest ih =>
    intro p
    obtain ⟨total, free, counts⟩ := ih (p.useFrame f)
    refine ⟨total, fun g => ?_, fun g => ?_⟩
    · have one : (p.useFrame f).frameIsFree g = true ↔ p.frameIsFree g = true ∧ g ≠ f :=
        frameIsFree_setUsed p f g
      rw [List.foldl_cons, free, one, List.mem_cons, not_or, and_assoc]
    · rw [List.foldl_cons, counts]
      by_cases later : g ∈ rest
      · rw [if_pos later, if_pos (List.mem_cons_of_mem _ later)]
      · rw [if_neg later]
        change Function.update p.refcount f 1 g = _
        by_cases same : g = f
        · rw [same, Function.update_self, if_pos (List.mem_cons_self ..)]
        · rw [Function.update_of_ne same, if_neg (by simp [same, later])]

end Pmm

/-! ## The machine -/

inductive PmmOp where
  | allocFrame
  | allocContiguous (count : BitVec 32)
  | refFrame (phys : Word)
  | freeFrame (phys : Word)

/-- A call with the address it returns, if it returns one. -/
structure PmmCall where
  op : PmmOp
  result : Option Word

def pmmExec (p : Pmm) : PmmOp → Except Kassert (Option Word × Pmm)
  | .allocFrame => .ok (pmmAllocFrame p)
  | .allocContiguous count => .ok (pmmAllocContiguous p count)
  | .refFrame phys => (pmmRefFrame p phys).map fun q => (none, q)
  | .freeFrame phys => (pmmFreeFrame p phys).map fun q => (none, q)

/-- A call that passes its assertions. -/
def PmmStep (p : Pmm) (call : PmmCall) (q : Pmm) : Prop := pmmExec p call.op = .ok (call.result, q)

namespace PmmCall

/-- The frames a call hands out. -/
def taken (call : PmmCall) : List Nat :=
  match call.op, call.result with
  | .allocFrame, some phys => [phys.toNat / pmmFrameSize]
  | .allocContiguous count, some phys => List.range' (phys.toNat / pmmFrameSize) count.toNat
  | _, _ => []

def isRef (f : Nat) (call : PmmCall) : Bool :=
  match call.op with
  | .refFrame phys => phys.toNat / pmmFrameSize = f
  | _ => false

def isFree (f : Nat) (call : PmmCall) : Bool :=
  match call.op with
  | .freeFrame phys => phys.toNat / pmmFrameSize = f
  | _ => false

end PmmCall

/-- How often a reference to the frame was taken, and given up. -/
def refs (f : Nat) (calls : List PmmCall) : Nat := calls.countP (·.isRef f)
def frees (f : Nat) (calls : List PmmCall) : Nat := calls.countP (·.isFree f)

/-- What one call does to the pool. Frames that it hands out were free, and are counted
once; of all other frames it moves the count by a reference taken or given up. -/
structure PmmCall.Effect (call : PmmCall) (p q : Pmm) : Prop where
  evolves : p.Evolves q
  inside : (∀ f, p.frameIsFree f = true → f < p.totalFrames) →
    ∀ f, q.frameIsFree f = true → f < q.totalFrames
  fresh : ∀ f ∈ call.taken, f < p.totalFrames ∧ p.frameIsFree f = true ∧ q.refcount f = 1
  others : ∀ f, f ∉ call.taken →
    q.refcount f + frees f [call] = p.refcount f + refs f [call]

section Effects

variable {p q : Pmm}

theorem allocFrame_effect {result : Option Word} (ok : p.Ok)
    (ran : pmmAllocFrame p = (result, q)) : PmmCall.Effect ⟨.allocFrame, result⟩ p q := by
  rcases pmmAllocFrame_spec ok with ⟨f, q', run, evolves, lt, free, counts⟩ | run
  · obtain ⟨rfl, rfl⟩ := Prod.mk.inj (run.symm.trans ran)
    have small : f < 2 ^ 40 := lt_of_lt_of_le lt (le_trans ok.total_le (by decide))
    have taken : PmmCall.taken ⟨.allocFrame, some (frameAddr f)⟩ = [f] := by
      simp only [PmmCall.taken, frameAddr_frame small]
    refine ⟨evolves, ?_, ?_, ?_⟩
    · intro inside g gfree
      rw [evolves.total]
      by_contra beyond
      -- a frame beyond the limit is no hole and keeps its count
      have was : ¬ p.frameIsFree g = true := fun here => beyond (inside g here)
      have ne : g ≠ f := by
        rintro rfl
        exact beyond lt
      have full : pmmAllocFrame p = (some (frameAddr f), q') := run
      unfold pmmAllocFrame at full
      split at full
      · cases full
      · split at full
        · rename_i h found
          obtain ⟨same, rfl⟩ := Prod.mk.inj full
          exact was ((Pmm.takeFrame_free p h g).mp gfree).1
        · cases full
    · rw [taken]
      intro g member
      obtain rfl := List.mem_singleton.mp member
      exact ⟨lt, free, by rw [counts, Function.update_self]⟩
    · rw [taken]
      intro g other
      have ne : g ≠ f := fun same => other (by simp [same])
      rw [counts, Function.update_of_ne ne]
      rfl
  · obtain ⟨rfl, rfl⟩ := Prod.mk.inj (run.symm.trans ran)
    exact ⟨.refl ok, id, by simp [PmmCall.taken], fun f _ => rfl⟩

theorem Pmm.takeRun_evolves (ok : p.Ok) {start count : Nat}
    (inside : ∀ j ∈ List.range' start count, j < p.totalFrames)
    (free : ∀ j ∈ List.range' start count, p.frameIsFree j = true) :
    p.Evolves (p.takeRun start count) := by
  obtain ⟨total, bits, counts⟩ := Pmm.foldl_useFrame (List.range' start count) p
  have bits' : ∀ g, (p.takeRun start count).frameIsFree g = true ↔
      p.frameIsFree g = true ∧ g ∉ List.range' start count := bits
  have counts' : ∀ g, (p.takeRun start count).refcount g =
      if g ∈ List.range' start count then 1 else p.refcount g := counts
  refine ⟨⟨?_, ?_, ?_⟩, total, ?_⟩
  · change ((List.range' start count).foldl Pmm.useFrame p).totalFrames ≤ _
    rw [total]
    exact ok.total_le
  · intro g lt gfree
    obtain ⟨was, other⟩ := (bits' g).mp gfree
    rw [counts', if_neg other]
    exact ok.free_zero g (by rw [← total]; exact lt) was
  · have removed : (p.takeRun start count).freeSet =
        p.freeSet \ (List.range' start count).toFinset := by
      ext g
      simp only [Pmm.freeSet, Finset.mem_filter, Finset.mem_range, Finset.mem_sdiff,
        List.mem_toFinset, bits']
      change g < ((List.range' start count).foldl Pmm.useFrame p).totalFrames ∧ _ ↔ _
      rw [total]
      tauto
    have subset : (List.range' start count).toFinset ⊆ p.freeSet := by
      intro g member
      rw [List.mem_toFinset] at member
      simp [Pmm.freeSet, inside g member, free g member]
    have size : (List.range' start count).toFinset.card = count := by
      rw [List.toFinset_card_of_nodup List.nodup_range', List.length_range']
    change p.freeFrames - count = _
    rw [removed, Finset.card_sdiff_of_subset subset, size, ok.count]
  · intro g
    unfold Pmm.Hole
    rw [counts']
    by_cases member : g ∈ List.range' start count
    · simp [member, free g member]
    · have same : (p.takeRun start count).frameIsFree g = p.frameIsFree g := by
        rw [Bool.eq_iff_iff, bits']
        simp [member]
      simp [member, same]

theorem allocContiguous_effect {count : BitVec 32} {result : Option Word} (ok : p.Ok)
    (ran : pmmAllocContiguous p count = (result, q)) :
    PmmCall.Effect ⟨.allocContiguous count, result⟩ p q := by
  have nothing : PmmCall.Effect ⟨.allocContiguous count, none⟩ p p :=
    ⟨.refl ok, id, by simp [PmmCall.taken], fun f _ => rfl⟩
  unfold pmmAllocContiguous at ran
  split at ran
  · obtain ⟨rfl, rfl⟩ := Prod.mk.inj ran
    exact nothing
  · rename_i wanted
    split at ran
    · rename_i start found
      obtain ⟨rfl, rfl⟩ := Prod.mk.inj ran
      rw [List.range_eq_range'] at found
      obtain ⟨below, free⟩ := Pmm.scanRun_some (fun none => absurd none (lt_irrefl 0)) found
      have members : ∀ j, j ∈ List.range' start count.toNat ↔ start ≤ j ∧ j < start + count.toNat :=
        fun j => List.mem_range'_1
      have some_ : 0 < count.toNat := by
        rw [Nat.pos_iff_ne_zero]
        intro zero
        exact wanted (.inl (BitVec.eq_of_toNat_eq (by simpa using zero)))
      have small : start < 2 ^ 40 := by
        have limit := ok.total_le
        simp only [pmmMaxFrames] at limit
        omega
      have taken : PmmCall.taken ⟨.allocContiguous count, some (frameAddr start)⟩ =
          List.range' start count.toNat := by
        simp only [PmmCall.taken, frameAddr_frame small]
      obtain ⟨total, bits, counts⟩ := Pmm.foldl_useFrame (List.range' start count.toNat) p
      have within : ∀ j ∈ List.range' start count.toNat, j < p.totalFrames ∧
          p.frameIsFree j = true := by
        intro j member
        obtain ⟨low, high⟩ := (members j).mp member
        exact ⟨by omega, free j low high⟩
      refine ⟨Pmm.takeRun_evolves ok (fun j member => (within j member).1)
        (fun j member => (within j member).2), ?_, ?_, ?_⟩
      · intro inside g gfree
        change g < ((List.range' start count.toNat).foldl Pmm.useFrame p).totalFrames
        rw [total]
        exact inside g ((bits g).mp gfree).1
      · rw [taken]
        intro g member
        refine ⟨(within g member).1, (within g member).2, ?_⟩
        exact (counts g).trans (if_pos member)
      · rw [taken]
        intro g other
        exact (counts g).trans (if_neg other)
    · obtain ⟨rfl, rfl⟩ := Prod.mk.inj ran
      exact nothing

/-- An address that passes the alignment check is that of its frame. -/
theorem aligned_frameAddr {phys : Word} (aligned : phys &&& 0xFFF#64 = 0#64) :
    phys = frameAddr (phys.toNat / pmmFrameSize) := by
  have low := congrArg BitVec.toNat aligned
  rw [BitVec.toNat_and] at low
  change phys.toNat &&& (2 ^ 12 - 1) = 0 at low
  rw [Nat.and_two_pow_sub_one_eq_mod] at low
  apply BitVec.eq_of_toNat_eq
  rw [frameAddr, BitVec.toNat_ofNat]
  have := phys.isLt
  simp only [pmmFrameSize]
  omega

/-- A reference is taken to or given up on one frame that is in use. -/
theorem counted_effect {call : PmmCall} {f n : Nat} (none : call.taken = []) (lt : f < p.totalFrames)
    (evolves : p.Evolves q) (counts : q.refcount = Function.update p.refcount f n)
    (here : n + frees f [call] = p.refcount f + refs f [call])
    (away : ∀ g, g ≠ f → frees g [call] = 0 ∧ refs g [call] = 0)
    (bits : ∀ g, q.frameIsFree g = true → p.frameIsFree g = true ∨ g = f) :
    PmmCall.Effect call p q := by
  refine ⟨evolves, ?_, by simp [none], ?_⟩
  · intro inside g gfree
    rw [evolves.total]
    rcases bits g gfree with was | rfl
    · exact inside g was
    · exact lt
  · intro g _
    rw [counts]
    by_cases same : g = f
    · rw [same, Function.update_self]
      exact here
    · rw [Function.update_of_ne same, (away g same).1, (away g same).2]

theorem freeFrame_effect {phys : Word} (ok : p.Ok) (ran : pmmFreeFrame p phys = .ok q) :
    PmmCall.Effect ⟨.freeFrame phys, none⟩ p q := by
  unfold pmmFreeFrame at ran
  dsimp only at ran
  split at ran
  · cases ran
  split at ran
  · cases ran
  rename_i aligned lt
  split at ran
  · cases ran
  rename_i used
  split at ran
  · cases ran
  rename_i pos
  obtain rfl := Except.ok.inj ran
  rw [not_not] at lt
  rw [Bool.not_eq_true] at used
  have bits : ∀ g, (p.dropFrame (phys.toNat / pmmFrameSize)).frameIsFree g = true →
      p.frameIsFree g = true ∨ g = phys.toNat / pmmFrameSize :=
    fun g free => ((Pmm.dropFrame_free _ _ _).mp free).imp_right And.left
  refine counted_effect rfl lt ⟨Pmm.dropFrame_ok ok lt used, Pmm.dropFrame_total _ _,
    Pmm.dropFrame_hole used (Nat.pos_of_ne_zero pos)⟩ (Pmm.dropFrame_refcount _ _) ?_ ?_ bits
  · simp only [frees, refs, PmmCall.isFree, PmmCall.isRef, List.countP_cons, List.countP_nil]
    simp
    omega
  · intro g other
    simp [frees, refs, PmmCall.isFree, PmmCall.isRef, Ne.symm other]

theorem refFrame_effect {phys : Word} (ok : p.Ok) (ran : pmmRefFrame p phys = .ok q) :
    PmmCall.Effect ⟨.refFrame phys, none⟩ p q := by
  have ran' := ran
  unfold pmmRefFrame at ran
  dsimp only at ran
  split at ran
  · cases ran
  split at ran
  · cases ran
  rename_i aligned lt
  split at ran
  · cases ran
  split at ran
  · cases ran
  rename_i pos
  split at ran
  · cases ran
  rw [not_not] at lt aligned
  rw [aligned_frameAddr aligned] at ran'
  rcases pmmRefFrame_spec ok lt (Nat.pos_of_ne_zero pos) with ⟨q', run, evolves, counts⟩ | ⟨run, _⟩
  · obtain rfl := Except.ok.inj (run.symm.trans ran')
    obtain same := Except.ok.inj ran
    refine counted_effect rfl lt evolves counts ?_ ?_ ?_
    · simp [frees, refs, PmmCall.isFree, PmmCall.isRef]
    · intro g other
      simp [frees, refs, PmmCall.isFree, PmmCall.isRef, Ne.symm other]
    · intro g free
      rw [← same] at free
      exact .inl free
  · rw [run] at ran'
    cases ran'

end Effects

theorem PmmStep.effect {p q : Pmm} {call : PmmCall} (ok : p.Ok) (step : PmmStep p call q) :
    call.Effect p q := by
  obtain ⟨op, result⟩ := call
  unfold PmmStep at step
  cases op with
  | allocFrame => exact allocFrame_effect ok (Except.ok.inj step)
  | allocContiguous count => exact allocContiguous_effect ok (Except.ok.inj step)
  | refFrame phys =>
    simp only [pmmExec] at step
    cases ran : pmmRefFrame p phys with
    | error e =>
      rw [ran] at step
      cases step
    | ok q' =>
      rw [ran] at step
      obtain ⟨rfl, rfl⟩ := Prod.mk.inj (Except.ok.inj step)
      exact refFrame_effect ok ran
  | freeFrame phys =>
    simp only [pmmExec] at step
    cases ran : pmmFreeFrame p phys with
    | error e =>
      rw [ran] at step
      cases step
    | ok q' =>
      rw [ran] at step
      obtain ⟨rfl, rfl⟩ := Prod.mk.inj (Except.ok.inj step)
      exact freeFrame_effect ok ran

/-! ## Runs -/

section Runs

variable {start p : Pmm} {calls : List PmmCall}

theorem PmmStep.run_ok (run : Run PmmStep start calls p) (ok : start.Ok)
    (inside : ∀ f, start.frameIsFree f = true → f < start.totalFrames) :
    start.Evolves p ∧ ∀ f, p.frameIsFree f = true → f < p.totalFrames := by
  refine run.invariant (fun p => start.Evolves p ∧ ∀ f, p.frameIsFree f = true → f < p.totalFrames)
    ⟨.refl ok, inside⟩ ?_
  rintro p call q ⟨evolves, within⟩ step
  have effect := step.effect evolves.ok
  exact ⟨evolves.trans effect.evolves, effect.inside within⟩

/-- Over calls that do not hand it out, the count of a frame moves by the references taken
and given up. -/
theorem PmmStep.run_count (run : Run PmmStep start calls p) (ok : start.Ok) {f : Nat}
    (never : ∀ call ∈ calls, f ∉ call.taken) :
    p.Ok ∧ p.refcount f + frees f calls = start.refcount f + refs f calls := by
  induction run with
  | nil => exact ⟨ok, rfl⟩
  | @snoc calls s call s' before step ih =>
    obtain ⟨okBefore, count⟩ := ih (fun c member => never c (by simp [member]))
    have effect := step.effect okBefore
    have moved := effect.others f (never call (by simp))
    refine ⟨effect.evolves.ok, ?_⟩
    simp only [frees, refs, List.countP_append] at count moved ⊢
    omega

/-- Since its last allocation, the count of a frame has moved by the references taken and
given up. -/
theorem PmmStep.run_since {before after : List PmmCall} {call : PmmCall}
    (run : Run PmmStep start (before ++ call :: after) p) (ok : start.Ok) {f : Nat}
    (taken : f ∈ call.taken) (last : ∀ later ∈ after, f ∉ later.taken) :
    p.refcount f + frees f after = 1 + refs f after := by
  rw [← List.singleton_append, ← List.append_assoc] at run
  obtain ⟨mid, first, second⟩ := run.split
  obtain ⟨early, ready, one⟩ := first.split
  have okEarly : early.Ok := ready.invariant Pmm.Ok ok
    (fun _ _ _ h step => (step.effect h).evolves.ok)
  have effect := one.single.effect okEarly
  have count := (PmmStep.run_count second effect.evolves.ok last).2
  rw [(effect.fresh f taken).2.2] at count
  exact count

end Runs

/-- **The allocator's views agree.** From every pool that `pmm_init` leaves, after any calls
that pass their assertions: the counter of free frames is the number of clear bits, a frame
with a clear bit is not referenced, the count of a frame is one plus the references taken
less those given up since it was last handed out, a frame is handed out only while it is
free and not referenced, and a hole stays a hole. -/
theorem pmm_views_agree {mem : BootMem} {kernelEnd : Word} {bootMagic bootInfoPhys : BitVec 32}
    {start p : Pmm} {calls : List PmmCall}
    (init : pmmInit mem kernelEnd bootMagic bootInfoPhys = .ok start)
    (run : Run PmmStep start calls p) :
    p.freeFrames = ((Finset.range p.totalFrames).filter (p.frameIsFree ·)).card ∧
    (∀ f, p.frameIsFree f = true → p.refcount f = 0) ∧
    (∀ f before call after, calls = before ++ call :: after → f ∈ call.taken →
      (∀ later ∈ after, f ∉ later.taken) → p.refcount f + frees f after = 1 + refs f after) ∧
    (∀ f, (∀ call ∈ calls, f ∉ call.taken) →
      p.refcount f + frees f calls = start.refcount f + refs f calls) ∧
    (∀ call q, PmmStep p call q → ∀ f ∈ call.taken,
      p.frameIsFree f = true ∧ p.refcount f = 0 ∧ q.refcount f = 1) ∧
    (∀ f, start.Hole f → p.Hole f) := by
  obtain ⟨entries, _, pool⟩ := pmmInit_ok init
  have ok : start.Ok := by
    rw [pool]
    exact (poolOf_ok kernelEnd entries).1
  have inside : ∀ f, start.frameIsFree f = true → f < start.totalFrames := by
    rw [pool]
    exact poolOf_inside kernelEnd entries
  obtain ⟨evolves, within⟩ := PmmStep.run_ok run ok inside
  have zero : ∀ f, p.frameIsFree f = true → p.refcount f = 0 := fun f free =>
    evolves.ok.free_zero f (within f free) free
  refine ⟨evolves.ok.count, zero, ?_, fun f never => (PmmStep.run_count run ok never).2, ?_,
    fun f hole => (evolves.hole f).mpr hole⟩
  · rintro f before call after rfl taken last
    exact PmmStep.run_since run ok taken last
  · intro call q step f taken
    obtain ⟨_, free, one⟩ := (step.effect evolves.ok).fresh f taken
    exact ⟨free, zero f free, one⟩

/-- A frame of the small map is handed out and referenced. -/
theorem pmm_views_agree_aligned :
    ∃ start p, pmmInit (pvhImage alignedMap) 0x102000#64 0#32 0x1000#32 = .ok start ∧
      Run PmmStep start [⟨.allocFrame, some (frameAddr 258)⟩,
        ⟨.refFrame (frameAddr 258), none⟩] p ∧ p.refcount 258 = 2 := by
  have map : BootMap (pvhImage alignedMap) 0#32 0x1000#32 alignedMap := by
    unfold BootMap
    decide +kernel
  have init := pmmInit_of_map 0x102000#64 map
  rw [if_neg (by decide)] at init
  have alloc : PmmStep (poolOf 0x102000#64 alignedMap) ⟨.allocFrame, some (frameAddr 258)⟩
      ((poolOf 0x102000#64 alignedMap).takeFrame 258) :=
    congrArg Except.ok (pmmAllocFrame_run (by decide +kernel) (by decide +kernel))
  have ok := (alloc.effect (poolOf_ok _ _).1).evolves.ok
  have lt : 258 < ((poolOf 0x102000#64 alignedMap).takeFrame 258).totalFrames := by decide +kernel
  have count : ((poolOf 0x102000#64 alignedMap).takeFrame 258).refcount 258 = 1 := by
    rw [Pmm.takeFrame_refcount, Function.update_self]
  rcases pmmRefFrame_spec ok lt (by omega) with ⟨p, ran, _, _⟩ | ⟨_, full⟩
  · have step : PmmStep ((poolOf 0x102000#64 alignedMap).takeFrame 258)
        ⟨.refFrame (frameAddr 258), none⟩ p := by
      rw [PmmStep, pmmExec, ran]
      rfl
    have run := (Run.nil.snoc alloc).snoc step
    refine ⟨_, p, init, run, ?_⟩
    have since := (pmm_views_agree init run).2.2.1 258 [] ⟨.allocFrame, some (frameAddr 258)⟩
      [⟨.refFrame (frameAddr 258), none⟩] rfl (by decide) (by decide)
    have kept : frees 258 [⟨.refFrame (frameAddr 258), none⟩] = 0 := by decide
    have one : refs 258 [⟨.refFrame (frameAddr 258), none⟩] = 1 := by decide
    omega
  · rw [count] at full
    exact absurd full (by decide)

end LithiumKernel.Mm
