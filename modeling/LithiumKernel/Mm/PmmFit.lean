import Mathlib.Order.Interval.Finset.Nat
import LithiumKernel.Mm.PmmRun

/-!
# Which frames are handed out (kernel/mm/pmm.c)

`pmm_alloc_frame` starts at a hint and `pmm_alloc_contiguous` counts run lengths in one
pass. Here both are compared with plain searches: the lowest free frame, and the lowest
frame at which enough free frames follow in a row.
-/
namespace LithiumKernel.Mm

open LithiumKernel.Lib

/-! ## One frame -/

namespace Pmm

variable {p : Pmm}

/-- A plain scan from frame 0. -/
def firstFree (p : Pmm) : Option Nat := (List.range p.totalFrames).find? p.frameIsFree

/-- Every frame below the hint is in use. -/
def HintInv (p : Pmm) : Prop := ∀ f, f < p.nextHint → p.frameIsFree f = false

/-- The frames of the last byte beyond the limit do not count. -/
theorem firstFree_eq_find {n : Nat} (covers : p.totalFrames ≤ n) :
    p.firstFree = (List.range' 0 n).find? p.available := by
  have split_ : List.range' 0 n =
      List.range' 0 p.totalFrames ++ List.range' p.totalFrames (n - p.totalFrames) := by
    have all := (List.range'_append_1 : List.range' 0 p.totalFrames ++
      List.range' (0 + p.totalFrames) (n - p.totalFrames) = _)
    rw [Nat.zero_add, Nat.add_sub_cancel' covers] at all
    exact all.symm
  have beyond : (List.range' p.totalFrames (n - p.totalFrames)).find? p.available = none := by
    rw [List.find?_eq_none]
    intro f member found
    have low := (List.mem_range'_1.mp member).1
    have lt := ((p.available_iff f).mp found).1
    omega
  have inside : (List.range' 0 p.totalFrames).find? p.available =
      (List.range' 0 p.totalFrames).find? p.frameIsFree := by
    rw [← List.head?_filter, ← List.head?_filter]
    refine congrArg List.head? (List.filter_congr fun f member => ?_)
    have lt : f < p.totalFrames := by
      have := (List.mem_range'_1.mp member).2
      omega
    rw [available, decide_eq_true lt, Bool.true_and]
  rw [firstFree, List.range_eq_range', split_, List.find?_append, beyond, Option.or_none, inside]

theorem foldl_useFrame_hint (fs : List Nat) : ∀ p : Pmm,
    (fs.foldl useFrame p).nextHint = p.nextHint := by
  induction fs with
  | nil => exact fun _ => rfl
  | cons f rest ih => exact fun p => ih (p.useFrame f)

namespace HintInv

/-- The second pass of `pmm_alloc_frame` finds nothing. -/
theorem second_pass (hint : p.HintInv) :
    p.scanBytes (List.range (p.nextHint >>> 3)) = none := by
  rw [List.range_eq_range', scanBytes_find, List.find?_eq_none, Nat.shiftRight_eq_div_pow]
  intro f member found
  have below := (List.mem_range'_1.mp member).2
  have free := ((p.available_iff f).mp found).2
  rw [hint f (by omega)] at free
  cases free

theorem scanFrames (hint : p.HintInv) : p.scanFrames = p.firstFree := by
  have used : ∀ n, n ≤ p.nextHint → (List.range' 0 n).find? p.available = none := by
    intro n low
    rw [List.find?_eq_none]
    intro f member found
    have below := (List.mem_range'_1.mp member).2
    have free := ((p.available_iff f).mp found).2
    rw [hint f (by omega)] at free
    cases free
  have first : p.scanBytes (List.range' (p.nextHint >>> 3)
      ((p.totalFrames + 7) / 8 - p.nextHint >>> 3)) = p.firstFree := by
    rw [scanBytes_find, Nat.shiftRight_eq_div_pow]
    by_cases short : (p.totalFrames + 7) / 8 ≤ p.nextHint / 2 ^ 3
    · -- the hint lies beyond the last byte
      rw [Nat.sub_eq_zero_of_le short, firstFree_eq_find (show p.totalFrames ≤ p.nextHint by omega),
        used p.nextHint le_rfl]
      rfl
    · have all := (List.range'_append_1 : List.range' 0 (p.nextHint / 2 ^ 3 * 8) ++
        List.range' (0 + p.nextHint / 2 ^ 3 * 8)
          (((p.totalFrames + 7) / 8 - p.nextHint / 2 ^ 3) * 8) = _)
      rw [Nat.zero_add] at all
      rw [firstFree_eq_find (show p.totalFrames ≤ p.nextHint / 2 ^ 3 * 8 +
          ((p.totalFrames + 7) / 8 - p.nextHint / 2 ^ 3) * 8 by omega),
        ← all, List.find?_append, used _ (by omega), Option.none_or]
  unfold Pmm.scanFrames
  dsimp only
  rw [first, hint.second_pass]
  cases p.firstFree <;> rfl

/-- The early exit on the counter agrees with the scan. -/
theorem alloc_eq (hint : p.HintInv) (ok : p.Ok) :
    (pmmAllocFrame p).1 = p.firstFree.map frameAddr := by
  unfold pmmAllocFrame
  rw [hint.scanFrames]
  split
  · rename_i none_
    rw [ok.count, Finset.card_eq_zero] at none_
    have nothing : p.firstFree = none := by
      rw [firstFree, List.find?_eq_none]
      intro f member free
      have here : f ∈ p.freeSet := by
        simp only [freeSet, Finset.mem_filter, Finset.mem_range]
        exact ⟨List.mem_range.mp member, free⟩
      rw [none_] at here
      cases here
    rw [nothing]
    rfl
  · cases p.firstFree <;> rfl

/-- An allocation moves the hint past the frame that it took, which was the first. -/
theorem takeFrame {f : Nat} (found : p.firstFree = some f) :
    (p.takeFrame f).HintInv := by
  intro g below
  rw [Bool.eq_false_iff]
  intro free
  obtain ⟨was, ne⟩ := (takeFrame_free p f g).mp free
  rw [firstFree] at found
  have low : g < f := by
    change g < f + 1 at below
    omega
  obtain ⟨_, inside, earlier⟩ := List.find?_range_eq_some.mp found
  have used := earlier g low
  rw [was] at used
  cases used

theorem dropFrame (hint : p.HintInv) (f : Nat) : (p.dropFrame f).HintInv := by
  intro g below
  rw [Bool.eq_false_iff]
  intro free
  rw [dropFrame_free] at free
  unfold Pmm.dropFrame at below
  simp only [Function.update_self] at below
  split at below
  · rename_i more
    rcases free with was | ⟨_, last⟩
    · rw [hint g below] at was
      cases was
    · omega
  · -- the hint is lowered to the frame when it lies above it
    have low : g < p.nextHint ∧ g ≠ f := by
      change g < if f < p.nextHint then f else p.nextHint at below
      split at below <;> omega
    rcases free with was | ⟨same, _⟩
    · rw [hint g low.1] at was
      cases was
    · exact low.2 same

theorem takeRun (hint : p.HintInv) (start count : Nat) : (p.takeRun start count).HintInv := by
  intro g below
  change g < ((List.range' start count).foldl useFrame p).nextHint at below
  rw [foldl_useFrame_hint] at below
  rw [Bool.eq_false_iff]
  intro free
  have was := (((foldl_useFrame (List.range' start count) p).2.1 g).mp free).1
  rw [hint g below] at was
  cases was

end HintInv

end Pmm

/-- Every call keeps the frames below the hint in use. -/
theorem PmmStep.hint {p q : Pmm} {call : PmmCall} (inv : p.HintInv) (step : PmmStep p call q) :
    q.HintInv := by
  obtain ⟨op, result⟩ := call
  unfold PmmStep at step
  cases op with
  | allocFrame =>
    have ran := Except.ok.inj step
    unfold pmmAllocFrame at ran
    split at ran
    · obtain ⟨_, rfl⟩ := Prod.mk.inj ran
      exact inv
    · rw [inv.scanFrames] at ran
      split at ran
      · rename_i f found
        obtain ⟨_, rfl⟩ := Prod.mk.inj ran
        exact Pmm.HintInv.takeFrame found
      · obtain ⟨_, rfl⟩ := Prod.mk.inj ran
        exact inv
  | allocContiguous count =>
    have ran := Except.ok.inj step
    unfold pmmAllocContiguous at ran
    split at ran
    · obtain ⟨_, rfl⟩ := Prod.mk.inj ran
      exact inv
    · split at ran
      · obtain ⟨_, rfl⟩ := Prod.mk.inj ran
        exact inv.takeRun _ _
      · obtain ⟨_, rfl⟩ := Prod.mk.inj ran
        exact inv
  | refFrame phys =>
    simp only [pmmExec, pmmRefFrame] at step
    split at step
    · cases step
    split at step
    · cases step
    split at step
    · cases step
    split at step
    · cases step
    split at step
    · cases step
    obtain ⟨_, rfl⟩ := Prod.mk.inj (Except.ok.inj step)
    exact inv
  | freeFrame phys =>
    simp only [pmmExec, pmmFreeFrame] at step
    split at step
    · cases step
    split at step
    · cases step
    split at step
    · cases step
    split at step
    · cases step
    obtain ⟨_, rfl⟩ := Prod.mk.inj (Except.ok.inj step)
    exact inv.dropFrame _

theorem poolOf_hint (kernelEnd : Word) (entries : List MapEntry) :
    (poolOf kernelEnd entries).nextHint = 0 := by
  have mark : ∀ (fs : List Nat) (p : Pmm), (fs.foldl Pmm.markUsed p).nextHint = p.nextHint := by
    intro fs
    induction fs with
    | nil => exact fun _ => rfl
    | cons f rest ih =>
      intro p
      rw [List.foldl_cons, ih, Pmm.markUsed]
      split <;> rfl
  rw [poolOf, Pmm.reserveLow, Pmm.regionMarkUsed, mark, Pmm.regionMarkUsed, mark,
    Pmm.markEntries_hint]
  rfl

/-- **The hint does not change what is handed out.** From every pool that `pmm_init` leaves,
after any calls that pass their assertions: every frame below the hint is in use,
`pmm_alloc_frame` returns what a plain scan from frame 0 finds, and its second pass finds
nothing. -/
theorem alloc_frame_first_fit {mem : BootMem} {kernelEnd : Word}
    {bootMagic bootInfoPhys : BitVec 32} {start p : Pmm} {calls : List PmmCall}
    (init : pmmInit mem kernelEnd bootMagic bootInfoPhys = .ok start)
    (run : Run PmmStep start calls p) :
    (∀ f, f < p.nextHint → p.frameIsFree f = false) ∧
    (pmmAllocFrame p).1 = p.firstFree.map frameAddr ∧
    p.scanBytes (List.range (p.nextHint >>> 3)) = none := by
  obtain ⟨entries, _, pool⟩ := pmmInit_ok init
  have ok : start.Ok := by
    rw [pool]
    exact (poolOf_ok kernelEnd entries).1
  have first : start.HintInv := by
    intro f below
    rw [pool, poolOf_hint] at below
    omega
  obtain ⟨okNow, hint⟩ := run.invariant (fun p => p.Ok ∧ p.HintInv) ⟨ok, first⟩
    (fun _ _ _ inv step => ⟨(step.effect inv.1).evolves.ok, step.hint inv.2⟩)
  exact ⟨hint, hint.alloc_eq okNow, hint.second_pass⟩

/-- The first frame of the small map is handed out, and then the next. -/
theorem alloc_frame_first_fit_aligned :
    ∃ start p, pmmInit (pvhImage alignedMap) 0x102000#64 0#32 0x1000#32 = .ok start ∧
      Run PmmStep start [⟨.allocFrame, some (frameAddr 258)⟩] p ∧
      (pmmAllocFrame p).1 = some (frameAddr 259) := by
  have map : BootMap (pvhImage alignedMap) 0#32 0x1000#32 alignedMap := by
    unfold BootMap
    decide +kernel
  have init := pmmInit_of_map 0x102000#64 map
  rw [if_neg (by decide)] at init
  have alloc : PmmStep (poolOf 0x102000#64 alignedMap) ⟨.allocFrame, some (frameAddr 258)⟩
      ((poolOf 0x102000#64 alignedMap).takeFrame 258) :=
    congrArg Except.ok (pmmAllocFrame_run (by decide +kernel) (by decide +kernel))
  have run := Run.nil.snoc alloc
  have next : ((poolOf 0x102000#64 alignedMap).takeFrame 258).firstFree = some 259 := by
    decide +kernel
  refine ⟨_, _, init, run, ?_⟩
  rw [(alloc_frame_first_fit init run).2.1, next]
  rfl

/-! ## Frames in a row -/

namespace Pmm

variable {p : Pmm}

/-- `count` frames from `start` on that are all free. -/
def FreeRun (p : Pmm) (start count : Nat) : Prop :=
  start + count ≤ p.totalFrames ∧ ∀ f, start ≤ f → f < start + count → p.frameIsFree f = true

/-- A frame in use lies among the `count` frames from `start` on. -/
def Blocked (p : Pmm) (count start : Nat) : Prop :=
  ∃ f, start ≤ f ∧ f < start + count ∧ p.frameIsFree f = false

theorem FreeRun.not_blocked {start count : Nat} (run : p.FreeRun start count) :
    ¬ p.Blocked count start := by
  rintro ⟨f, low, high, used⟩
  rw [run.2 f low high] at used
  cases used

/-- The scan has nothing to find before the run it is counting: where it stops, every earlier
start is blocked, and when it ends without a result, every start is. -/
theorem scanRun_blocked {count : Nat} : ∀ {n f runStart runLen : Nat}, runLen < count →
    (0 < runLen → runStart + runLen = f) → (∀ s, s + runLen < f → p.Blocked count s) →
    (∀ start, p.scanRun count (List.range' f n) runStart runLen = some start →
      ∀ s, s < start → p.Blocked count s) ∧
    (p.scanRun count (List.range' f n) runStart runLen = none →
      ∀ s, s + count ≤ f + n → p.Blocked count s) := by
  intro n
  induction n with
  | zero =>
    intro f runStart runLen short _ blocked
    refine ⟨fun start found => ?_, fun _ s fits => blocked s (by omega)⟩
    cases found
  | succ n ih =>
    intro f runStart runLen short ends blocked
    rw [List.range'_succ, scanRun]
    by_cases free : p.frameIsFree f = true
    · rw [if_pos free]
      dsimp only
      have starts : (if runLen = 0 then f else runStart) + (runLen + 1) = f + 1 := by
        split <;> omega
      split
      · refine ⟨fun start found s before => ?_, fun found => ?_⟩
        · obtain rfl := Option.some.inj found
          exact blocked s (by omega)
        · cases found
      · rename_i more
        obtain ⟨found, nothing⟩ := @ih (f + 1) (if runLen = 0 then f else runStart) (runLen + 1)
          (by omega) (fun _ => starts) (fun s before => blocked s (by omega))
        exact ⟨found, fun none_ s fits => nothing none_ s (by omega)⟩
    · rw [if_neg free]
      -- the frame blocks every start from which `count` frames reach it
      have here : ∀ s, s + 0 < f + 1 → p.Blocked count s := by
        intro s before
        by_cases earlier : s + runLen < f
        · exact blocked s earlier
        · exact ⟨f, by omega, by omega, by simpa using free⟩
      obtain ⟨found, nothing⟩ := @ih (f + 1) runStart 0 (by omega)
        (fun none_ => absurd none_ (lt_irrefl 0)) here
      exact ⟨found, fun none_ s fits => nothing none_ s (by omega)⟩

/-- A run fits into the counter. -/
theorem FreeRun.count_le (counter : p.freeFrames = p.freeSet.card) {start count : Nat}
    (run : p.FreeRun start count) : count ≤ p.freeFrames := by
  have subset : Finset.Ico start (start + count) ⊆ p.freeSet := by
    intro f member
    obtain ⟨low, high⟩ := Finset.mem_Ico.mp member
    have inside := run.1
    simp only [freeSet, Finset.mem_filter, Finset.mem_range]
    exact ⟨by omega, run.2 f low high⟩
  have size := Finset.card_le_card subset
  rw [Nat.card_Ico, ← counter] at size
  omega

/-- What a successful `pmm_alloc_contiguous` changes. -/
structure RunTaken (p q : Pmm) (start count : Nat) : Prop where
  bits : ∀ f, q.frameIsFree f = true ↔
    p.frameIsFree f = true ∧ ¬ (start ≤ f ∧ f < start + count)
  counts : ∀ f, q.refcount f = if start ≤ f ∧ f < start + count then 1 else p.refcount f
  free : q.freeFrames + count = p.freeFrames
  total : q.totalFrames = p.totalFrames
  hint : q.nextHint = p.nextHint

theorem takeRun_taken {start count : Nat} (fits : count ≤ p.freeFrames) :
    p.RunTaken (p.takeRun start count) start count := by
  obtain ⟨total, bits, counts⟩ := foldl_useFrame (List.range' start count) p
  simp only [List.mem_range'_1] at bits counts
  exact ⟨bits, counts, Nat.sub_add_cancel fits, total, foldl_useFrame_hint _ p⟩

end Pmm

/-- **Contiguous allocation is sound and complete.** When the counter is the number of clear
bits, `pmm_alloc_contiguous` succeeds exactly when frames are asked for and enough free ones
follow each other somewhere; it returns the lowest such run, takes exactly its frames, and
changes nothing when it fails. -/
theorem alloc_contiguous_lowest_run {p : Pmm} (counter : p.freeFrames = p.freeSet.card)
    (count : BitVec 32) :
    ((pmmAllocContiguous p count).1.isSome = true ↔
      0 < count.toNat ∧ ∃ start, p.FreeRun start count.toNat) ∧
    (∀ phys q, pmmAllocContiguous p count = (some phys, q) → ∃ start, phys = frameAddr start ∧
      p.FreeRun start count.toNat ∧ (∀ other, p.FreeRun other count.toNat → start ≤ other) ∧
      p.RunTaken q start count.toNat) ∧
    ∀ q, pmmAllocContiguous p count = (none, q) → q = p := by
  have zero : count = 0#32 ↔ ¬ 0 < count.toNat := by
    rw [Nat.not_lt, Nat.le_zero]
    exact ⟨fun same => by rw [same]; rfl, fun same => BitVec.eq_of_toNat_eq (by simpa using same)⟩
  unfold pmmAllocContiguous
  split
  · rename_i refused
    refine ⟨⟨(nomatch ·), ?_⟩, fun phys q ran => ?_, fun q ran => ?_⟩
    · rintro ⟨some_, start, run⟩
      have fits := run.count_le counter
      rcases refused with none_ | short
      · exact absurd some_ (zero.mp none_)
      · omega
    · cases (Prod.mk.inj ran).1
    · exact (Prod.mk.inj ran).2.symm
  · rename_i wanted
    rw [not_or, zero, not_not, Nat.not_lt] at wanted
    obtain ⟨some_, fits⟩ := wanted
    have start_ : ∀ s, s + 0 < 0 → p.Blocked count.toNat s := fun s before => by omega
    obtain ⟨lowest, nothing⟩ := @Pmm.scanRun_blocked p _ p.totalFrames 0 0 0 some_
      (fun none_ => absurd none_ (lt_irrefl 0)) start_
    rw [List.range_eq_range']
    split
    · rename_i start found
      obtain ⟨inside, free⟩ := Pmm.scanRun_some (fun none_ => absurd none_ (lt_irrefl 0)) found
      have run : p.FreeRun start count.toNat := ⟨by omega, free⟩
      refine ⟨⟨fun _ => ⟨some_, start, run⟩, fun _ => rfl⟩, fun phys q ran => ?_, fun q ran => ?_⟩
      · obtain ⟨same, rfl⟩ := Prod.mk.inj ran
        refine ⟨start, (Option.some.inj same).symm, run, fun other there => ?_, Pmm.takeRun_taken fits⟩
        by_contra before
        exact there.not_blocked (lowest start found other (by omega))
      · cases (Prod.mk.inj ran).1
    · rename_i found
      refine ⟨⟨(nomatch ·), ?_⟩, fun phys q ran => ?_, fun q ran => ?_⟩
      · rintro ⟨_, start, run⟩
        have inside := run.1
        exact absurd (nothing found start (by omega)) run.not_blocked
      · cases (Prod.mk.inj ran).1
      · exact (Prod.mk.inj ran).2.symm

/-- Two frames in a row of the small map. -/
theorem alloc_contiguous_lowest_run_aligned :
    (poolOf 0x102000#64 alignedMap).freeFrames = (poolOf 0x102000#64 alignedMap).freeSet.card ∧
      (pmmAllocContiguous (poolOf 0x102000#64 alignedMap) 2#32).1.isSome = true := by
  have counter := (poolOf_ok 0x102000#64 alignedMap).1.count
  have first : (poolOf 0x102000#64 alignedMap).frameIsFree 258 = true := by decide +kernel
  have second : (poolOf 0x102000#64 alignedMap).frameIsFree 259 = true := by decide +kernel
  have run : (poolOf 0x102000#64 alignedMap).FreeRun 258 2 := by
    refine ⟨by decide +kernel, fun f low high => ?_⟩
    obtain rfl | rfl : f = 258 ∨ f = 259 := by omega
    · exact first
    · exact second
  exact ⟨counter, (alloc_contiguous_lowest_run counter 2#32).1.mpr ⟨by decide, 258, run⟩⟩

end LithiumKernel.Mm
