import LithiumKernel.Mm.Fork
import LithiumKernel.Mm.Fault

/-!
# User memory in the system calls (kernel/syscall/syscall.c)

Mapping and unmapping of user pages, and writes to user memory: by the kernel through
`copy_to_user`, and by the program itself, where a store to a page that is present and
not writable raises the fault the kernel then handles. A frame is 512 words; a byte is
addressed by its offset in the frame, least significant byte first.
-/
namespace LithiumKernel.Mm

open LithiumKernel.Lib LithiumKernel.Lib.Forest

/-! ## Bytes of a frame -/

abbrev Byte := BitVec 8

abbrev Page := Idx → Word

def blankPage : Page := fun _ => 0#64

def wordOf (off : Nat) : Idx := ⟨off % 4096 / 8, by omega⟩

def getByte (page : Page) (off : Nat) : Byte :=
  (page (wordOf off) >>> (off % 8 * 8)).setWidth 8

def setByte (page : Page) (off : Nat) (b : Byte) : Page :=
  Function.update page (wordOf off)
    ((page (wordOf off) &&& ~~~(0xFF#64 <<< (off % 8 * 8))) ||| (b.setWidth 64 <<< (off % 8 * 8)))

def writeByte (phys : Word) (b : Byte) : MmM Unit := fun s =>
  let f := phys.toNat / pmmFrameSize
  .ok () { s with mem := Function.update s.mem f (setByte (s.mem f) (phys.toNat % pmmFrameSize) b) }

/-- `memcpy` to a physical address. -/
def writeBytes : Word → List Byte → MmM Unit
  | _, [] => pure ()
  | phys, b :: rest => do
    writeByte phys b
    writeBytes (phys + 1#64) rest

/-! ## Pages -/

/-- `vmm_map_page` for a frame that is given back if it fails. -/
def mapOrFree (pml4 : Nat) (virt phys flags : Word) : MmM Bool := do
  if ← vmmMapPage pml4 virt phys flags then pure true
  else
    freeFrame phys
    pure false

def mapUserZeroPage (pml4 : Nat) (virt flags : Word) : MmM Bool := do
  match ← allocFrame with
  | none => pure false
  | some phys =>
    zeroFrame (frameOf phys)
    mapOrFree pml4 virt phys flags

def unmapUserPage (pml4 : Nat) (virt : Word) : MmM Unit := do
  let mem := (← get).mem
  if vmmGetFlags mem pml4 virt &&& presentUser ≠ presentUser then pure ()
  else
    let phys := vmmGetPhysical mem pml4 virt
    vmmUnmapPage pml4 virt
    match phys with
    | none => pure ()
    | some p => freeFrame (alignDown p pageSize)

/-! ## Copying to the user -/

/-- The part of `user_page_for_copy` for writes: a copy-on-write page is made writable. -/
def ensureWritable (addr flags : Word) : MmM Bool :=
  if flags &&& vmmWrite ≠ 0#64 then pure true
  else if flags &&& vmmCow = 0#64 then pure false
  else do
    if ← vmmHandlePageFault addr (vmmPresent ||| vmmWrite ||| vmmUser) then
      let s ← get
      pure (vmmGetFlags s.mem s.cr3 (alignDown addr pageSize) &&& vmmWrite ≠ 0#64)
    else pure false

/-- `user_page_for_copy` with `write` set; `none` stands for `-EFAULT`. -/
def userPageForCopy (addr : Word) : MmM (Option Word) := do
  if addr = 0#64 ∨ userSpaceTop ≤ addr then pure none
  else
    let s ← get
    let flags := vmmGetFlags s.mem s.cr3 (alignDown addr pageSize)
    if flags &&& presentUser ≠ presentUser then pure none
    else
      if ← ensureWritable addr flags then
        let s ← get
        pure (vmmGetPhysical s.mem s.cr3 addr)
      else pure none

/-- The loop of `copy_user_bytes` towards the user, with what it returns and how many
bytes went over. Every round copies at least one byte, so `src.length` rounds suffice. -/
def copyToUserLoop (user : Word) (src : List Byte) : Nat → Nat → MmM (Bool × Nat)
  | 0, done => pure (true, done)
  | fuel + 1, done =>
    if done < src.length then do
      let cur := user + BitVec.ofNat 64 done
      match ← userPageForCopy cur with
      | none => pure (false, done)
      | some phys =>
        let n := min (4096 - cur.toNat % 4096) (src.length - done)
        writeBytes phys ((src.drop done).take n)
        copyToUserLoop user src fuel (done + n)
    else pure (true, done)

def copyToUser (user : Word) (src : List Byte) : MmM (Bool × Nat) :=
  if src.length = 0 then pure (true, 0)
  else if user = 0#64 ∨ userSpaceTop ≤ user ∨
      userSpaceTop.toNat - user.toNat < src.length then pure (false, 0)
  else copyToUserLoop user src src.length 0

/-! ## Stores by the program -/

/-- The error code of a write fault in user mode. -/
def writeFaultCode (flags : Word) : Word := (flags &&& vmmPresent) ||| vmmWrite ||| vmmUser

/-- The processor performs a user store when the page is present, user and writable. -/
def storeDirect (addr : Word) (b : Byte) : MmM Bool := do
  let s ← get
  if vmmGetFlags s.mem s.cr3 addr &&& presentUserWrite = presentUserWrite then
    match vmmGetPhysical s.mem s.cr3 addr with
    | none => pure false
    | some phys =>
      writeByte phys b
      pure true
  else pure false

/-- A store of one byte in user mode: if it faults, it is repeated once the fault has
been handled. -/
def userStore (addr : Word) (b : Byte) : MmM Bool := do
  if ← storeDirect addr b then pure true
  else
    let s ← get
    if ← vmmHandlePageFault addr (writeFaultCode (vmmGetFlags s.mem s.cr3 addr)) then
      storeDirect addr b
    else pure false

/-- A load of one byte in user mode. -/
def userLoad (mem : PhysMem) (root : Nat) (addr : Word) : Option Byte :=
  if vmmGetFlags mem root addr &&& presentUser = presentUser then
    (vmmGetPhysical mem root addr).map fun phys =>
      getByte (mem (phys.toNat / pmmFrameSize)) (phys.toNat % pmmFrameSize)
  else none

/-! ## Bytes of a page -/

theorem getByte_blank (i : Nat) : getByte (fun _ => 0#64) i = 0#8 := by
  simp [getByte]

theorem getByte_bit (page : Page) (off j : Nat) (lt : j < 8) :
    (getByte page off).getLsbD j = (page (wordOf off)).getLsbD (off % 8 * 8 + j) := by
  rw [getByte, BitVec.getLsbD_setWidth, BitVec.getLsbD_ushiftRight]
  simp [lt]

theorem setByte_bit (page : Page) (off : Nat) (b : Byte) (j : Nat) (lt : j < 64) :
    (setByte page off b (wordOf off)).getLsbD j =
      if off % 8 * 8 ≤ j ∧ j < off % 8 * 8 + 8 then b.getLsbD (j - off % 8 * 8)
      else (page (wordOf off)).getLsbD j := by
  have mask : ∀ k, (0xFF#64 : Word).getLsbD k = decide (k < 8) := by
    intro k
    rw [show (0xFF#64 : Word) = BitVec.ofNat 64 (2 ^ 8 - 1) from rfl, BitVec.getLsbD_ofNat,
      Nat.testBit_two_pow_sub_one]
    by_cases small : k < 8
    · simp [small]
      omega
    · simp [small]
  rw [setByte, Function.update_self, BitVec.getLsbD_or, BitVec.getLsbD_and, BitVec.getLsbD_not,
    BitVec.getLsbD_shiftLeft, BitVec.getLsbD_shiftLeft, mask, BitVec.getLsbD_setWidth]
  by_cases below : j < off % 8 * 8
  · rw [if_neg (by omega)]
    simp [lt, below]
  · by_cases inside : j < off % 8 * 8 + 8
    · have near : j - off % 8 * 8 < 8 := by omega
      have near' : j - off % 8 * 8 < 64 := by omega
      rw [if_pos (by omega)]
      simp [lt, below, near, near']
    · have far : ¬ j - off % 8 * 8 < 8 := by omega
      rw [if_neg (by omega), BitVec.getLsbD_of_ge b _ (by omega)]
      simp [lt, below, far]

theorem getByte_setByte (page : Page) (off off' : Nat) (b : Byte) :
    getByte (setByte page off b) off' =
      if off' % 4096 = off % 4096 then b else getByte page off' := by
  apply BitVec.eq_of_getLsbD_eq
  intro j lt
  rw [getByte_bit _ _ _ lt]
  by_cases word : wordOf off' = wordOf off
  · have same : off' % 4096 / 8 = off % 4096 / 8 := congrArg Fin.val word
    rw [word, setByte_bit _ _ _ _ (by omega)]
    by_cases here : off' % 4096 = off % 4096
    · rw [if_pos here, if_pos (by omega)]
      congr 1
      omega
    · rw [if_neg here, if_neg (by omega), getByte_bit _ _ _ lt, word]
  · have here : off' % 4096 ≠ off % 4096 := by
      intro same
      exact word (Fin.ext (by change off' % 4096 / 8 = off % 4096 / 8; rw [same]))
    rw [if_neg here, setByte, Function.update_of_ne word, getByte_bit _ _ _ lt]

/-! ## Specifications -/

variable {k : Nat} {s s' : MemState} {g g' : SpaceGhost}

/-- A frame is taken from the pool and filled before it is mapped. -/
theorem Vm.fresh (h : Vm k s g) {f : Nat} {q : Pmm} (lt : f < s.pmm.totalFrames)
    (zero : s.pmm.refcount f = 0) (evolves : s.pmm.Evolves q)
    (counts : q.refcount = Function.update s.pmm.refcount f 1) (page : Page) :
    Grow s g { s with pmm := q, mem := Function.update s.mem f page }
        ⟨g.role, g.leaf, Function.update g.ext f (g.ext f + 1)⟩ ∧
      Vm k { s with pmm := q, mem := Function.update s.mem f page }
        ⟨g.role, g.leaf, Function.update g.ext f (g.ext f + 1)⟩ := by
  have free := (h.wf.unused lt zero).1
  have acquired : Vm k { s with pmm := q }
      ⟨g.role, g.leaf, Function.update g.ext f (g.ext f + 1)⟩ := by
    refine ⟨evolves.ok, ?_⟩
    change (spaceLayout k).WF q.totalFrames q.refcount s.mem _
    rw [evolves.total, counts]
    exact h.wf.acquire lt zero
  refine ⟨⟨evolves, rfl, rfl, fun role => role, ?_, ?_⟩, acquired.blank free page⟩
  · intro f' free' used
    have ne : f' ≠ f := by
      rintro rfl
      omega
    refine ⟨free', ?_, Function.update_of_ne ne _ _⟩
    change s.pmm.refcount f' ≤ q.refcount f'
    rw [counts, Function.update_of_ne ne]
  · intro t o p i role _
    have ne : t ≠ f := by
      rintro rfl
      rw [free] at role
      cases role
    exact congrFun (Function.update_of_ne ne _ _) i

/-- A frame that was taken on the way is given back. -/
theorem Grow.returned {f : Nat} {q : Pmm} {ext : Nat → Nat} (grown : Grow s g s' g')
    (zero : s.pmm.refcount f = 0) (evolves : s'.pmm.Evolves q)
    (counts : q.refcount = Function.update s'.pmm.refcount f (s'.pmm.refcount f - 1)) :
    Grow s g { s' with pmm := q } ⟨g'.role, g'.leaf, ext⟩ where
  evolves := grown.evolves.trans evolves
  cr3 := grown.cr3
  heap := grown.heap
  tables := grown.tables
  data := by
    intro f' free used
    obtain ⟨free', le, same⟩ := grown.data free used
    have ne : f' ≠ f := by
      rintro rfl
      omega
    refine ⟨free', ?_, same⟩
    change s.pmm.refcount f' ≤ q.refcount f'
    rwa [counts, Function.update_of_ne ne]
  foreign := grown.foreign

/-- The leaf `x` now maps a frame fresh from the pool, filled with `page`. A leaf that
was there before is lost, and its reference with it. -/
def FreshLeaf (s : MemState) (g : SpaceGhost) (x : Owner × List Idx) (flags : Word) (page : Page)
    (s' : MemState) (g' : SpaceGhost) : Prop :=
  ∃ f, f < s.pmm.totalFrames ∧ s.pmm.refcount f = 0 ∧ s'.mem f = page ∧
    g'.leaf = Function.update g.leaf x (leafEntry (frameAddr f) flags) ∧
    ∀ f', g'.ext f' = g.ext f' + (if g.leaf x ≠ 0#64 ∧ frameOf (g.leaf x) = f' then 1 else 0)

structure FreshResult (k : Nat) (s : MemState) (g : SpaceGhost) (x : Owner × List Idx)
    (flags : Word) (page : Page) (done : Bool) (s' : MemState) (g' : SpaceGhost) : Prop
    extends Grow s g s' g' where
  vm : Vm k s' g'
  live : ∀ o, (spaceLayout k).Live g' o ↔ (spaceLayout k).Live g o
  effect : if done then FreshLeaf s g x flags page s' g' else g'.leaf = g.leaf ∧ g'.ext = g.ext

/-- The other leaves stay. -/
theorem FreshResult.others {x y : Owner × List Idx} {flags : Word} {page : Page} {done : Bool}
    (result : FreshResult k s g x flags page done s' g') (other : y ≠ x) :
    g'.leaf y = g.leaf y := by
  have effect := result.effect
  cases done with
  | false => rw [effect.1]
  | true =>
    obtain ⟨f, _, _, _, leaf, _⟩ := effect
    rw [leaf, Function.update_of_ne other]

/-- No outside reference is given up. -/
theorem FreshResult.ext_le {x : Owner × List Idx} {flags : Word} {page : Page} {done : Bool}
    (result : FreshResult k s g x flags page done s' g') (f : Nat) : g.ext f ≤ g'.ext f := by
  have effect := result.effect
  cases done with
  | false => rw [effect.2]
  | true =>
    obtain ⟨_, _, _, _, _, ext⟩ := effect
    rw [ext]
    exact Nat.le_add_right _ _

theorem mapOrFree_spec (h : Vm k s g) {f r : Nat} {q : Pmm} {v flags : Word}
    {x : Owner × List Idx} (lt : f < s.pmm.totalFrames)
    (zero : s.pmm.refcount f = 0) (evolves : s.pmm.Evolves q)
    (counts : q.refcount = Function.update s.pmm.refcount f 1) (page : Page)
    (mapped : wp (vmmMapPage r v (frameAddr f) flags) (fun done s' => ∃ g',
      MapResult k { s with pmm := q, mem := Function.update s.mem f page }
        ⟨g.role, g.leaf, Function.update g.ext f (g.ext f + 1)⟩ x
        (leafEntry (frameAddr f) flags) done s' g') Saturated
      { s with pmm := q, mem := Function.update s.mem f page }) :
    wp (mapOrFree r v (frameAddr f) flags) (fun done s' => ∃ g',
      FreshResult k s g x flags page done s' g' ∧ g'.role f = none) Saturated
      { s with pmm := q, mem := Function.update s.mem f page } := by
  obtain ⟨free, _, noExt⟩ := h.wf.unused lt zero
  obtain ⟨taken, held⟩ := h.fresh lt zero evolves counts page
  unfold mapOrFree
  refine wp_seq mapped ?_
  rintro done s' ⟨g', result⟩
  have grown := taken.trans result.toGrow
  have one : 0 < q.refcount f := by
    rw [counts, Function.update_self]
    decide
  obtain ⟨data, _, same⟩ := result.data (f := f) free one
  apply wp_ite
  · rintro rfl
    obtain ⟨leaf, balance⟩ := result.effect
    refine ⟨g', ⟨grown, result.vm, result.live, f, lt, zero, ?_, leaf, ?_⟩, data⟩
    · exact same.trans (Function.update_self ..)
    · intro f'
      have even := balance f'
      dsimp only at even
      rw [leafEntry_frame (h.frame_small lt)] at even
      by_cases here : f = f'
      · subst here
        rw [if_pos rfl, Function.update_self] at even
        omega
      · rwa [if_neg here, Function.update_of_ne (Ne.symm here), Nat.add_zero] at even
  · intro failed
    obtain rfl : done = false := by simpa using failed
    obtain ⟨leaf, ext⟩ := result.effect
    have ltNow : f < s'.pmm.totalFrames := by
      rw [grown.evolves.total]
      exact lt
    have heldNow : 0 < g'.ext f := by
      rw [ext]
      simp
    rw [wp_bind]
    apply freeFrame_spec result.vm.ok ltNow (result.vm.rc_pos_of_ext ltNow heldNow)
    intro q' evolves' counts'
    have dropped := result.vm.dropHeld ltNow heldNow evolves' counts'
    have restored : Function.update g'.ext f (g'.ext f - 1) = g.ext := by
      rw [ext]
      simp
    rw [restored] at dropped
    exact ⟨_, ⟨grown.returned zero evolves' counts', dropped, result.live, leaf, rfl⟩, data⟩

theorem mapUserZeroPage_spec (h : Vm k s g) {r : Nat} {v flags : Word}
    (live : (spaceLayout k).Live g (.user r)) (page : UserPage v)
    (user : flags.getLsbD 2 = true) :
    wp (mapUserZeroPage r v flags) (fun done s' => ∃ g',
      FreshResult k s g (.user r, pagePath v) flags blankPage done s' g') Saturated s := by
  unfold mapUserZeroPage
  rw [wp_bind]
  apply allocFrame_spec h
  · intro _
    exact ⟨g, .refl h.ok rfl, h, fun _ => Iff.rfl, rfl, rfl⟩
  · intro f q lt zero evolves counts _
    have held := (h.fresh lt zero evolves counts blankPage).2
    rw [wp_bind, wp_zeroFrame, frameOf_frameAddr (h.frame_small lt)]
    refine wp_imp (mapOrFree_spec h lt zero evolves counts blankPage
      (vmmMapPage_spec held live page (by change f < q.totalFrames; rwa [evolves.total])
        (by simp) user)) ?_
    rintro done s' ⟨g', result, _⟩
    exact ⟨g', result⟩

/-- The leaf `x` is gone and its frame was given back. -/
structure Unmapped (k : Nat) (x : Owner × List Idx) (s : MemState) (g : SpaceGhost)
    (s' : MemState) (g' : SpaceGhost) : Prop extends Keep s g s' g' where
  vm : Vm k s' g'
  ext : g'.ext = g.ext
  live : ∀ o, (spaceLayout k).Live g' o ↔ (spaceLayout k).Live g o
  leaf : g'.leaf = Function.update g.leaf x 0#64

/-- Clearing a leaf and giving back the frame it named. -/
theorem Vm.unmapLeaf (h : Vm k s g) {t : Nat} {o : Owner} {p : List Idx} {i : Idx} {q : Pmm}
    (at_t : g.role t = some (o, p)) (full : p.length = 3) (own : ownsSlot o p i)
    (filled : s.mem t i ≠ 0#64) (evolves : s.pmm.Evolves q)
    (counts : q.refcount = Function.update s.pmm.refcount (frameOf (s.mem t i))
      (s.pmm.refcount (frameOf (s.mem t i)) - 1)) :
    Unmapped k (o, i :: p) s g { s with pmm := q, mem := store s.mem t i 0#64 }
      ⟨g.role, Function.update g.leaf (o, i :: p) 0#64, g.ext⟩ := by
  have leaf := h.wf.leaf_mem at_t full own
  obtain ⟨_, lt, data, _⟩ := h.leaf_facts (x := (o, i :: p)) (by rwa [leaf])
  rw [leaf] at lt data
  have cleared := h.clearLeaf at_t full own filled
  have dropped := cleared.dropHeld (f := frameOf (s.mem t i)) lt (by simp) evolves counts
  refine ⟨⟨evolves, rfl, rfl, fun role => role, ?_, ?_⟩, ?_, rfl, fun _ => Iff.rfl, rfl⟩
  · intro f free _
    have ne : f ≠ t := by
      rintro rfl
      rw [free] at at_t
      cases at_t
    exact ⟨free, store_frame _ _ _ ne⟩
  · intro t' o' p' i' role foreign
    apply store_of_ne
    rintro ⟨rfl, rfl⟩
    rw [at_t] at role
    obtain ⟨rfl, rfl⟩ := Prod.mk.inj (Option.some.inj role)
    exact foreign own
  · simpa using dropped

/-- The entry of a mapped page is cleared and its frame gives up one reference; nothing else
changes. -/
structure Cleared (k : Nat) (r : Nat) (v : Word) (s : MemState) (g : SpaceGhost) (s' : MemState)
    (g' : SpaceGhost) : Prop extends Unmapped k (.user r, pagePath v) s g s' g' where
  role : g'.role = g.role
  mem : ∃ t, g.role t = some (.user r, [pdIdx v, pdptIdx v, pml4Idx v]) ∧
    s'.mem = store s.mem t (ptIdx v) 0#64
  counts : s'.pmm.refcount = Function.update s.pmm.refcount
    (frameOf (g.leaf (.user r, pagePath v)))
    (s.pmm.refcount (frameOf (g.leaf (.user r, pagePath v))) - 1)

theorem unmapUserPage_cleared (h : Vm k s g) {r : Nat} {v : Word}
    {halt : Kassert → MemState → Prop} (live : (spaceLayout k).Live g (.user r))
    (page : UserPage v) (filled : g.leaf (.user r, pagePath v) ≠ 0#64) :
    wp (unmapUserPage r v) (fun _ s' => ∃ g', Cleared k r v s g s' g') halt s := by
  have flags := vmmGetFlags_user h live page
  have phys := vmmGetPhysical_user h live page
  obtain ⟨ok, lt, _, pos⟩ := h.leaf_facts filled
  have both : ¬ vmmGetFlags s.mem r v &&& presentUser ≠ presentUser := by
    rw [not_not, flags, and_presentUser, and_not_physMask_low _ (by decide),
      and_not_physMask_low _ (by decide)]
    exact leafOk_user_iff.mp ok
  unfold unmapUserPage
  rw [wp_bind, wp_get]
  dsimp only
  rw [if_neg both, wp_bind]
  refine vmmUnmapPage_user h live page (fun no => absurd no filled) ?_
  intro t at_t leaf entry
  rw [phys, if_neg filled]
  dsimp only
  rw [alignDown_phys]
  refine freeFrame_spec (s := { s with mem := store s.mem t (ptIdx v) 0#64 }) h.ok lt pos ?_
  intro q evolves counts
  refine ⟨⟨g.role, Function.update g.leaf (.user r, pagePath v) 0#64, g.ext⟩, ?_, rfl,
    ⟨t, at_t, rfl⟩, counts⟩
  rw [leaf] at counts
  exact h.unmapLeaf at_t rfl trivial entry evolves counts

theorem unmapUserPage_spec (h : Vm k s g) {r : Nat} {v : Word}
    (live : (spaceLayout k).Live g (.user r)) (page : UserPage v) :
    wp (unmapUserPage r v) (fun _ s' => ∃ g', Unmapped k (.user r, pagePath v) s g s' g')
      Saturated s := by
  by_cases empty : g.leaf (.user r, pagePath v) = 0#64
  · have same : Function.update g.leaf (.user r, pagePath v) 0#64 = g.leaf := by
      rw [← empty, Function.update_eq_self]
    unfold unmapUserPage
    rw [wp_bind, wp_get]
    dsimp only
    rw [vmmGetFlags_user h live page, empty, if_pos (by decide)]
    exact ⟨g, ⟨.refl h.ok, rfl, rfl, fun x => x, fun free _ => ⟨free, rfl⟩, fun _ _ => rfl⟩, h, rfl,
      fun _ => Iff.rfl, same.symm⟩
  · refine wp_imp (unmapUserPage_cleared h live page empty) ?_
    rintro _ s' ⟨g', gone⟩
    exact ⟨g', gone.toUnmapped⟩

/-! ## Writes -/

/-- The page at `x` is writable now: it was so before, or a fault has been resolved. -/
def MadeWritable (k : Nat) (x : Owner × List Idx) (s : MemState) (g : SpaceGhost) (s' : MemState)
    (g' : SpaceGhost) : Prop :=
  (s' = s ∧ g' = g ∨ ∃ f, Resolved k x f s g s' g') ∧
    (g'.leaf x).getLsbD 0 = true ∧ (g'.leaf x).getLsbD 1 = true

/-- The byte at `addr` of the frame `f` has been written. -/
def written (s : MemState) (f : Nat) (addr : Word) (b : Byte) : MemState :=
  { s with mem := Function.update s.mem f (setByte (s.mem f) (addr.toNat % 4096) b) }

/-- A byte written through the physical address of a page. -/
theorem wp_writeByte (e v : Word) (b : Byte) {post : Unit → MemState → Prop}
    {halt : Kassert → MemState → Prop} :
    wp (writeByte ((e &&& vmmPhysMask) ||| (v &&& 0xFFF#64)) b) post halt s ↔
      post () (written s (frameOf e) v b) := by
  rw [wp, writeByte, written, phys_frame, phys_offset]

/-- `memcpy` into one frame: the bytes stand where they were put, and nothing else has
changed. -/
theorem writeBytes_contents {halt : Kassert → MemState → Prop} {f : Nat} (small : f < 2 ^ 40)
    {bytes : List Byte} : ∀ (off : Nat) {s : MemState}, off + bytes.length ≤ 4096 →
    wp (writeBytes (frameAddr f + BitVec.ofNat 64 off) bytes) (fun _ s' =>
      ∃ page, s' = { s with mem := Function.update s.mem f page } ∧ ∀ i, i < 4096 →
        getByte page i = if off ≤ i ∧ i < off + bytes.length then bytes.getD (i - off) 0#8
          else getByte (s.mem f) i) halt s := by
  induction bytes with
  | nil =>
    intro off s _
    refine ⟨s.mem f, by rw [Function.update_eq_self], fun i _ => ?_⟩
    rw [if_neg (by simp)]
  | cons b rest ih =>
    intro off s room
    rw [List.length_cons] at room
    have addr : (frameAddr f + BitVec.ofNat 64 off).toNat = f * 4096 + off := by
      have base : (frameAddr f).toNat = f * 4096 := frameAddr_toNat small
      rw [BitVec.toNat_add, BitVec.toNat_ofNat, base]
      omega
    have here : (frameAddr f + BitVec.ofNat 64 off).toNat / pmmFrameSize = f := by
      rw [addr, pmmFrameSize]
      omega
    have inside : (frameAddr f + BitVec.ofNat 64 off).toNat % pmmFrameSize = off := by
      rw [addr, pmmFrameSize]
      omega
    have next : frameAddr f + BitVec.ofNat 64 off + 1#64 =
        frameAddr f + BitVec.ofNat 64 (off + 1) := by
      rw [BitVec.add_assoc, BitVec.ofNat_add]
    rw [writeBytes, wp_bind, next]
    change wp _ _ _ { s with mem := Function.update s.mem _ _ }
    rw [here, inside]
    refine wp_imp (ih (off + 1) (by omega)) ?_
    rintro _ s' ⟨page, rfl, bytes⟩
    refine ⟨page, by rw [Function.update_idem], fun i lt => ?_⟩
    rw [bytes i lt, List.length_cons]
    dsimp only
    rw [Function.update_self, getByte_setByte]
    rcases Nat.lt_trichotomy i off with before | rfl | after
    · rw [if_neg (by omega), if_neg (by omega), if_neg (by omega)]
    · rw [if_neg (by omega), if_pos rfl, if_pos (by omega), Nat.sub_self]
      rfl
    · rw [if_neg (show ¬ i % 4096 = off % 4096 by omega)]
      by_cases copied : i < off + 1 + rest.length
      · rw [if_pos (by omega), if_pos (by omega), show i - off = i - (off + 1) + 1 by omega,
          List.getD_cons_succ]
      · rw [if_neg (by omega), if_neg (by omega)]

/-- `memcpy` into one frame changes nothing else. -/
theorem writeBytes_within {halt : Kassert → MemState → Prop} {f : Nat} (small : f < 2 ^ 40)
    {bytes : List Byte} (off : Nat) {s : MemState} (room : off + bytes.length ≤ 4096) :
    wp (writeBytes (frameAddr f + BitVec.ofNat 64 off) bytes) (fun _ s' =>
      ∃ page, s' = { s with mem := Function.update s.mem f page }) halt s := by
  refine wp_imp (writeBytes_contents small off room) ?_
  rintro _ s' ⟨page, same, _⟩
  exact ⟨page, same⟩

theorem Resolved.madeWritable {x : Owner × List Idx} {f : Nat} {r : Nat} (owner : x.1 = .user r)
    (h : Vm k s g) (resolved : Resolved k x f s g s' g') : MadeWritable k x s g s' g' := by
  have filled : g.leaf x ≠ 0#64 := ne_zero_of_bit resolved.cow
  have ok := (h.leaf_facts filled).1
  rw [owner, leafOk_user_iff] at ok
  refine ⟨.inr ⟨f, resolved⟩, ?_, ?_⟩
  · rw [resolved.leaf, Function.update_self, writable_low _ _ (by decide)]
    simp [ok.1]
  · rw [resolved.leaf, Function.update_self, writable_low _ _ (by decide)]
    simp

section Writes

variable {addr : Word} {b : Byte} {halt : Kassert → MemState → Prop}

theorem storeDirect_spec (h : Vm k s g) (live : (spaceLayout k).Live g (.user s.cr3))
    (page : UserPage addr) {post : Bool → MemState → Prop}
    (stored : (g.leaf (.user s.cr3, pagePath addr)).getLsbD 0 = true →
      (g.leaf (.user s.cr3, pagePath addr)).getLsbD 1 = true →
      post true (written s (frameOf (g.leaf (.user s.cr3, pagePath addr))) addr b))
    (refused : g.leaf (.user s.cr3, pagePath addr) = 0#64 ∨
      (g.leaf (.user s.cr3, pagePath addr)).getLsbD 1 = false → post false s) :
    wp (storeDirect addr b) post halt s := by
  have flags := vmmGetFlags_user h live page
  have phys := vmmGetPhysical_user h live page
  unfold storeDirect
  rw [wp_bind, wp_get]
  apply wp_ite
  · intro all
    rw [flags, and_presentUserWrite, and_not_physMask_low _ (by decide),
      and_not_physMask_low _ (by decide), and_not_physMask_low _ (by decide)] at all
    rw [phys, if_neg (ne_zero_of_bit all.1)]
    dsimp only
    rw [wp_bind, wp_writeByte]
    exact stored all.1 all.2.2
  · intro missing
    refine refused ?_
    by_cases empty : g.leaf (.user s.cr3, pagePath addr) = 0#64
    · exact .inl empty
    · obtain ⟨present, user⟩ := leafOk_user_iff.mp (h.leaf_facts empty).1
      rw [flags, and_presentUserWrite, and_not_physMask_low _ (by decide),
        and_not_physMask_low _ (by decide), and_not_physMask_low _ (by decide)] at missing
      right
      by_contra write
      exact missing ⟨present, user, by simpa using write⟩

theorem userStore_spec (h : Vm k s g) (live : (spaceLayout k).Live g (.user s.cr3))
    (page : UserPage addr) :
    wp (userStore addr b) (fun done s' =>
      if done then ∃ s₁ g₁, MadeWritable k (.user s.cr3, pagePath addr) s g s₁ g₁ ∧
        s' = written s₁ (frameOf (g₁.leaf (.user s.cr3, pagePath addr))) addr b
      else s' = s) Saturated s := by
  unfold userStore
  rw [wp_bind]
  apply storeDirect_spec h live page
  · intro present write
    exact ⟨s, g, ⟨.inl ⟨rfl, rfl⟩, present, write⟩, rfl⟩
  intro _
  rw [if_neg (by decide), wp_bind, wp_get]
  refine wp_seq (vmmHandlePageFault_spec h live page) ?_
  rintro (_ | _) s₁ outcome
  · exact outcome.1
  obtain ⟨f, g₁, resolved⟩ := outcome
  have ready := resolved.madeWritable rfl h
  rw [← resolved.cr3] at ready ⊢
  apply storeDirect_spec resolved.vm
    (by rw [resolved.cr3]; exact (resolved.live _).mpr live) page
  · intro _ _
    exact ⟨s₁, g₁, ready, rfl⟩
  · rintro (empty | readOnly)
    · exact absurd empty (ne_zero_of_bit ready.2.1)
    · rw [ready.2.2] at readOnly
      cases readOnly

theorem writeFaultCode_present {flags : Word} (present : flags.getLsbD 0 = true) :
    writeFaultCode flags &&& 0x3#64 = 0x3#64 := by
  have bit : flags &&& vmmPresent = vmmPresent := by
    apply BitVec.eq_of_getLsbD_eq
    intro j lt
    rw [BitVec.getLsbD_and, vmmPresent, getLsbD_bit _ _ lt]
    by_cases zero : j = 0
    · subst zero
      simpa using present
    · simp [zero]
  rw [writeFaultCode, bit]
  decide

/-- A store to a page that is writable or copy-on-write succeeds if nobody else uses its frame,
and then without a change to the pool, or if the pool has a frame. -/
theorem userStore_accepted (h : Vm k s g) (live : (spaceLayout k).Live g (.user s.cr3))
    (page : UserPage addr) (below : addr < userSpaceTop)
    (filled : g.leaf (.user s.cr3, pagePath addr) ≠ 0#64)
    (open_ : (g.leaf (.user s.cr3, pagePath addr)).getLsbD 1 = true ∨
      (g.leaf (.user s.cr3, pagePath addr)).getLsbD 9 = true)
    (room : s.pmm.refcount (frameOf (g.leaf (.user s.cr3, pagePath addr))) = 1 ∨
      (pmmAllocFrame s.pmm).1 ≠ none) :
    wp (userStore addr b) (fun done s' => done = true ∧
      (s.pmm.refcount (frameOf (g.leaf (.user s.cr3, pagePath addr))) = 1 → s'.pmm = s.pmm))
      Saturated s := by
  obtain ⟨present, user⟩ := leafOk_user_iff.mp (h.leaf_facts filled).1
  unfold userStore
  rw [wp_bind]
  apply storeDirect_spec h live page
  · intro _ _
    exact ⟨rfl, fun _ => rfl⟩
  intro refused
  have readOnly := refused.resolve_left filled
  have cow : (g.leaf (.user s.cr3, pagePath addr)).getLsbD 9 = true := by
    rcases open_ with write | cow
    · rw [readOnly] at write
      cases write
    · exact cow
  have all := (and_presentUserCow _).mpr ⟨present, user, cow⟩
  have fault : writeFaultCode (vmmGetFlags s.mem s.cr3 addr) &&& 0x3#64 = 0x3#64 := by
    apply writeFaultCode_present
    rwa [vmmGetFlags_user h live page, and_not_physMask_low _ (by decide)]
  rw [if_neg (by decide), wp_bind, wp_get]
  have handled : wp (vmmHandlePageFault addr (writeFaultCode (vmmGetFlags s.mem s.cr3 addr)))
      (fun done s' => done = true ∧ (s.pmm.refcount (frameOf (g.leaf (.user s.cr3,
        pagePath addr))) = 1 → s'.pmm = s.pmm) ∧
        ∃ f g', Resolved k (.user s.cr3, pagePath addr) f s g s' g') Saturated s := by
    by_cases one : s.pmm.refcount (frameOf (g.leaf (.user s.cr3, pagePath addr))) = 1
    · refine wp_imp (wp_and (vmmHandlePageFault_spec h live page)
        (@vmmHandlePageFault_sole k s g Saturated h live addr _ page fault below all (by omega))) ?_
      rintro _ s' ⟨resolved, rfl, same⟩
      exact ⟨rfl, fun _ => same, resolved⟩
    · refine wp_imp (vmmHandlePageFault_spec h live page) ?_
      rintro (_ | _) s' outcome
      · rcases outcome.2 with (other | high) | other | none_
        · exact absurd fault other
        · exact absurd below (BitVec.not_lt.mpr high)
        · exact absurd all other
        · exact absurd none_ (room.resolve_left one)
      · exact ⟨rfl, fun alone => absurd alone one, outcome⟩
  refine wp_seq handled ?_
  rintro _ s₁ ⟨rfl, same, f, g₁, resolved⟩
  have ready := resolved.madeWritable rfl h
  rw [if_pos rfl]
  rw [← resolved.cr3] at ready
  apply storeDirect_spec resolved.vm
    (by rw [resolved.cr3]; exact (resolved.live _).mpr live) page
  · intro _ _
    exact ⟨rfl, same⟩
  · rintro (empty | readOnly)
    · exact absurd empty (ne_zero_of_bit ready.2.1)
    · rw [ready.2.2] at readOnly
      cases readOnly

/-- The page at `x` can be written: it was writable, or its sharing has been broken. -/
def Opened (k : Nat) (x : Owner × List Idx) (s : MemState) (g : SpaceGhost) (s' : MemState)
    (g' : SpaceGhost) : Prop :=
  (g.leaf x).getLsbD 1 = true ∧ s' = s ∧ g' = g ∨
    (g.leaf x).getLsbD 1 = false ∧ ∃ f, Broken k x f s g s' g'

theorem Opened.madeWritable {x : Owner × List Idx} {r : Nat} (owner : x.1 = .user r)
    (h : Vm k s g) (filled : g.leaf x ≠ 0#64) (opened : Opened k x s g s' g') :
    MadeWritable k x s g s' g' := by
  rcases opened with ⟨write, rfl, rfl⟩ | ⟨_, f, broken⟩
  · have ok := (h.leaf_facts filled).1
    rw [owner, leafOk_user_iff] at ok
    exact ⟨.inl ⟨rfl, rfl⟩, ok.1, write⟩
  · exact broken.toResolved.madeWritable owner h

theorem Opened.keep {x : Owner × List Idx} (h : Vm k s g) (opened : Opened k x s g s' g') :
    Vm k s' g' ∧ s'.cr3 = s.cr3 ∧
      ∀ o, (spaceLayout k).Live g' o ↔ (spaceLayout k).Live g o := by
  rcases opened with ⟨_, rfl, rfl⟩ | ⟨_, f, broken⟩
  · exact ⟨h, rfl, fun _ => Iff.rfl⟩
  · exact ⟨broken.vm, broken.cr3, broken.live⟩

/-- A leaf that cannot be made writable: it is neither writable nor copy-on-write, or it is
shared and the pool is empty. -/
def Shut (p : Pmm) (e : Word) : Prop :=
  e.getLsbD 1 = false ∧ (e.getLsbD 9 = false ∨ 1 < p.refcount (frameOf e) ∧ p.freeFrames = 0)

theorem ensureWritable_spec (h : Vm k s g) (live : (spaceLayout k).Live g (.user s.cr3))
    (page : UserPage addr) (below : addr < userSpaceTop)
    (filled : g.leaf (.user s.cr3, pagePath addr) ≠ 0#64) :
    wp (ensureWritable addr (g.leaf (.user s.cr3, pagePath addr) &&& ~~~vmmPhysMask))
      (fun done s' => if done then ∃ g', Opened k (.user s.cr3, pagePath addr) s g s' g'
        else s' = s ∧ Shut s.pmm (g.leaf (.user s.cr3, pagePath addr))) halt s := by
  unfold ensureWritable
  apply wp_ite
  · intro write
    rw [ne_eq, and_write, and_not_physMask_low _ (by decide), Bool.not_eq_false] at write
    exact ⟨g, .inl ⟨write, rfl, rfl⟩⟩
  intro readOnly
  rw [not_not, and_write, and_not_physMask_low _ (by decide)] at readOnly
  apply wp_ite
  · intro plain
    rw [and_cow, and_not_physMask_low _ (by decide)] at plain
    exact ⟨rfl, readOnly, .inl plain⟩
  intro cow
  rw [and_cow, and_not_physMask_low _ (by decide), Bool.not_eq_false] at cow
  obtain ⟨present, user⟩ := leafOk_user_iff.mp (h.leaf_facts filled).1
  refine wp_seq (vmmHandlePageFault_broken h live page) ?_
  rintro (_ | _) s₁ outcome
  · obtain ⟨same, (fault | high) | other | ⟨shared, none_⟩⟩ := outcome
    · exact absurd (by decide) fault
    · exact absurd below (BitVec.not_lt.mpr high)
    · exact absurd ((and_presentUserCow _).mpr ⟨present, user, cow⟩) other
    · refine ⟨same, readOnly, .inr ⟨shared, ?_⟩⟩
      by_contra left
      exact pmmAllocFrame_isSome h.ok left none_
  obtain ⟨f, g₁, broken⟩ := outcome
  have ready := broken.toResolved.madeWritable rfl h
  have live₁ : (spaceLayout k).Live g₁ (.user s.cr3) := (broken.live _).mpr live
  have flags := vmmGetFlags_user broken.vm live₁ (userPage_alignDown.mpr page)
  rw [pagePath_alignDown] at flags
  have write : vmmGetFlags s₁.mem s.cr3 (alignDown addr pageSize) &&& vmmWrite ≠ 0#64 := by
    rw [flags, ne_eq, and_write, and_not_physMask_low _ (by decide), ready.2.2]
    decide
  rw [if_pos rfl, wp_bind, wp_get, wp_pure, broken.cr3, decide_eq_true write]
  exact ⟨g₁, .inr ⟨readOnly, f, broken⟩⟩

/-- A page that is not the user's is not copied to. -/
theorem userPageForCopy_refused
    (closed : vmmGetFlags s.mem s.cr3 (alignDown addr pageSize) &&& presentUser ≠ presentUser) :
    wp (userPageForCopy addr) (fun result s' => result = none ∧ s' = s) halt s := by
  unfold userPageForCopy
  apply wp_ite
  · intro _
    exact ⟨rfl, rfl⟩
  intro _
  rw [wp_bind, wp_get, if_pos closed]
  exact ⟨rfl, rfl⟩

/-- The page of a user address is opened for writing, or nothing changes. -/
theorem userPageForCopy_opened (h : Vm k s g) (live : (spaceLayout k).Live g (.user s.cr3))
    (page : UserPage addr) :
    wp (userPageForCopy addr) (fun result s' => match result with
      | none => s' = s ∧ ((addr = 0#64 ∨ userSpaceTop ≤ addr) ∨
        g.leaf (.user s.cr3, pagePath addr) = 0#64 ∨
        Shut s.pmm (g.leaf (.user s.cr3, pagePath addr)))
      | some phys => g.leaf (.user s.cr3, pagePath addr) ≠ 0#64 ∧
        ∃ g', Opened k (.user s.cr3, pagePath addr) s g s' g' ∧
          phys = (g'.leaf (.user s.cr3, pagePath addr) &&& vmmPhysMask) ||| (addr &&& 0xFFF#64))
      halt s := by
  unfold userPageForCopy
  apply wp_ite
  · intro outside
    exact ⟨rfl, .inl outside⟩
  intro inside
  rw [not_or, BitVec.not_le] at inside
  have flags := vmmGetFlags_user h live (userPage_alignDown.mpr page)
  rw [pagePath_alignDown] at flags
  rw [wp_bind, wp_get, flags]
  by_cases empty : g.leaf (.user s.cr3, pagePath addr) = 0#64
  · rw [empty, if_pos (by decide)]
    exact ⟨rfl, .inr (.inl rfl)⟩
  have both : ¬ g.leaf (.user s.cr3, pagePath addr) &&& ~~~vmmPhysMask &&& presentUser ≠
      presentUser := by
    rw [not_not, and_presentUser, and_not_physMask_low _ (by decide),
      and_not_physMask_low _ (by decide)]
    exact leafOk_user_iff.mp (h.leaf_facts empty).1
  rw [if_neg both]
  refine wp_seq (ensureWritable_spec h live page inside.2 empty) ?_
  rintro (_ | _) s₁ outcome
  · exact ⟨outcome.1, .inr (.inr outcome.2)⟩
  obtain ⟨g₁, opened⟩ := outcome
  obtain ⟨vm, cr3, lives⟩ := opened.keep h
  have ready := opened.madeWritable rfl h empty
  rw [if_pos rfl, wp_bind, wp_get, wp_pure, cr3,
    vmmGetPhysical_user vm ((lives _).mpr live) page, if_neg (ne_zero_of_bit ready.2.1)]
  exact ⟨empty, g₁, opened, rfl⟩

theorem userPageForCopy_spec (h : Vm k s g) (live : (spaceLayout k).Live g (.user s.cr3))
    (page : UserPage addr) :
    wp (userPageForCopy addr) (fun result s' => match result with
      | none => s' = s
      | some phys => ∃ g', MadeWritable k (.user s.cr3, pagePath addr) s g s' g' ∧
        phys = (g'.leaf (.user s.cr3, pagePath addr) &&& vmmPhysMask) ||| (addr &&& 0xFFF#64))
      Saturated s := by
  refine wp_imp (userPageForCopy_opened h live page) ?_
  rintro (_ | phys) s' outcome
  · exact outcome.1
  · obtain ⟨filled, g', opened, found⟩ := outcome
    exact ⟨g', opened.madeWritable rfl h filled, found⟩

end Writes

end LithiumKernel.Mm
