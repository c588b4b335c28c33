import LithiumKernel.Lib.Run
import LithiumKernel.Mm.Spaces

/-!
# Runs over any number of address spaces

The operations of kernel/mm/vmm.c and the page operations of kernel/syscall/syscall.c as
the steps of one machine. `exec` runs an operation and reports what it did to the user
memory as a list of events; an operation that fails or is refused reports nothing.
`Effect` says what each event means for the forest of tables, and `exec_spec` that every
operation is a sequence of such effects.
-/
namespace LithiumKernel.Mm

open LithiumKernel.Lib LithiumKernel.Lib.Forest

inductive VmOp where
  | create
  | map (root : Nat) (virt flags : Word)
  | unmap (root : Nat) (virt : Word)
  | clone (root : Nat)
  | fault (addr err : Word)
  | destroy (root : Nat)
  | switch (root : Nat)
  | store (addr : Word) (b : Byte)
  | copyOut (addr : Word) (bytes : List Byte)

inductive VmEvent where
  | created (root : Nat)
  | mapped (root : Nat) (virt flags : Word)
  | unmapped (root : Nat) (virt : Word)
  | cloned (src dst : Nat)
  | destroyed (root : Nat)
  | wrote (root : Nat) (addr : Word) (b : Byte)
  deriving DecidableEq

/-- The bytes of a copy, one event each. -/
def writeEvents (root : Nat) : Word → List Byte → List VmEvent
  | _, [] => []
  | addr, b :: rest => .wrote root addr b :: writeEvents root (addr + 1#64) rest

def exec : VmOp → MmM (List VmEvent)
  | .create => do
    match ← vmmCreateAddressSpace with
    | none => pure []
    | some r => pure [.created r]
  | .map r v flags => do
    if ← mapUserZeroPage r v flags then pure [.mapped r v flags] else pure []
  | .unmap r v => do
    unmapUserPage r v
    pure [.unmapped r v]
  | .clone r => do
    match ← vmmCloneUserAddressSpace r with
    | none => pure []
    | some dst => pure [.cloned r dst]
  | .fault addr err => do
    let _ ← vmmHandlePageFault addr err
    pure []
  | .destroy r => do
    vmmDestroyUserAddressSpace r
    pure [.destroyed r]
  | .switch r => do
    vmmSwitch r
    pure []
  | .store addr b => do
    let root := (← get).cr3
    if ← userStore addr b then pure [.wrote root addr b] else pure []
  | .copyOut addr bytes => do
    let root := (← get).cr3
    let (_, n) ← copyToUser addr bytes
    pure (writeEvents root addr (bytes.take n))

/-- The memory and the roots of the live address spaces. -/
structure VmState where
  mm : MemState
  roots : List Nat

def VmEvent.roots (roots : List Nat) : VmEvent → List Nat
  | .created r => r :: roots
  | .cloned _ dst => dst :: roots
  | .destroyed r => roots.erase r
  | _ => roots

/-- What the callers promise: the root they pass is live, addresses are user addresses, a
mapping carries `VMM_USER` and goes to a page that has no present leaf, and the loaded
space is not destroyed. -/
def Allowed (K : KernelTables) (st : VmState) : VmOp → Prop
  | .create => True
  | .map r v flags => r ∈ st.roots ∧ v < userSpaceTop ∧ flags &&& vmmUser ≠ 0#64 ∧
      vmmGetFlags st.mm.mem r v &&& vmmPresent = 0#64
  | .unmap r v => r ∈ st.roots ∧ v < userSpaceTop
  | .clone r => r ∈ st.roots
  | .fault _ _ => True
  | .destroy r => r ∈ st.roots ∧ r ≠ st.mm.cr3
  | .switch r => r = K.pml4 ∨ r ∈ st.roots
  | .store addr _ => st.mm.cr3 ∈ st.roots ∧ addr < userSpaceTop
  | .copyOut _ _ => st.mm.cr3 ∈ st.roots

instance (K : KernelTables) (st : VmState) : DecidablePred (Allowed K st)
  | .create => inferInstanceAs (Decidable True)
  | .map r v flags => inferInstanceAs (Decidable (r ∈ st.roots ∧ v < userSpaceTop ∧
      flags &&& vmmUser ≠ 0#64 ∧ vmmGetFlags st.mm.mem r v &&& vmmPresent = 0#64))
  | .unmap r v => inferInstanceAs (Decidable (r ∈ st.roots ∧ v < userSpaceTop))
  | .clone r => inferInstanceAs (Decidable (r ∈ st.roots))
  | .fault _ _ => inferInstanceAs (Decidable True)
  | .destroy r => inferInstanceAs (Decidable (r ∈ st.roots ∧ r ≠ st.mm.cr3))
  | .switch r => inferInstanceAs (Decidable (r = K.pml4 ∨ r ∈ st.roots))
  | .store addr _ => inferInstanceAs (Decidable (st.mm.cr3 ∈ st.roots ∧ addr < userSpaceTop))
  | .copyOut _ _ => inferInstanceAs (Decidable (st.mm.cr3 ∈ st.roots))

/-- Mappings are made at or above an address. -/
def MapsFrom (limit : Nat) : VmOp → Prop
  | .map _ v _ => limit ≤ v.toNat
  | _ => True

structure VmStep (K : KernelTables) (st : VmState) (l : VmOp × List VmEvent) (st' : VmState) :
    Prop where
  allowed : Allowed K st l.1
  ran : exec l.1 st.mm = .ok l.2 st'.mm
  roots : st'.roots = l.2.foldl VmEvent.roots st.roots

/-- The memory after an operation on a fixed state. -/
def afterOp (op : VmOp) (s : MemState) : MemState := resultState (exec op s)

theorem VmStep.of_value {K : KernelTables} {st : VmState} {op : VmOp} {events : List VmEvent}
    (allowed : Allowed K st op) (value : resultValue (exec op st.mm) = some events) :
    VmStep K st (op, events) ⟨afterOp op st.mm, events.foldl VmEvent.roots st.roots⟩ :=
  ⟨allowed, result_eq value, rfl⟩

/-- A step of the machine that maps nothing below the limit. -/
def StepFrom (limit : Nat) (K : KernelTables) (st : VmState) (l : VmOp × List VmEvent)
    (st' : VmState) : Prop :=
  MapsFrom limit l.1 ∧ VmStep K st l st'

theorem MapsFrom.mono {limit limit' : Nat} (le : limit' ≤ limit) {op : VmOp}
    (above : MapsFrom limit op) : MapsFrom limit' op := by
  cases op with
  | map r v flags => exact le_trans le above
  | _ => trivial

theorem StepFrom.mono {limit limit' : Nat} (le : limit' ≤ limit) {K : KernelTables}
    {st st' : VmState} {l : VmOp × List VmEvent} (step : StepFrom limit K st l st') :
    StepFrom limit' K st l st' :=
  ⟨step.1.mono le, step.2⟩

/-! ## Effects -/

/-- One change of the user memory, and the event that reports it if it is visible. -/
inductive Effect (K : KernelTables) (roots : List Nat) (s : MemState) (g : SpaceGhost) :
    Option VmEvent → MemState → SpaceGhost → Prop where
  | quiet {s' g'} : Quiet K.pdptHh s g s' g' → Effect K roots s g none s' g'
  | marked {r t} : g.role t = some (.user r, [0]) →
      Effect K roots s g none { s with mem := markedMem s.mem r t } g
  | created {r s' g'} : Created K.pdptHh r s g s' g' → Effect K roots s g (some (.created r)) s' g'
  | mapped {r v flags s' g'} : UserPage v → g.leaf (.user r, pagePath v) = 0#64 →
      FreshResult K.pdptHh s g (.user r, pagePath v) flags blankPage true s' g' →
      Effect K roots s g (some (.mapped r v flags)) s' g'
  | unmapped {r v s' g'} : Unmapped K.pdptHh (.user r, pagePath v) s g s' g' →
      Effect K roots s g (some (.unmapped r v)) s' g'
  | cloned {src dst s' g'} : src ∈ roots → Cloned K.pdptHh src dst s g s' g' →
      Effect K roots s g (some (.cloned src dst)) s' g'
  | notCloned {src s' g'} : NotCloned K.pdptHh src s g s' g' → Effect K roots s g none s' g'
  | resolved {addr f s' g'} : Resolved K.pdptHh (.user s.cr3, pagePath addr) f s g s' g' →
      Effect K roots s g none s' g'
  | destroyed {r s' g'} : r ≠ s.cr3 → Destroyed K.pdptHh r s g s' g' →
      Effect K roots s g (some (.destroyed r)) s' g'
  | switched {r} : r = K.pml4 ∨ r ∈ roots → Effect K roots s g none { s with cr3 := r } g
  | wrote {addr b} : (g.leaf (.user s.cr3, pagePath addr)).getLsbD 0 = true →
      (g.leaf (.user s.cr3, pagePath addr)).getLsbD 1 = true →
      Effect K roots s g (some (.wrote s.cr3 addr b))
        (written s (frameOf (g.leaf (.user s.cr3, pagePath addr))) addr b) g

/-- A sequence of effects with its visible events. -/
inductive Effects (K : KernelTables) (roots : List Nat) (s : MemState) (g : SpaceGhost) :
    List VmEvent → MemState → SpaceGhost → Prop where
  | nil : Effects K roots s g [] s g
  | snoc {events ev s₁ g₁ s₂ g₂} : Effects K roots s g events s₁ g₁ →
      Effect K (events.foldl VmEvent.roots roots) s₁ g₁ ev s₂ g₂ →
      Effects K roots s g (events ++ ev.toList) s₂ g₂

variable {K : KernelTables} {reserved : Nat → Prop} {roots : List Nat} {s s' : MemState}
  {g g' : SpaceGhost}

theorem Effects.one {ev : Option VmEvent} (effect : Effect K roots s g ev s' g') :
    Effects K roots s g ev.toList s' g' := by
  have single := Effects.snoc .nil effect
  rwa [List.nil_append] at single

theorem Effects.silent {events : List VmEvent} {s₁ : MemState} {g₁ : SpaceGhost}
    (before : Effects K roots s g events s₁ g₁)
    (effect : Effect K (events.foldl VmEvent.roots roots) s₁ g₁ none s' g') :
    Effects K roots s g events s' g' := by
  have more := Effects.snoc before effect
  rwa [Option.toList_none, List.append_nil] at more

theorem Spaces.effect (h : Spaces K reserved roots s g) {ev : Option VmEvent}
    (effect : Effect K roots s g ev s' g') :
    Spaces K reserved (ev.toList.foldl VmEvent.roots roots) s' g' := by
  cases effect with
  | quiet q =>
    exact h.keep q.toGrow.keep q.vm q.live (fun f _ => by rw [q.ext]) (by rw [q.leaf]; exact h.apart)
  | marked at_t => exact h.marked at_t
  | created made => exact h.created made
  | mapped _ _ done => exact h.fresh done
  | unmapped gone => exact h.unmapped gone
  | cloned _ made => exact h.cloned made
  | notCloned failed => exact h.notCloned failed
  | resolved done => exact h.resolved done
  | destroyed idle gone => exact h.destroyed gone idle
  | switched root => exact h.switched root
  | @wrote addr b present _ =>
    have filled : g.leaf (.user s.cr3, pagePath addr) ≠ 0#64 := ne_zero_of_bit present
    exact h.scribbled (h.vm.leaf_facts filled).2.2.1 (h.apart _ filled) _

theorem Spaces.effects {events : List VmEvent} (h : Spaces K reserved roots s g)
    (effects : Effects K roots s g events s' g') :
    Spaces K reserved (events.foldl VmEvent.roots roots) s' g' := by
  induction effects with
  | nil => exact h
  | snoc _ effect ih =>
    rw [List.foldl_append]
    exact ih.effect effect

/-! ## Copies to the user -/

@[simp] theorem writeEvents_roots (r : Nat) (v : Word) (bytes : List Byte) (roots : List Nat) :
    (writeEvents r v bytes).foldl VmEvent.roots roots = roots := by
  induction bytes generalizing v with
  | nil => rfl
  | cons b rest ih => exact ih (v + 1#64)

theorem writeEvents_append (r : Nat) (v : Word) (xs ys : List Byte) :
    writeEvents r v (xs ++ ys) =
      writeEvents r v xs ++ writeEvents r (v + BitVec.ofNat 64 xs.length) ys := by
  induction xs generalizing v with
  | nil => simp [writeEvents]
  | cons b rest ih =>
    have shift : v + 1#64 + BitVec.ofNat 64 rest.length =
        v + BitVec.ofNat 64 (rest.length + 1) := by
      rw [BitVec.add_assoc, Nat.add_comm, BitVec.ofNat_add]
    simp only [List.cons_append, writeEvents, ih, List.length_cons, shift]

/-- A page that has been made writable, as an effect nobody sees. -/
theorem Effects.ready {events : List VmEvent} {addr : Word} {s₁ s₂ : MemState}
    {g₁ g₂ : SpaceGhost} (before : Effects K roots s g events s₁ g₁)
    (ready : MadeWritable K.pdptHh (.user s₁.cr3, pagePath addr) s₁ g₁ s₂ g₂) :
    Effects K roots s g events s₂ g₂ ∧ s₂.cr3 = s₁.cr3 := by
  rcases ready.1 with ⟨rfl, rfl⟩ | ⟨f, resolved⟩
  · exact ⟨before, rfl⟩
  · exact ⟨before.silent (.resolved resolved), resolved.cr3⟩

/-- `memcpy` to a writable page of the current space, one byte after the other. -/
theorem writeBytes_effects {halt : Kassert → MemState → Prop} {bytes : List Byte} {r : Nat} :
    ∀ {v : Word} {events : List VmEvent} {s₁ : MemState} {g₁ : SpaceGhost},
    Effects K roots s g events s₁ g₁ → s₁.cr3 = r →
    (g₁.leaf (.user r, pagePath v)).getLsbD 0 = true →
    (g₁.leaf (.user r, pagePath v)).getLsbD 1 = true →
    v.toNat % 4096 + bytes.length ≤ 4096 →
    wp (writeBytes ((g₁.leaf (.user r, pagePath v) &&& vmmPhysMask) ||| (v &&& 0xFFF#64)) bytes)
      (fun _ s₂ => Effects K roots s g (events ++ writeEvents r v bytes) s₂ g₁ ∧ s₂.cr3 = r)
      halt s₁ := by
  induction bytes with
  | nil =>
    intro v events s₁ g₁ before cur _ _ _
    rw [writeEvents, List.append_nil]
    exact ⟨before, cur⟩
  | cons b rest ih =>
    intro v events s₁ g₁ before cur present write room
    subst cur
    have step : Effects K roots s g (events ++ [.wrote s₁.cr3 v b]) _ g₁ :=
      before.snoc (.wrote present write)
    rw [writeBytes, wp_bind, wp_writeByte]
    by_cases last : rest = []
    · subst last
      exact ⟨step, rfl⟩
    · have more := List.length_pos_iff.mpr last
      rw [List.length_cons] at room
      have inside : v.toNat % 4096 + 1 < 4096 := by omega
      have next := add_one_toNat inside
      have path : pagePath (v + 1#64) = pagePath v := pagePath_congr (by omega)
      rw [← phys_add_one _ inside, ← path]
      rw [← path] at present write step
      refine wp_imp (ih step rfl present write (by omega)) ?_
      rintro _ s₂ ⟨after, cur⟩
      rw [List.append_assoc] at after
      exact ⟨after, cur⟩

/-- The copy loop: what went over is a prefix of the source, all of it on success. -/
theorem copyToUserLoop_effects (h : Spaces K reserved roots s g) {user : Word} {src : List Byte}
    (root : s.cr3 ∈ roots) (fits : user.toNat + src.length ≤ userSpaceTop.toNat) :
    ∀ (fuel done : Nat) {s₁ : MemState} {g₁ : SpaceGhost},
    Effects K roots s g (writeEvents s.cr3 user (src.take done)) s₁ g₁ → s₁.cr3 = s.cr3 →
    done ≤ src.length → src.length ≤ done + fuel →
    wp (copyToUserLoop user src fuel done) (fun result s' =>
      (result.1 = true → result.2 = src.length) ∧
      ∃ g', Effects K roots s g (writeEvents s.cr3 user (src.take result.2)) s' g')
      Saturated s₁ := by
  have top : userSpaceTop.toNat = 2 ^ 47 := by decide
  intro fuel
  induction fuel with
  | zero =>
    intro done s₁ g₁ before _ le enough
    exact ⟨fun _ => by change done = _; omega, g₁, before⟩
  | succ fuel ih =>
    intro done s₁ g₁ before cur le enough
    rw [copyToUserLoop]
    apply wp_ite
    · intro more
      have now : Spaces K reserved roots s₁ g₁ := by
        have after := h.effects before
        rwa [writeEvents_roots] at after
      have addr : (user + BitVec.ofNat 64 done).toNat = user.toNat + done := by
        rw [BitVec.toNat_add, BitVec.toNat_ofNat]
        omega
      have below : user + BitVec.ofNat 64 done < userSpaceTop := by
        rw [BitVec.lt_def, addr]
        omega
      have live : (spaceLayout K.pdptHh).Live g₁ (.user s₁.cr3) := (now.live _).mpr (by rwa [cur])
      rcases userPage_or_window below with page | inside
      · refine wp_seq (userPageForCopy_spec now.vm live page) ?_
        rintro (_ | phys) s₂ outcome
        · obtain rfl : s₂ = s₁ := outcome
          exact ⟨fun no => by simp at no, g₁, before⟩
        obtain ⟨g₂, ready, rfl⟩ := outcome
        obtain ⟨before₂, cur₂⟩ := before.ready ready
        obtain ⟨_, present, write⟩ := ready
        rw [cur] at present write cur₂ ⊢
        dsimp only
        refine wp_seq (writeBytes_effects before₂ cur₂ present write ?_) ?_
        · rw [List.length_take, List.length_drop]
          omega
        · rintro _ s₃ ⟨after, cur₃⟩
          have joined : src.take done ++ (src.drop done).take
              (min (4096 - (user + BitVec.ofNat 64 done).toNat % 4096) (src.length - done)) =
              src.take (done + min (4096 - (user + BitVec.ofNat 64 done).toNat % 4096)
                (src.length - done)) := by
            rw [List.take_add]
          have len : (src.take done).length = done := by
            rw [List.length_take]
            omega
          have split := writeEvents_append s.cr3 user (src.take done) ((src.drop done).take
            (min (4096 - (user + BitVec.ofNat 64 done).toNat % 4096) (src.length - done)))
          rw [len, joined] at split
          rw [← split] at after
          exact ih _ after cur₃ (by omega) (by omega)
      · refine wp_seq (now.userPageForCopy_window inside) ?_
        rintro _ s₂ ⟨rfl, rfl⟩
        exact ⟨fun no => by simp at no, g₁, before⟩
    · intro finished
      exact ⟨fun _ => by change done = _; omega, g₁, before⟩

theorem copyToUser_effects (h : Spaces K reserved roots s g) (user : Word) (src : List Byte)
    (root : s.cr3 ∈ roots) :
    wp (copyToUser user src) (fun result s' => (result.1 = true → result.2 = src.length) ∧
      ∃ g', Effects K roots s g (writeEvents s.cr3 user (src.take result.2)) s' g')
      Saturated s := by
  have start : Effects K roots s g (writeEvents s.cr3 user (src.take 0)) s g := .nil
  unfold copyToUser
  apply wp_ite
  · intro empty
    exact ⟨fun _ => empty.symm, g, start⟩
  intro _
  apply wp_ite
  · intro _
    exact ⟨fun no => by simp at no, g, start⟩
  · intro inRange
    simp only [not_or] at inRange
    have below : user.toNat < userSpaceTop.toNat := BitVec.not_le.mp inRange.2.1
    exact copyToUserLoop_effects h root (by omega) src.length 0 start rfl (Nat.zero_le _) (by omega)

/-! ## Every operation is a sequence of effects -/

/-- A page without a present leaf has no leaf in the forest. -/
theorem Spaces.leaf_absent (h : Spaces K reserved roots s g) {r : Nat} {v : Word} (root : r ∈ roots)
    (page : UserPage v) (absent : vmmGetFlags s.mem r v &&& vmmPresent = 0#64) :
    g.leaf (.user r, pagePath v) = 0#64 := by
  by_contra filled
  have present := h.vm.leaf_present filled
  rw [vmmGetFlags_user h.vm ((h.live r).mpr root) page, and_present,
    and_not_physMask_low _ (by decide)] at absent
  rw [ne_eq, and_present, absent] at present
  exact present rfl

/-- The window holds no leaf of a user space. -/
theorem Spaces.leaf_window (h : Spaces K reserved roots s g) {r : Nat} {v : Word}
    (inside : InWindow v) : g.leaf (.user r, pagePath v) = 0#64 := by
  by_contra filled
  obtain ⟨l, m, j, i, path, _, outside⟩ := h.vm.leaf_owned filled
  simp only [pagePath, List.cons.injEq, and_true] at path
  obtain ⟨-, -, rfl, rfl⟩ := path
  exact outside ⟨inside.1, inside.2⟩

/-- A frame taken from the pool, blanked and given back. -/
theorem Vm.borrowed {k : Nat} (h : Vm k s g) {f : Nat} {q q' : Pmm} (lt : f < s.pmm.totalFrames)
    (zero : s.pmm.refcount f = 0) (evolves : s.pmm.Evolves q)
    (counts : q.refcount = Function.update s.pmm.refcount f 1) (evolves' : q.Evolves q')
    (counts' : q'.refcount = Function.update q.refcount f (q.refcount f - 1)) (page : Page) :
    Quiet k s g { s with pmm := q', mem := Function.update s.mem f page } g := by
  obtain ⟨taken, held⟩ := h.fresh lt zero evolves counts page
  have dropped := held.dropHeld (f := f) (q := q') (by change f < q.totalFrames; rwa [evolves.total])
    (by simp) evolves' counts'
  have restored : Function.update (Function.update g.ext f (g.ext f + 1)) f
      (Function.update g.ext f (g.ext f + 1) f - 1) = g.ext := by simp
  rw [restored] at dropped
  exact ⟨taken.returned zero evolves' counts', dropped, rfl, rfl, fun _ => Iff.rfl⟩

/-- A mapping at a 2 MiB page of the window fails, and the frame taken for it goes back. -/
theorem mapOrFree_huge (h : Spaces K reserved roots s g) {r f : Nat} {q : Pmm} {v flags : Word}
    (root : r ∈ roots) (inside : InWindow v) (huge : pdIdx v ≠ 0)
    (user : flags &&& vmmUser ≠ 0#64) (lt : f < s.pmm.totalFrames)
    (zero : s.pmm.refcount f = 0) (evolves : s.pmm.Evolves q)
    (counts : q.refcount = Function.update s.pmm.refcount f 1) (page : Page) :
    wp (mapOrFree r v (frameAddr f) flags) (fun done s' => done = false ∧
      Effects K roots s g [] s' g ∧ s'.cr3 = s.cr3) Saturated
      { s with pmm := q, mem := Function.update s.mem f page } := by
  obtain ⟨taken, held⟩ := h.vm.fresh lt zero evolves counts page
  have raised : ∀ f', g.ext f' ≤ Function.update g.ext f (g.ext f + 1) f' := by
    intro f'
    by_cases here : f' = f
    · subst here
      simp
    · rw [Function.update_of_ne here]
  have now := h.keep taken.keep held (fun _ => Iff.rfl) (fun f' _ => raised f') h.apart
  obtain ⟨t, at_t, refused⟩ := now.vmmMapPage_huge Saturated (frameAddr f) root inside huge user
  unfold mapOrFree
  refine wp_seq refused ?_
  rintro _ _ ⟨rfl, rfl⟩
  rw [if_neg (by decide), wp_bind]
  refine freeFrame_spec (s := { s with pmm := q, mem := markedMem _ r t }) evolves.ok
    (by change f < q.totalFrames; rwa [evolves.total])
    (by change 0 < q.refcount f; rw [counts, Function.update_self]; decide) ?_
  intro q' evolves' counts'
  have quiet := h.vm.borrowed lt zero evolves counts evolves' counts' page
  exact ⟨rfl, (Effects.one (.quiet quiet)).silent (.marked at_t), rfl⟩

theorem mapUserZeroPage_huge (h : Spaces K reserved roots s g) {r : Nat} {v flags : Word}
    (root : r ∈ roots) (inside : InWindow v) (huge : pdIdx v ≠ 0)
    (user : flags &&& vmmUser ≠ 0#64) :
    wp (mapUserZeroPage r v flags) (fun done s' => done = false ∧
      Effects K roots s g [] s' g) Saturated s := by
  unfold mapUserZeroPage
  rw [wp_bind]
  apply allocFrame_spec h.vm
  · intro _
    exact ⟨rfl, .nil⟩
  intro f q lt zero evolves counts _
  rw [wp_bind, wp_zeroFrame, frameOf_frameAddr (h.vm.frame_small lt)]
  refine wp_imp (mapOrFree_huge h root inside huge user lt zero evolves counts blankPage) ?_
  rintro done s' ⟨refused, effects, _⟩
  exact ⟨refused, effects⟩

theorem pdIdx_ne_zero {v : Word} (low : 2 ^ 21 ≤ v.toNat) (below : v < userSpaceTop)
    (inside : InWindow v) : pdIdx v ≠ 0 := by
  intro zero
  have lt : v.toNat < 2 ^ 47 := below
  have parts := congrArg Fin.val inside.1
  have parts' := congrArg Fin.val inside.2
  have parts'' := congrArg Fin.val zero
  rw [pml4Idx, idxOf_shift_val] at parts
  rw [pdptIdx, idxOf_shift_val] at parts'
  rw [pdIdx, idxOf_shift_val] at parts''
  simp only [Fin.val_zero] at parts parts' parts''
  omega

theorem exec_map_spec (h : Spaces K reserved roots s g) {r : Nat} {v flags : Word}
    (root : r ∈ roots) (low : 2 ^ 21 ≤ v.toNat) (below : v < userSpaceTop)
    (user : flags &&& vmmUser ≠ 0#64) (absent : vmmGetFlags s.mem r v &&& vmmPresent = 0#64) :
    wp (exec (.map r v flags)) (fun events s' => ∃ g', Effects K roots s g events s' g')
      Saturated s := by
  rcases userPage_or_window below with page | inside
  · have bit : flags.getLsbD 2 = true := by
      rwa [ne_eq, and_user, Bool.not_eq_false] at user
    refine wp_seq (mapUserZeroPage_spec h.vm ((h.live r).mpr root) page bit) ?_
    rintro (_ | _) s' ⟨g', result⟩
    · obtain ⟨leaf, ext⟩ := result.effect
      exact ⟨g', .one (.quiet ⟨result.toGrow, result.vm, leaf, ext, result.live⟩)⟩
    · exact ⟨g', .one (.mapped page (h.leaf_absent root page absent) result)⟩
  · refine wp_seq (mapUserZeroPage_huge h root inside (pdIdx_ne_zero low below inside) user) ?_
    rintro _ s' ⟨rfl, effects⟩
    exact ⟨g, effects⟩

theorem exec_unmap_spec (h : Spaces K reserved roots s g) {r : Nat} {v : Word} (root : r ∈ roots)
    (below : v < userSpaceTop) :
    wp (exec (.unmap r v)) (fun events s' => ∃ g', Effects K roots s g events s' g')
      Saturated s := by
  rcases userPage_or_window below with page | inside
  · refine wp_seq (unmapUserPage_spec h.vm ((h.live r).mpr root) page) ?_
    rintro _ s' ⟨g', gone⟩
    exact ⟨g', .one (.unmapped gone)⟩
  · refine wp_seq (h.unmapUserPage_window root inside) ?_
    rintro _ s' rfl
    have same : Function.update g.leaf (.user r, pagePath v) 0#64 = g.leaf := by
      rw [← h.leaf_window inside, Function.update_eq_self]
    exact ⟨g, .one (.unmapped ⟨(Grow.refl h.vm.ok rfl).keep, h.vm, rfl, fun _ => Iff.rfl, same.symm⟩)⟩

theorem exec_fault_spec (h : Spaces K reserved roots s g) (addr err : Word) :
    wp (exec (.fault addr err)) (fun events s' => ∃ g', Effects K roots s g events s' g')
      Saturated s := by
  by_cases own : s.cr3 ∈ roots ∧ UserPage addr
  · refine wp_seq (vmmHandlePageFault_spec h.vm ((h.live _).mpr own.1) own.2) ?_
    rintro (_ | _) s' outcome
    · obtain ⟨rfl, _⟩ : s' = s ∧ _ := outcome
      exact ⟨g, .nil⟩
    · obtain ⟨f, g', resolved⟩ := outcome
      exact ⟨g', .one (.resolved resolved)⟩
  · refine wp_seq (h.faultRefused ?_) ?_
    · by_cases below : addr < userSpaceTop
      · rcases userPage_or_window below with page | inside
        · exact .inr (.inl (h.cur.resolve_right (fun member => own ⟨member, page⟩)))
        · exact .inl inside
      · exact .inr (.inr (BitVec.not_lt.mp below))
    · rintro _ s' ⟨_, rfl⟩
      exact ⟨g, .nil⟩

theorem exec_store_spec (h : Spaces K reserved roots s g) {addr : Word} {b : Byte}
    (root : s.cr3 ∈ roots) (below : addr < userSpaceTop) :
    wp (exec (.store addr b)) (fun events s' => ∃ g', Effects K roots s g events s' g')
      Saturated s := by
  rw [exec, wp_bind, wp_get]
  rcases userPage_or_window below with page | inside
  · refine wp_seq (userStore_spec h.vm ((h.live _).mpr root) page) ?_
    rintro (_ | _) s' outcome
    · obtain rfl : s' = s := outcome
      exact ⟨g, .nil⟩
    · obtain ⟨s₁, g₁, ready, rfl⟩ := outcome
      obtain ⟨before, cur⟩ := Effects.nil.ready ready
      obtain ⟨_, present, write⟩ := ready
      rw [← cur] at present write ⊢
      exact ⟨g₁, before.snoc (.wrote present write)⟩
  · refine wp_seq (h.userStore_window inside) ?_
    rintro _ s' ⟨rfl, rfl⟩
    exact ⟨g, .nil⟩

/-- Every allowed operation that maps nothing in the first 2 MiB is a sequence of effects,
and the only assertion it can run into is the saturation of a reference count. -/
theorem exec_spec (h : Spaces K reserved roots s g) {op : VmOp} (allowed : Allowed K ⟨s, roots⟩ op)
    (above : MapsFrom (2 ^ 21) op) :
    wp (exec op) (fun events s' => ∃ g', Effects K roots s g events s' g') Saturated s := by
  cases op with
  | create =>
    refine wp_seq (vmmCreateAddressSpace_spec h.vm h.current.1 (fun _ => h.current.2)) ?_
    rintro (_ | r) s' ⟨g', made⟩
    · exact ⟨g', .one (.quiet made)⟩
    · exact ⟨g', .one (.created made)⟩
  | map r v flags =>
    obtain ⟨root, below, user, absent⟩ := allowed
    exact exec_map_spec h root above below user absent
  | unmap r v => exact exec_unmap_spec h allowed.1 allowed.2
  | clone r =>
    refine wp_seq (vmmCloneUserAddressSpace_spec h.vm ((h.live r).mpr allowed) h.current.1
      (fun _ => h.current.2)) ?_
    rintro (_ | dst) s' ⟨g', made⟩
    · exact ⟨g', .one (.notCloned made)⟩
    · exact ⟨g', .one (.cloned allowed made)⟩
  | fault addr err => exact exec_fault_spec h addr err
  | destroy r =>
    refine wp_seq (vmmDestroyUserAddressSpace_spec h.vm ((h.live r).mpr allowed.1)) ?_
    rintro _ s' ⟨g', gone⟩
    exact ⟨g', .one (.destroyed allowed.2 gone)⟩
  | switch r => exact ⟨g, .one (.switched allowed)⟩
  | store addr b => exact exec_store_spec h allowed.1 allowed.2
  | copyOut addr bytes =>
    rw [exec, wp_bind, wp_get]
    refine wp_seq (copyToUser_effects h addr bytes allowed) ?_
    rintro ⟨_, n⟩ s' ⟨_, g', effects⟩
    exact ⟨g', effects⟩

end LithiumKernel.Mm
