import LithiumKernel.Mm.UserMemory

/-!
# What a call leaves behind in the frame pool

To compare the pool before and after a call, everything that is in use before it is taken as
held from outside (`outsideGhost`): the forest starts empty, holds what the call builds, and
once it is empty again every frame has the references it had.
-/
namespace LithiumKernel.Mm

open LithiumKernel.Lib LithiumKernel.Lib.Forest

/-! ## No assertion fails

Most calls raise no reference count, so the one assertion that a consistent state can run into
is not made. -/

/-- The assertion on a saturated count is not the one that fails. -/
abbrev Unraised {α : Type} (m : MmM α) : Prop := Throws (· ≠ .refSaturated) m

theorem unraised_allocFrame : Unraised allocFrame := fun _ => trivial

theorem unraised_freeFrame (phys : Word) : Unraised (freeFrame phys) := by
  intro s
  unfold wp freeFrame
  cases ran : pmmFreeFrame s.pmm phys with
  | ok p => trivial
  | error e =>
    rintro rfl
    unfold pmmFreeFrame at ran
    dsimp only at ran
    split at ran
    · cases ran
    split at ran
    · cases ran
    split at ran
    · cases ran
    split at ran <;> cases ran

theorem unraised_readEntry (t : Nat) (i : Idx) : Unraised (readEntry t i) := fun _ => trivial

theorem unraised_writeEntry (t : Nat) (i : Idx) (w : Word) : Unraised (writeEntry t i w) :=
  fun _ => trivial

theorem unraised_frameRefcount (phys : Word) : Unraised (frameRefcount phys) := by
  intro s
  unfold wp frameRefcount
  cases ran : pmmFrameRefcount s.pmm phys with
  | ok n => trivial
  | error e =>
    rintro rfl
    unfold pmmFrameRefcount at ran
    dsimp only at ran
    split at ran
    · cases ran
    split at ran <;> cases ran

theorem unraised_vmmHandlePageFault (addr err : Word) :
    Unraised (vmmHandlePageFault addr err) := by
  refine .ite (.pure _) (Throws.get.bind fun s => ?_)
  dsimp only
  split
  · exact .pure _
  · refine (unraised_readEntry _ _).bind fun e => .ite (.pure _) ?_
    refine (unraised_frameRefcount _).bind fun n => .ite ?_ ?_
    · exact (unraised_writeEntry _ _ _).bind fun _ => .pure _
    · refine unraised_allocFrame.bind fun found => ?_
      cases found with
      | none => exact .pure _
      | some phys =>
        have copied : ∀ d f, Unraised (copyFrame d f) := fun _ _ _ => trivial
        exact (copied _ _).bind fun _ => (unraised_writeEntry _ _ _).bind fun _ =>
          (unraised_freeFrame _).bind fun _ => .pure _

theorem unraised_userStore (addr : Word) (b : Byte) : Unraised (userStore addr b) := by
  have direct : Unraised (storeDirect addr b) := by
    refine Throws.get.bind fun s => .ite ?_ (.pure _)
    split
    · exact .pure _
    · rename_i phys _
      have byte : Unraised (writeByte phys b) := fun _ => trivial
      exact byte.bind fun _ => .pure _
  refine direct.bind fun _ => .ite (.pure _) (Throws.get.bind fun s => ?_)
  exact (unraised_vmmHandlePageFault _ _).bind fun _ => .ite direct (.pure _)

/-! ## References from outside -/

/-- Every frame has the references it had, and as many frames are free. -/
def FramesKept (s s' : MemState) : Prop :=
  (∀ f, f < s.pmm.totalFrames → s'.pmm.refcount f = s.pmm.refcount f) ∧
    s'.pmm.freeFrames = s.pmm.freeFrames

/-- Nothing is tracked: all references are held from outside. -/
def outsideGhost (s : MemState) : SpaceGhost := ⟨fun _ => none, fun _ => 0#64, s.pmm.refcount⟩

variable {k : Nat} {s s' : MemState} {g g' : SpaceGhost}

theorem outsideGhost_vm (ok : s.pmm.Ok) : Vm k s (outsideGhost s) :=
  ⟨ok, .nil (spaceLayout k) _ _ _⟩

theorem outsideGhost_live (o : Owner) : ¬ (spaceLayout k).Live (outsideGhost s) o := by
  intro live
  cases live

/-- Without an address space, references are held from outside only. -/
theorem Vm.outside_only (h : Vm k s g) (dead : ∀ o, ¬ (spaceLayout k).Live g o) {f : Nat}
    (lt : f < s.pmm.totalFrames) : s.pmm.refcount f = g.ext f := by
  have noRole : g.role f = none := by
    cases role : g.role f with
    | none => rfl
    | some x => exact absurd (h.wf.live_of_role (o := x.1) (p := x.2) role) (dead _)
  have noLeaf : (spaceLayout k).leafRefs g.leaf f = 0 := by
    by_contra some_
    obtain ⟨x, filled, _⟩ := Set.nonempty_of_ncard_ne_zero some_
    exact dead x.1 (h.wf.live_of_leaf (q := x.2) filled)
  rw [h.wf.count f lt, Layout.tableRef, noRole, noLeaf]
  simp

/-- Nothing is left of what was built. -/
theorem framesKept_of_dead (ok : s.pmm.Ok) (evolves : s.pmm.Evolves s'.pmm) (h : Vm k s' g')
    (dead : ∀ o, ¬ (spaceLayout k).Live g' o) (ext : g'.ext = s.pmm.refcount) : FramesKept s s' := by
  have all : ∀ f, f < s.pmm.totalFrames → s'.pmm.refcount f = s.pmm.refcount f := by
    intro f lt
    rw [Vm.outside_only h dead (by rwa [evolves.total]), ext]
  exact ⟨all, evolves.freeFrames_eq ok all⟩

/-- A failed `vmm_create_address_space` has left nothing behind. -/
theorem framesKept_of_quiet (ok : s.pmm.Ok) (quiet : Quiet k s (outsideGhost s) s' g') :
    FramesKept s s' :=
  framesKept_of_dead ok quiet.evolves quiet.vm
    (fun o live => outsideGhost_live o ((quiet.live o).mp live)) quiet.ext

end LithiumKernel.Mm
