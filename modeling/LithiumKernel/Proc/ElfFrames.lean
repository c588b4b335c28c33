import LithiumKernel.Mm.FrameBalance
import LithiumKernel.Proc.ElfImage
import LithiumKernel.Syscall.Growth

/-!
# Frames of a program that is loaded and torn down

`load_user_image` takes frames for tables and pages, and `vmm_destroy_user_address_space` gives
back what it finds in the tables. To count frames, everything that is in use before the load is
taken as held from outside; at the end nothing but that is left, and the references of pages
that were mapped over.
-/
namespace LithiumKernel.Proc

open LithiumKernel.Lib LithiumKernel.Lib.Forest LithiumKernel.Mm LithiumKernel.Syscall

/-! ## No assertion fails -/

variable {k r : Nat} {s₀ s s' : MemState} {g₀ g g' : SpaceGhost} {placed : List Placed}

/-- A page of the user half is known by its path. -/
theorem Filling.nodup_iff (h : Filling k r s₀ g₀ placed s g) :
    (paths placed).Nodup ↔ (placed.map Placed.addr).Nodup := by
  have through : paths placed = (placed.map Placed.addr).map pagePath := by
    rw [List.map_map]
    rfl
  rw [through]
  refine ⟨List.Nodup.of_map _, List.Nodup.map_on ?_⟩
  intro v v_member w w_member same
  obtain ⟨p, here, rfl⟩ := List.mem_map.mp v_member
  obtain ⟨p', here', rfl⟩ := List.mem_map.mp w_member
  have first := h.user p here
  have second := h.user p' here'
  rw [pagePath_user first.1 second.1] at same
  apply BitVec.eq_of_toNat_eq
  omega

/-- A space that was made, filled and destroyed has left nothing behind exactly if no page was
mapped twice. -/
theorem Filling.destroyed {s₁ s₂ s₃ : MemState} {g₁ g₂ g₃ : SpaceGhost} (ok : s.pmm.Ok)
    (made : Created k r s (outsideGhost s) s₁ g₁) (h : Filling k r s₁ g₁ placed s₂ g₂)
    (gone : Destroyed k r s₂ g₂ s₃ g₃) :
    FramesKept s s₃ ↔ (placed.map Placed.addr).Nodup := by
  have dead : ∀ o, ¬ (spaceLayout k).Live g₃ o := by
    intro o live
    obtain ⟨before, other⟩ := (gone.roles _ _).mp live
    rcases (made.live o).mp ((h.live o).mp before) with old | rfl
    · exact outsideGhost_live o old
    · exact other rfl
  have evolves := (made.evolves.trans h.evolves).trans gone.evolves
  have counts : ∀ f, f < s.pmm.totalFrames → s₃.pmm.refcount f = g₂.ext f := by
    intro f lt
    rw [Vm.outside_only gone.vm dead (by rwa [evolves.total]), gone.ext]
  have start : g₁.ext = s.pmm.refcount := made.ext
  rw [← h.nodup_iff, ← h.leaks]
  constructor
  · rintro ⟨same, _⟩
    funext f
    by_cases lt : f < s.pmm.totalFrames
    · rw [← counts f lt, same f lt, start]
    · exact h.range f (by rwa [made.evolves.total])
  · intro same
    have all : ∀ f, f < s.pmm.totalFrames → s₃.pmm.refcount f = s.pmm.refcount f := by
      intro f lt
      rw [counts f lt, same, start]
    exact ⟨all, evolves.freeFrames_eq ok all⟩

end LithiumKernel.Proc
