import LithiumKernel.Mm.PageMap
import LithiumKernel.Mm.System

/-!
# The tables of a process as a tree

In a sound memory the tables below the root of a process are its own, those of the kernel's
half, and the two tables of the identity window behind the first entry of its first PDPT. So each
is reached by one path, and what is proved of well-formed tables holds of it. The invariant says
nothing of the slots of the kernel's PDPT below the last two; `vmm_init` leaves them empty.
-/
namespace LithiumKernel.Mm

open LithiumKernel.Lib LithiumKernel.Lib.Forest LithiumKernel.Lib.Radix

variable {K : KernelTables} {roots : List Nat} {s : MemState} {g : SpaceGhost} {r : Nat}

/-- Nothing but the last 2 GiB is mapped by the PDPT of the kernel's half. -/
def KernelTables.Unused (K : KernelTables) (mem : PhysMem) : Prop :=
  ∀ i : Idx, i.val < 510 → mem K.pdptHh i = 0#64

/-- A table on a path below the root `r`. -/
inductive TableOf (K : KernelTables) (g : SpaceGhost) (r : Nat) (p : List Idx) (t : Nat) : Prop
  | user (role : g.role t = some (.user r, p))
  | kernel (role : g.role t = some (.kernel, p))
  | directory (path : p = [0, 0]) (frame : t = K.pd0)
  | window (path : p = [0, 0, 0]) (frame : t = K.pt0)

theorem next_some {n t : Nat} {e : Word} (next : pageFormat.next n e = some t) :
    n < 3 ∧ e ≠ 0#64 ∧ frameOf e = t := by
  simp only [pageFormat] at next
  split at next
  · rename_i h
    refine ⟨h.2.1, ?_, Option.some.inj next⟩
    rintro rfl
    exact h.1 (by decide)
  · cases next

theorem System.held_lt (h : System K roots s g) {f : Nat}
    (member : f ∈ [K.pml4, K.pdptId, K.pd0, K.pt0]) : f < 2 ^ 40 :=
  lt_of_lt_of_le (h.held f (h.shared f member)).1 (h.vm.ok.total_le.trans (by decide))

/-- Outside a process's own slots lie the kernel's half and the entrance to the window. -/
theorem System.next_user (h : System K roots s g) (root : r ∈ roots) {q : List Idx} {i : Idx}
    {t t' : Nat} (role : g.role t' = some (.user r, q)) (foreign : ¬ ownsSlot (.user r) q i)
    (next : pageFormat.next q.length (s.mem t' i) = some t) : TableOf K g r (i :: q) t := by
  match q with
  | [] =>
    have high : 256 ≤ i.val := not_lt.mp foreign
    have frame : t' = r := h.vm.wf.base_frame role
    rw [frame, h.upper r root i high, h.kernel.pml4,
      if_neg (fun zero => absurd high (by rw [zero]; decide))] at next
    split at next
    · subst i
      have lt := h.vm.wf.table_lt h.pdptHh
      rw [next_tableEntry (lt_of_lt_of_le lt (h.vm.ok.total_le.trans (by decide))) next]
      exact .kernel h.pdptHh
    · exact absurd next (next_vacant _)
  | [j] =>
    obtain ⟨rfl, rfl⟩ : j = 0 ∧ i = 0 := not_not.mp foreign
    obtain ⟨low, at_low, entry⟩ := h.entrance r root
    rw [h.vm.wf.unique role at_low] at next
    exact .directory rfl ((next_some next).2.2.symm.trans entry.2.2)
  | _ :: _ :: _ => exact absurd trivial foreign

theorem System.next_kernel (h : System K roots s g) (unused : K.Unused s.mem) {q : List Idx}
    {i : Idx} {t' : Nat} (role : g.role t' = some (.kernel, q))
    (foreign : ¬ ownsSlot .kernel q i) : pageFormat.next q.length (s.mem t' i) = none := by
  have below : [511] <:+ q := h.vm.wf.base_below role
  match q with
  | [] => exact absurd (List.suffix_nil.mp below) (List.cons_ne_nil _ _)
  | [j] =>
    obtain ⟨rfl, _⟩ := List.cons.inj (below.eq_of_length rfl)
    rw [h.vm.wf.unique role h.pdptHh, unused i (not_le.mp foreign)]
    cases next : pageFormat.next _ 0#64 with
    | none => rfl
    | some t => exact absurd next (next_vacant _)
  | [j, k] =>
    obtain ⟨rfl, rfl⟩ : j = 510 ∧ i = 0 := not_not.mp foreign
    have last := (List.suffix_cons_iff.mp below).resolve_left nofun
    obtain ⟨rfl⟩ : [511] = [k] := last.eq_of_length rfl
    rw [h.vm.wf.unique role h.pdHh, h.covered]
    exact pageFormat_huge (by decide)
  | _ :: _ :: _ :: _ => exact absurd trivial foreign

theorem System.table_cases (h : System K roots s g) (root : r ∈ roots) (unused : K.Unused s.mem) :
    ∀ {p : List Idx} {t : Nat}, pageTable s.mem r p = some t → TableOf K g r p t := by
  intro p
  induction p with
  | nil =>
    rintro t ⟨⟩
    exact .user ((h.live r).mpr root)
  | cons i q ih =>
    intro t at_p
    obtain ⟨t', at_q, next⟩ := Option.bind_eq_some_iff.mp at_p
    obtain ⟨level, filled, target⟩ := next_some next
    cases ih at_q with
    | user role =>
      by_cases owned : ownsSlot (.user r) q i
      · exact .user (target ▸ (h.vm.wf.link role level owned filled).2)
      · exact h.next_user root role owned next
    | kernel role =>
      by_cases owned : ownsSlot .kernel q i
      · exact .kernel (target ▸ (h.vm.wf.link role level owned filled).2)
      · rw [h.next_kernel unused role owned] at next
        cases next
    | directory path frame =>
      subst path frame
      rw [h.window.pd0] at next
      split at next
      · subst i
        exact .window rfl (next_tableEntry (h.held_lt (by simp)) next)
      · exact absurd next (next_huge (identityHuge_huge i))
    | window path frame =>
      subst path
      exact absurd level (by decide)

/-- The tables of the window belong to no address space, and they are two. -/
theorem System.window_tables (h : System K roots s g) :
    g.role K.pd0 = none ∧ g.role K.pt0 = none ∧ K.pd0 ≠ K.pt0 := by
  have outside : ∀ f ∈ [K.pml4, K.pdptId, K.pd0, K.pt0], g.role f = none := by
    intro f member
    cases role : g.role f with
    | none => rfl
    | some place => exact absurd (h.vm.wf.table_ext role) (h.held f (h.shared f member)).2.ne'
  refine ⟨outside _ (by simp), outside _ (by simp), fun same => ?_⟩
  -- the first holds 2 MiB pages, the second pages of 4 KiB
  have huge := identityHuge_huge 1
  have entry := h.window.pd0 1
  rw [if_neg (by decide), same, h.window.pt0] at entry
  rw [← entry] at huge
  split at huge
  · exact huge (by decide)
  · exact huge (by decide)

theorem TableOf.path_eq {p q : List Idx} {t : Nat} (pd0 : g.role K.pd0 = none)
    (pt0 : g.role K.pt0 = none) (apart : K.pd0 ≠ K.pt0) (first : TableOf K g r p t)
    (second : TableOf K g r q t) : p = q := by
  cases first <;> cases second <;> grind

theorem System.pageTree (h : System K roots s g) (root : r ∈ roots) (unused : K.Unused s.mem) :
    PageTree s r := by
  obtain ⟨pd0, pt0, apart⟩ := h.window_tables
  refine ⟨?_, ?_, ?_, h.vm.ok.total_le⟩
  · intro p q t at_p at_q
    exact (h.table_cases root unused at_p).path_eq pd0 pt0 apart (h.table_cases root unused at_q)
  · intro i t at_pdpt j present
    have filled : s.mem t j ≠ 0#64 := by
      intro zero
      rw [zero] at present
      exact present (by decide)
    cases h.table_cases root unused at_pdpt with
    | user role =>
      by_cases owned : ownsSlot (.user r) [i] j
      · exact (h.vm.wf.link role (show 1 < 3 by decide) owned filled).1.2
      · obtain ⟨rfl, rfl⟩ : i = 0 ∧ j = 0 := not_not.mp owned
        obtain ⟨low, at_low, entry⟩ := h.entrance r root
        rw [h.vm.wf.unique role at_low]
        exact entry.2.1
    | kernel role =>
      by_cases owned : ownsSlot .kernel [i] j
      · exact (h.vm.wf.link role (show 1 < 3 by decide) owned filled).1.2
      · have vacant : pageFormat.next 1 (s.mem t j) = none := h.next_kernel unused role owned
        rw [pageFormat_next present (show 1 < 3 by decide) (show 1 = 2 → _ from nofun)] at vacant
        cases vacant
    | directory path _ => cases path
    | window path _ => cases path
  · intro p t at_p lt
    refine Pmm.used_of_refcount h.vm.ok lt ?_
    have counted : ∀ {o q}, g.role t = some (o, q) → 0 < s.pmm.refcount t := fun role =>
      (h.vm.wf.rc_table role) ▸ Nat.one_pos
    have count := h.vm.wf.count t lt
    cases h.table_cases root unused at_p with
    | user role => exact counted role
    | kernel role => exact counted role
    | directory _ frame =>
      subst frame
      have ext := (h.held _ (h.shared K.pd0 (by simp))).2
      omega
    | window _ frame =>
      subst frame
      have ext := (h.held _ (h.shared K.pt0 (by simp))).2
      omega

end LithiumKernel.Mm
