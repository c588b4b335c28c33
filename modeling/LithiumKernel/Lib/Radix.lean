import Mathlib.Data.List.Infix

/-!
# Radix tables in memory

Tables are rows of words; a word read at some level either names a table of the next level or
does not (`next`). A path of slots, innermost first, leads from the root to a table, and a
lookup stops at the first word on its path that names no table. When every table is reached by
one path only, a write to one slot concerns the paths through that slot and no others; what it
does to those is said for the three writes a table manager makes: to hang in an empty table, to
rewrite a word that still names the same table, and to write a word that names none.
-/
namespace LithiumKernel.Lib.Radix

variable {Idx W : Type}

/-- How words are read: the table a word names at a level, and whether it stands for anything. -/
structure Format (W : Type) where
  next : Nat → W → Option Nat
  live : W → Prop
  [decidable : DecidablePred live]
  live_of_next : ∀ {n w t}, next n w = some t → live w

attribute [instance] Format.decidable

variable (F : Format W)

/-- The table at a path below the root. -/
def tableAt (mem : Nat → Idx → W) (root : Nat) : List Idx → Option Nat
  | [] => some root
  | i :: p => (tableAt mem root p).bind fun t => F.next p.length (mem t i)

/-- The word at which a lookup along the path ends, with its level. -/
def lookup (mem : Nat → Idx → W) (root : Nat) : List Idx → Option (Nat × W)
  | [] => none
  | i :: p => match tableAt F mem root p with
    | some t => if F.live (mem t i) then some (p.length, mem t i) else none
    | none => lookup mem root p

/-- No table is reached in two ways. -/
def OnePath (mem : Nat → Idx → W) (root : Nat) : Prop :=
  ∀ ⦃p q : List Idx⦄ ⦃t : Nat⦄, tableAt F mem root p = some t → tableAt F mem root q = some t → p = q

/-- The tables hold what they held, but for one slot of one of them. -/
def SameBut (mem mem' : Nat → Idx → W) (root t : Nat) (i : Idx) : Prop :=
  ∀ ⦃q : List Idx⦄ ⦃t' : Nat⦄ ⦃j : Idx⦄, tableAt F mem root q = some t' → ¬ (t' = t ∧ j = i) →
    mem' t' j = mem t' j

variable {F} {mem mem' : Nat → Idx → W} {root t f : Nat} {p q : List Idx} {i : Idx}

theorem tableAt_cons (at_p : tableAt F mem root p = some t) :
    tableAt F mem root (i :: p) = F.next p.length (mem t i) := by
  rw [tableAt, at_p, Option.bind_some]

theorem lookup_cons (at_p : tableAt F mem root p = some t) :
    lookup F mem root (i :: p) = if F.live (mem t i) then some (p.length, mem t i) else none := by
  rw [lookup, at_p]

theorem lookup_skip (none_ : tableAt F mem root p = none) :
    lookup F mem root (i :: p) = lookup F mem root p := by
  rw [lookup, none_]

/-- Below a path without a table there is none. -/
theorem tableAt_below (none_ : tableAt F mem root p = none) (below : p <:+ q) :
    tableAt F mem root q = none := by
  obtain ⟨front, rfl⟩ := below
  induction front with
  | nil => exact none_
  | cons j front ih =>
    rw [List.cons_append, tableAt, ih, Option.bind_none]

/-- A slot that stands for nothing ends every lookup through it with nothing. -/
theorem lookup_vacant (at_p : tableAt F mem root p = some t) (dead : ¬ F.live (mem t i))
    (below : (i :: p) <:+ q) : lookup F mem root q = none := by
  have ends : tableAt F mem root (i :: p) = none := by
    rw [tableAt_cons at_p]
    cases next : F.next p.length (mem t i) with
    | none => rfl
    | some _ => exact absurd (F.live_of_next next) dead
  obtain ⟨front, rfl⟩ := below
  induction front with
  | nil => rw [List.nil_append, lookup_cons at_p, if_neg dead]
  | cons j front ih => rw [List.cons_append, lookup_skip (tableAt_below ends ⟨front, rfl⟩), ih]

/-- Where a lookup found its word. -/
theorem lookup_some {n : Nat} {w : W} (found : lookup F mem root q = some (n, w)) :
    ∃ j p t, (j :: p) <:+ q ∧ p.length = n ∧ tableAt F mem root p = some t ∧ mem t j = w ∧
      F.live w ∧ (j :: p = q ∨ tableAt F mem root (j :: p) = none) := by
  induction q with
  | nil => cases found
  | cons j q ih =>
    cases at_q : tableAt F mem root q with
    | some t =>
      rw [lookup_cons at_q] at found
      split at found
      · rename_i live
        cases found
        exact ⟨j, q, t, List.suffix_refl _, rfl, at_q, rfl, live, .inl rfl⟩
      · cases found
    | none =>
      rw [lookup_skip at_q] at found
      obtain ⟨j', p, t, below, length, at_p, word, live, ends⟩ := ih found
      refine ⟨j', p, t, below.trans (List.suffix_cons j q), length, at_p, word, live, .inr ?_⟩
      rcases ends with rfl | none_
      · exact at_q
      · exact none_

namespace SameBut

/-- Paths that do not pass through the slot lead where they led. -/
theorem tableAt_eq (same : SameBut F mem mem' root t i) (one : OnePath F mem root)
    (at_p : tableAt F mem root p = some t) (off : ¬ (i :: p) <:+ q) :
    tableAt F mem' root q = tableAt F mem root q := by
  induction q with
  | nil => rfl
  | cons j q ih =>
    rw [tableAt, tableAt, ih fun below => off (below.trans (List.suffix_cons j q))]
    cases at_q : tableAt F mem root q with
    | none => rfl
    | some t' =>
      rw [Option.bind_some, Option.bind_some, same at_q]
      rintro ⟨rfl, rfl⟩
      exact off (one at_p at_q ▸ List.suffix_refl _)

theorem lookup_eq (same : SameBut F mem mem' root t i) (one : OnePath F mem root)
    (at_p : tableAt F mem root p = some t) (off : ¬ (i :: p) <:+ q) :
    lookup F mem' root q = lookup F mem root q := by
  induction q with
  | nil => rfl
  | cons j q ih =>
    have outside : ¬ (i :: p) <:+ q := fun below => off (below.trans (List.suffix_cons j q))
    have tables := same.tableAt_eq one at_p outside
    cases at_q : tableAt F mem root q with
    | none => rw [lookup_skip at_q, lookup_skip (tables.trans at_q), ih outside]
    | some t' =>
      have slot : mem' t' j = mem t' j := by
        refine same at_q ?_
        rintro ⟨rfl, rfl⟩
        exact off (one at_p at_q ▸ List.suffix_refl _)
      rw [lookup_cons at_q, lookup_cons (tables.trans at_q), slot]

/-- The table whose slot was written is still there. -/
theorem tableAt_self (same : SameBut F mem mem' root t i) (one : OnePath F mem root)
    (at_p : tableAt F mem root p = some t) : tableAt F mem' root p = some t := by
  rw [same.tableAt_eq one at_p, at_p]
  intro below
  have longer := below.length_le
  rw [List.length_cons] at longer
  omega

end SameBut

theorem through_cases (through : (i :: p) <:+ q) : q = i :: p ∨ ∃ j, (j :: i :: p) <:+ q := by
  obtain ⟨front, rfl⟩ := through
  rcases List.eq_nil_or_concat front with rfl | ⟨front, j, rfl⟩
  · exact .inl rfl
  · exact .inr ⟨j, front, by simp⟩

/-! ## A word that names the same table -/

section Relabel

variable {t₁ : Nat} (same : SameBut F mem mem' root t i) (one : OnePath F mem root)
  (at_p : tableAt F mem root p = some t) (link : tableAt F mem root (i :: p) = some t₁)
  (still : F.next p.length (mem' t i) = some t₁)

include same one at_p link still

theorem tableAt_relabel (q : List Idx) : tableAt F mem' root q = tableAt F mem root q := by
  induction q with
  | nil => rfl
  | cons j q ih =>
    rw [tableAt, tableAt, ih]
    cases at_q : tableAt F mem root q with
    | none => rfl
    | some t' =>
      rw [Option.bind_some, Option.bind_some]
      by_cases here : t' = t ∧ j = i
      · obtain ⟨rfl, rfl⟩ := here
        obtain rfl := one at_p at_q
        rw [still, ← link, tableAt_cons at_q]
      · rw [same at_q here]

theorem lookup_relabel (off : q ≠ i :: p) : lookup F mem' root q = lookup F mem root q := by
  induction q with
  | nil => rfl
  | cons j q ih =>
    have tables := tableAt_relabel same one at_p link still q
    cases at_q : tableAt F mem root q with
    | none =>
      have before : q ≠ i :: p := by
        rintro rfl
        exact Option.some_ne_none _ (link.symm.trans at_q)
      rw [lookup_skip at_q, lookup_skip (tables.trans at_q), ih before]
    | some t' =>
      have slot : mem' t' j = mem t' j := by
        refine same at_q ?_
        rintro ⟨rfl, rfl⟩
        exact off (one at_p at_q ▸ rfl)
      rw [lookup_cons at_q, lookup_cons (tables.trans at_q), slot]

theorem OnePath.relabel : OnePath F mem' root := by
  intro q q' t' at_q at_q'
  rw [tableAt_relabel same one at_p link still] at at_q at_q'
  exact one at_q at_q'

end Relabel

/-! ## A word that names no table -/

section Leaf

variable (same : SameBut F mem mem' root t i) (one : OnePath F mem root)
  (at_p : tableAt F mem root p = some t) (before : ∀ w : W, F.next p.length w = none)

include same one at_p before

theorem tableAt_leaf (q : List Idx) : tableAt F mem' root q = tableAt F mem root q := by
  by_cases through : (i :: p) <:+ q
  · have gone : tableAt F mem root (i :: p) = none := by rw [tableAt_cons at_p, before]
    have gone' : tableAt F mem' root (i :: p) = none := by
      rw [tableAt_cons (same.tableAt_self one at_p), before]
    rw [tableAt_below gone through, tableAt_below gone' through]
  · exact same.tableAt_eq one at_p through

theorem OnePath.leaf : OnePath F mem' root := by
  intro q q' t' at_q at_q'
  rw [tableAt_leaf same one at_p before] at at_q at_q'
  exact one at_q at_q'

end Leaf

/-! ## An empty table hung in -/

section Graft

variable (same : SameBut F mem mem' root t i) (one : OnePath F mem root)
  (at_p : tableAt F mem root p = some t) (vacant : ¬ F.live (mem t i))
  (new : ∀ q, tableAt F mem root q ≠ some f) (link : F.next p.length (mem' t i) = some f)
  (blank : ∀ j, ¬ F.live (mem' f j))

include same one at_p link

theorem tableAt_graft : tableAt F mem' root (i :: p) = some f := by
  rw [tableAt_cons (same.tableAt_self one at_p), link]

include blank

theorem tableAt_graft_below {j : Idx} (below : (j :: i :: p) <:+ q) :
    tableAt F mem' root q = none := by
  refine tableAt_below ?_ below
  rw [tableAt_cons (tableAt_graft same one at_p link)]
  cases next : F.next (i :: p).length (mem' f j) with
  | none => rfl
  | some _ => exact absurd (F.live_of_next next) (blank j)

/-- What a path leads to: the new table, a table it led to, or nothing. -/
theorem tableAt_graft_cases {t' : Nat} (at_q : tableAt F mem' root q = some t') :
    q = i :: p ∧ t' = f ∨ ¬ (i :: p) <:+ q ∧ tableAt F mem root q = some t' := by
  by_cases through : (i :: p) <:+ q
  · rcases through_cases through with rfl | ⟨j, below⟩
    · rw [tableAt_graft same one at_p link] at at_q
      exact .inl ⟨rfl, (Option.some.inj at_q).symm⟩
    · rw [tableAt_graft_below same one at_p link blank below] at at_q
      exact absurd at_q (Option.some_ne_none _).symm
  · rw [same.tableAt_eq one at_p through] at at_q
    exact .inr ⟨through, at_q⟩

include new in
theorem OnePath.graft : OnePath F mem' root := by
  intro q q' t' at_q at_q'
  rcases tableAt_graft_cases same one at_p link blank at_q with ⟨here, isNew⟩ | ⟨_, old⟩ <;>
    rcases tableAt_graft_cases same one at_p link blank at_q' with ⟨here', isNew'⟩ | ⟨_, old'⟩
  · rw [here, here']
  · exact absurd old' (isNew ▸ new q')
  · exact absurd old (isNew' ▸ new q)
  · exact one old old'

include vacant in
theorem lookup_graft (off : q ≠ i :: p) : lookup F mem' root q = lookup F mem root q := by
  by_cases through : (i :: p) <:+ q
  · rw [lookup_vacant at_p vacant through]
    rcases through_cases through with rfl | ⟨j, below⟩
    · exact absurd rfl off
    · exact lookup_vacant (tableAt_graft same one at_p link) (blank j) below
  · exact same.lookup_eq one at_p through

end Graft

end LithiumKernel.Lib.Radix
