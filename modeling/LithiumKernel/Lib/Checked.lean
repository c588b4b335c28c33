import Mathlib.Algebra.Group.Nat.Defs
import Mathlib.Tactic.Common

/-!
# Checked runs

To say that a computation never does something (read out of bounds, wrap an addition), it is
written a second time with a check before each such step, in `ExceptT`. `Safe` relates the two:
whatever the state, no check fails and the checked run is the plain one. The rules follow the
structure of a program, so that a proof only has to look at the checks.
-/
namespace LithiumKernel.Lib

/-! ## Checked arithmetic -/

section Arithmetic

variable {φ : Type} {w : Nat} (fault : φ)

def addOk (a b : BitVec w) : Except φ (BitVec w) :=
  if a.toNat + b.toNat < 2 ^ w then .ok (a + b) else .error fault

def subOk (a b : BitVec w) : Except φ (BitVec w) :=
  if b ≤ a then .ok (a - b) else .error fault

def mulOk (a b : BitVec w) : Except φ (BitVec w) :=
  if a.toNat * b.toNat < 2 ^ w then .ok (a * b) else .error fault

variable {fault} {a b : BitVec w}

theorem addOk_ok (fits : a.toNat + b.toNat < 2 ^ w) : addOk fault a b = .ok (a + b) := if_pos fits

theorem subOk_ok (fits : b.toNat ≤ a.toNat) : subOk fault a b = .ok (a - b) := if_pos fits

theorem mulOk_ok (fits : a.toNat * b.toNat < 2 ^ w) : mulOk fault a b = .ok (a * b) := if_pos fits

end Arithmetic

/-! ## Checked computations -/

section Runs

variable {ε σ φ : Type} {α β γ : Type}

/-- A check made on the way. -/
def check (x : Except φ α) : ExceptT φ (EStateM ε σ) α := ExceptT.mk (pure x)

/-- No check of `c` fails, and apart from the checks it is `m`. -/
def Safe (c : ExceptT φ (EStateM ε σ) α) (m : EStateM ε σ α) : Prop := c.run = Except.ok <$> m

namespace Safe

theorem pure (a : α) : Safe (φ := φ) (ε := ε) (σ := σ) (Pure.pure a) (Pure.pure a) := rfl

theorem lift (m : EStateM ε σ α) : Safe (φ := φ) (liftM m) m := rfl

/-- Sequencing, where something is known of what the first part returns. -/
theorem bind_known {P : α → Prop} {c : ExceptT φ (EStateM ε σ) α} {m : EStateM ε σ α}
    {k : α → ExceptT φ (EStateM ε σ) β} {j : α → EStateM ε σ β} (first : Safe c m)
    (known : ∀ s a s', m s = .ok a s' → P a) (rest : ∀ a, P a → Safe (k a) (j a)) :
    Safe (c >>= k) (m >>= j) := by
  unfold Safe at *
  rw [ExceptT.run_bind, first, map_eq_pure_bind, bind_assoc, map_bind]
  funext s
  change EStateM.bind m _ s = EStateM.bind m _ s
  unfold EStateM.bind
  cases ran : m s with
  | ok a s' => exact congrFun (rest a (known s a s' ran)) s'
  | error e s' => rfl

theorem bind {c : ExceptT φ (EStateM ε σ) α} {m : EStateM ε σ α}
    {k : α → ExceptT φ (EStateM ε σ) β} {j : α → EStateM ε σ β} (first : Safe c m)
    (rest : ∀ a, Safe (k a) (j a)) : Safe (c >>= k) (m >>= j) :=
  .bind_known (P := fun _ => True) first (fun _ _ _ _ => trivial) (fun a _ => rest a)

/-- A check that passes. -/
theorem checked {x : Except φ α} {a : α} {k : α → ExceptT φ (EStateM ε σ) β} {m : EStateM ε σ β}
    (passes : x = .ok a) (rest : Safe (k a) m) : Safe (check x >>= k) m := by
  subst passes
  exact rest

theorem ite {p : Prop} [Decidable p] {c d : ExceptT φ (EStateM ε σ) α} {m n : EStateM ε σ α}
    (yes : p → Safe c m) (no : ¬ p → Safe d n) :
    Safe (if p then c else d) (if p then m else n) := by
  split
  · exact yes ‹_›
  · exact no ‹_›

theorem allM {xs : List γ} {c : γ → ExceptT φ (EStateM ε σ) Bool} {m : γ → EStateM ε σ Bool}
    (each : ∀ x ∈ xs, Safe (c x) (m x)) : Safe (xs.allM c) (xs.allM m) := by
  induction xs with
  | nil => exact .pure true
  | cons x rest ih =>
    rw [List.allM_cons, List.allM_cons]
    refine .bind (each x (List.mem_cons_self ..)) ?_
    intro done
    cases done with
    | false => exact .pure false
    | true => exact ih fun y member => each y (List.mem_cons_of_mem _ member)

end Safe

end Runs

end LithiumKernel.Lib
