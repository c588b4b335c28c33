import Mathlib.Tactic.Common

/-!
# Loops that may not end

A loop is a step on its state; it gives no state when the loop is left. The rule for a loop whose
rounds either come nearer to the end or do nothing: it ends iff it visits no state in which it
stalls.
-/
namespace LithiumKernel.Lib

universe u

variable {σ : Type u} {step : σ → Option σ} {s t : σ}

/-- The state after `n` rounds, none when the loop has been left before. -/
def rounds (step : σ → Option σ) : Nat → σ → Option σ
  | 0, s => some s
  | n + 1, s => (step s).bind (rounds step n)

def Ends (step : σ → Option σ) (s : σ) : Prop := ∃ n, rounds step n s = none

inductive Visits (step : σ → Option σ) : σ → σ → Prop where
  | here (s : σ) : Visits step s s
  | next {s t u : σ} : step s = some t → Visits step t u → Visits step s u

theorem ends_of_exit (exit : step s = none) : Ends step s := ⟨1, by rw [rounds, exit]; rfl⟩

theorem ends_next (next : step s = some t) : Ends step s ↔ Ends step t := by
  constructor
  · rintro ⟨_ | n, left⟩
    · cases left
    · rw [rounds, next] at left
      exact ⟨n, left⟩
  · rintro ⟨n, left⟩
    exact ⟨n + 1, by rw [rounds, next]; exact left⟩

theorem not_ends_of_stall {stalls : σ → Prop} (stays : ∀ s, stalls s → ∃ t, step s = some t ∧ stalls t)
    (stalled : stalls s) : ¬ Ends step s := by
  rintro ⟨n, left⟩
  induction n generalizing s with
  | zero => cases left
  | succ n ih =>
    obtain ⟨t, next, still⟩ := stays s stalled
    rw [rounds, next] at left
    exact ih still left

/-- `measure_` counts what is left of the way; a state that stalls leads to one that stalls. -/
theorem ends_iff_never_stalls {measure_ : σ → Nat} {stalls : σ → Prop}
    (progress : ∀ s t, step s = some t → ¬ stalls s → measure_ t < measure_ s)
    (stays : ∀ s, stalls s → ∃ t, step s = some t ∧ stalls t) (s : σ) :
    Ends step s ↔ ∀ t, Visits step s t → ¬ stalls t := by
  constructor
  · intro ends t visit
    induction visit with
    | here s => exact fun stalled => not_ends_of_stall stays stalled ends
    | next taken _ ih => exact ih ((ends_next taken).mp ends)
  · intro never
    induction left : measure_ s using Nat.strongRecOn generalizing s with
    | ind n ih =>
      cases taken : step s with
      | none => exact ends_of_exit taken
      | some t =>
        have nearer := progress s t taken (never s (.here s))
        exact (ends_next taken).mpr
          (ih _ (left ▸ nearer) t (fun u visit => never u (.next taken visit)) rfl)

end LithiumKernel.Lib
