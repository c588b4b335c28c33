import Mathlib.Tactic.Common

/-!
# Runs of a labelled step relation

A run is a finite sequence of steps; the labels say what was done in which order. The
two rules are the ones a system of interleaved operations needs: an invariant of the
steps is one of the runs, and a relation that every step carries over to a reference
machine holds after every run.
-/
namespace LithiumKernel.Lib

universe u

variable {σ τ ℓ : Type u} {step : σ → ℓ → σ → Prop}

inductive Run (step : σ → ℓ → σ → Prop) (start : σ) : List ℓ → σ → Prop where
  | nil : Run step start [] start
  | snoc {labels s l s'} : Run step start labels s → step s l s' → Run step start (labels ++ [l]) s'

theorem Run.invariant (inv : σ → Prop) {start s : σ} {labels : List ℓ}
    (run : Run step start labels s) (init : inv start)
    (keep : ∀ s l s', inv s → step s l s' → inv s') : inv s := by
  induction run with
  | nil => exact init
  | snoc _ taken ih => exact keep _ _ _ ih taken

/-- `apply` is the reference machine; it follows the labels alone. -/
theorem Run.simulates (rel : σ → τ → Prop) (apply : τ → ℓ → τ) {start s : σ} {t : τ}
    {labels : List ℓ} (run : Run step start labels s) (init : rel start t)
    (keep : ∀ s l s' t, rel s t → step s l s' → rel s' (apply t l)) :
    rel s (labels.foldl apply t) := by
  induction run with
  | nil => exact init
  | snoc _ taken ih =>
    rw [List.foldl_append]
    exact keep _ _ _ _ ih taken

theorem Run.mono {step' : σ → ℓ → σ → Prop} {start s : σ} {labels : List ℓ}
    (run : Run step start labels s) (weaken : ∀ s l s', step s l s' → step' s l s') :
    Run step' start labels s := by
  induction run with
  | nil => exact .nil
  | snoc _ taken ih => exact .snoc ih (weaken _ _ _ taken)

theorem Run.split {start s : σ} {xs ys : List ℓ} (run : Run step start (xs ++ ys) s) :
    ∃ mid, Run step start xs mid ∧ Run step mid ys s := by
  generalize whole : xs ++ ys = labels at run
  induction run generalizing ys with
  | nil =>
    obtain ⟨rfl, rfl⟩ := List.append_eq_nil_iff.mp whole
    exact ⟨start, .nil, .nil⟩
  | @snoc labels s l s' before taken ih =>
    rcases List.eq_nil_or_concat ys with rfl | ⟨ys, last, rfl⟩
    · rw [List.append_nil] at whole
      exact ⟨s', by rw [whole]; exact before.snoc taken, .nil⟩
    · rw [List.concat_eq_append, ← List.append_assoc] at whole
      obtain ⟨front, same⟩ := List.append_inj' whole rfl
      obtain rfl := List.singleton_inj.mp same
      obtain ⟨mid, first, second⟩ := ih front
      exact ⟨mid, first, by rw [List.concat_eq_append]; exact second.snoc taken⟩

theorem Run.single {s s' : σ} {l : ℓ} (run : Run step s [l] s') : step s l s' := by
  generalize whole : [l] = labels at run
  cases run with
  | nil => cases whole
  | @snoc labels mid _ _ before taken =>
    rcases List.append_eq_singleton_iff.mp whole.symm with ⟨rfl, same⟩ | ⟨_, none⟩
    · obtain rfl := List.singleton_inj.mp same
      generalize empty : [] = labels at before
      cases before with
      | nil => exact taken
      | snoc => exact absurd empty (by simp)
    · cases none

end LithiumKernel.Lib
