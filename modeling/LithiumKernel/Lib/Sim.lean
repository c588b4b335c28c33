import LithiumKernel.Lib.Wp

/-!
# Two computations side by side

`Sim R m m' s t` compares two computations, over states of different types, from one pair of
states: they end the same way, with the same value or the same error, in states related by
`R`. The rules follow the syntax of the two computations.
-/
namespace LithiumKernel.Lib

universe u

variable {ε σ τ α β : Type u} {R : σ → τ → Prop} {s : σ} {t : τ}

def Sim (R : σ → τ → Prop) (m : EStateM ε σ α) (m' : EStateM ε τ α) (s : σ) (t : τ) : Prop :=
  match m s, m' t with
  | .ok a s', .ok a' t' => a = a' ∧ R s' t'
  | .error e s', .error e' t' => e = e' ∧ R s' t'
  | _, _ => False

namespace Sim

theorem pure (a : α) (rel : R s t) :
    Sim R (pure a : EStateM ε σ α) (pure a : EStateM ε τ α) s t := ⟨rfl, rel⟩

theorem throw (e : ε) (rel : R s t) :
    Sim R (throw e : EStateM ε σ α) (throw e : EStateM ε τ α) s t := ⟨rfl, rel⟩

theorem get {k : σ → EStateM ε σ α} {k' : τ → EStateM ε τ α} (rest : Sim R (k s) (k' t) s t) :
    Sim R (MonadState.get >>= k) (MonadState.get >>= k') s t := rest

theorem set {s' : σ} {t' : τ} (rel : R s' t') :
    Sim R (MonadStateOf.set s' : EStateM ε σ PUnit) (MonadStateOf.set t' : EStateM ε τ PUnit) s t :=
  ⟨rfl, rel⟩

/-- Both go on from related states. -/
theorem seq {m : EStateM ε σ α} {m' : EStateM ε τ α} {k : α → EStateM ε σ β}
    {k' : α → EStateM ε τ β} (first : Sim R m m' s t)
    (rest : ∀ a s' t', R s' t' → Sim R (k a) (k' a) s' t') :
    Sim R (m >>= k) (m' >>= k') s t := by
  unfold Sim at first
  unfold Sim
  simp only [Bind.bind, EStateM.bind]
  cases left : m s with
  | ok a s' =>
    cases right : m' t with
    | ok a' t' =>
      simp only [left, right] at first ⊢
      obtain ⟨rfl, rel⟩ := first
      exact rest a s' t' rel
    | error e t' =>
      simp only [left, right] at first
  | error e s' =>
    cases right : m' t with
    | ok a' t' =>
      simp only [left, right] at first
    | error e' t' =>
      simp only [left, right] at first ⊢
      exact first

/-- First steps whose results are known. -/
theorem run {m : EStateM ε σ α} {m' : EStateM ε τ α} {k : α → EStateM ε σ β}
    {k' : α → EStateM ε τ β} {a : α} {s' : σ} {t' : τ} (left : m s = .ok a s')
    (right : m' t = .ok a t') (rest : Sim R (k a) (k' a) s' t') :
    Sim R (m >>= k) (m' >>= k') s t := by
  unfold Sim at rest ⊢
  simp only [Bind.bind, EStateM.bind, left, right]
  exact rest

theorem ite {c : Prop} [Decidable c] {m n : EStateM ε σ α} {m' n' : EStateM ε τ α}
    (yes : c → Sim R m m' s t) (no : ¬ c → Sim R n n' s t) :
    Sim R (if c then m else n) (if c then m' else n') s t := by
  split
  · exact yes ‹_›
  · exact no ‹_›

theorem imp {m : EStateM ε σ α} {m' : EStateM ε τ α} {S : σ → τ → Prop} (sim : Sim S m m' s t)
    (weaken : ∀ s t, S s t → R s t) : Sim R m m' s t := by
  unfold Sim at sim ⊢
  cases left : m s <;> cases right : m' t <;> simp only [left, right] at sim ⊢
  · exact ⟨sim.1, weaken _ _ sim.2⟩
  · exact ⟨sim.1, weaken _ _ sim.2⟩

theorem symm {m : EStateM ε σ α} {m' : EStateM ε τ α} (sim : Sim R m m' s t) :
    Sim (fun t s => R s t) m' m t s := by
  unfold Sim at sim ⊢
  cases left : m s <;> cases right : m' t <;> simp only [left, right] at sim ⊢
  · exact ⟨sim.1.symm, sim.2⟩
  · exact ⟨sim.1.symm, sim.2⟩

/-- A return of the first is one of the second. -/
theorem ok {m : EStateM ε σ α} {m' : EStateM ε τ α} {a : α} {s' : σ} (sim : Sim R m m' s t)
    (ran : m s = .ok a s') : ∃ t', m' t = .ok a t' ∧ R s' t' := by
  unfold Sim at sim
  rw [ran] at sim
  cases right : m' t with
  | ok a' t' =>
    rw [right] at sim
    obtain ⟨rfl, rel⟩ := sim
    exact ⟨t', rfl, rel⟩
  | error e t' =>
    rw [right] at sim
    exact sim.elim

end Sim

end LithiumKernel.Lib
