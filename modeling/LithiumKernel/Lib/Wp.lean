import Mathlib.Tactic.Common

/-!
# Weakest preconditions for state with a halting error

A computation in `EStateM` either returns a value or stops with an error, and in
both cases leaves a state behind. `wp` keeps the two outcomes apart: `post` is
asked of a normal return and `halt` of a stop. The rules below are the ones loops
and sequencing need; nothing here depends on the state or the error type.
-/
namespace LithiumKernel.Lib

universe u

variable {ε σ α β : Type u}

/-- Every outcome of `m` from `s` is covered: a return by `post`, a stop by `halt`. -/
def wp (m : EStateM ε σ α) (post : α → σ → Prop) (halt : ε → σ → Prop) (s : σ) : Prop :=
  match m s with
  | .ok a s' => post a s'
  | .error e s' => halt e s'

theorem wp_ok {m : EStateM ε σ α} {post : α → σ → Prop} {halt : ε → σ → Prop} {s s' : σ} {a : α}
    (h : wp m post halt s) (run : m s = .ok a s') : post a s' := by
  simpa only [wp, run] using h

theorem wp_error {m : EStateM ε σ α} {post : α → σ → Prop} {halt : ε → σ → Prop} {s s' : σ}
    {e : ε} (h : wp m post halt s) (run : m s = .error e s') : halt e s' := by
  simpa only [wp, run] using h

theorem wp_run {m : EStateM ε σ α} {s s' : σ} {a : α} (run : m s = .ok a s')
    (post : α → σ → Prop) (halt : ε → σ → Prop) : wp m post halt s ↔ post a s' := by
  rw [wp, run]

/-- A computation that may not stop returns. -/
theorem wp_halt {m : EStateM ε σ α} {s s' : σ} {e : ε} (run : m s = .error e s')
    {post : α → σ → Prop} {halt : ε → σ → Prop} : wp m post halt s ↔ halt e s' := by
  rw [wp, run]

theorem exists_run {m : EStateM ε σ α} {post : α → σ → Prop} {s : σ}
    (h : wp m post (fun _ _ => False) s) : ∃ a s', m s = .ok a s' ∧ post a s' := by
  unfold wp at h
  split at h
  · exact ⟨_, _, ‹_›, h⟩
  · exact h.elim

/-- A specification that leaves one outcome determines the run. -/
theorem run_of_wp {m : EStateM ε σ α} {s s' : σ} {a : α}
    (h : wp m (fun x t => x = a ∧ t = s') (fun _ _ => False) s) : m s = .ok a s' := by
  obtain ⟨_, _, ran, rfl, rfl⟩ := exists_run h
  exact ran

theorem result_of_wp {m : EStateM ε σ α} {s : σ} {r : EStateM.Result ε σ α}
    (spec : wp m (fun a s' => .ok a s' = r) (fun e s' => .error e s' = r) s) : m s = r := by
  unfold wp at spec
  cases ran : m s with
  | ok a s' =>
    rw [ran] at spec
    exact spec
  | error e s' =>
    rw [ran] at spec
    exact spec

theorem wp_mono {m : EStateM ε σ α} {post post' : α → σ → Prop} {halt halt' : ε → σ → Prop} {s : σ}
    (h : wp m post halt s) (weaken : ∀ a s', post a s' → post' a s')
    (weakenHalt : ∀ e s', halt e s' → halt' e s') : wp m post' halt' s := by
  unfold wp at *
  split at h
  · exact weaken _ _ h
  · exact weakenHalt _ _ h

/-- Consequence with the stopping condition left alone. -/
theorem wp_imp {m : EStateM ε σ α} {post post' : α → σ → Prop} {halt : ε → σ → Prop} {s : σ}
    (h : wp m post halt s) (weaken : ∀ a s', post a s' → post' a s') : wp m post' halt s :=
  wp_mono h weaken (fun _ _ hh => hh)

/-- Two things known of one computation. -/
theorem wp_and {m : EStateM ε σ α} {post post' : α → σ → Prop} {halt halt' : ε → σ → Prop} {s : σ}
    (first : wp m post halt s) (second : wp m post' halt' s) :
    wp m (fun a s' => post a s' ∧ post' a s') halt s := by
  unfold wp at *
  cases result : m s with
  | ok a s' =>
    rw [result] at first second
    exact ⟨first, second⟩
  | error e s' =>
    rw [result] at first
    exact first

/-- A specification together with the run it is about. -/
theorem wp_of_run {m : EStateM ε σ α} {post : α → σ → Prop} {halt : ε → σ → Prop} {s : σ}
    (spec : wp m post halt s) :
    wp m (fun a s' => m s = .ok a s' ∧ post a s') (fun e s' => m s = .error e s' ∧ halt e s') s := by
  unfold wp at *
  cases ran : m s with
  | ok a s' =>
    rw [ran] at spec
    exact ⟨rfl, spec⟩
  | error e s' =>
    rw [ran] at spec
    exact ⟨rfl, spec⟩

theorem wp_true {m : EStateM ε σ α} (s : σ) : wp m (fun _ _ => True) (fun _ _ => True) s := by
  unfold wp
  cases m s <;> trivial

@[simp] theorem wp_pure (a : α) (post : α → σ → Prop) (halt : ε → σ → Prop) (s : σ) :
    wp (pure a : EStateM ε σ α) post halt s ↔ post a s := Iff.rfl

@[simp] theorem wp_get (post : σ → σ → Prop) (halt : ε → σ → Prop) (s : σ) :
    wp (get : EStateM ε σ σ) post halt s ↔ post s s := Iff.rfl

@[simp] theorem wp_modify (f : σ → σ) (post : PUnit → σ → Prop) (halt : ε → σ → Prop) (s : σ) :
    wp (modify f : EStateM ε σ PUnit) post halt s ↔ post ⟨⟩ (f s) := Iff.rfl

theorem wp_bind (m : EStateM ε σ α) (k : α → EStateM ε σ β) (post : β → σ → Prop)
    (halt : ε → σ → Prop) (s : σ) :
    wp (m >>= k) post halt s ↔ wp m (fun a s' => wp (k a) post halt s') halt s := by
  change wp (EStateM.bind m k) post halt s ↔ _
  unfold wp EStateM.bind
  cases m s <;> rfl

/-- A bound computation, run through a specification of its first part. -/
theorem wp_seq {m : EStateM ε σ α} {k : α → EStateM ε σ β} {mid : α → σ → Prop}
    {post : β → σ → Prop} {halt : ε → σ → Prop} {s : σ} (first : wp m mid halt s)
    (rest : ∀ a s', mid a s' → wp (k a) post halt s') : wp (m >>= k) post halt s :=
  (wp_bind m k post halt s).mpr (wp_imp first rest)

theorem wp_ite {c : Prop} [Decidable c] {m n : EStateM ε σ α} {post : α → σ → Prop}
    {halt : ε → σ → Prop} {s : σ} (yes : c → wp m post halt s) (no : ¬ c → wp n post halt s) :
    wp (if c then m else n) post halt s := by
  split
  · exact yes ‹_›
  · exact no ‹_›

/-- Loop over a list: `inv` speaks of the elements already visited. -/
theorem wp_forM {γ : Type u} {body : γ → EStateM ε σ PUnit} {halt : ε → σ → Prop}
    (inv : List γ → σ → Prop) (xs : List γ) {s : σ}
    (step : ∀ done x rest s, xs = done ++ x :: rest → inv done s →
      wp (body x) (fun _ s' => inv (done ++ [x]) s') halt s)
    (init : inv [] s) : wp (forM xs body) (fun _ s' => inv xs s') halt s := by
  have tail : ∀ (rest done : List γ) (s : σ), xs = done ++ rest → inv done s →
      wp (forM rest body) (fun _ s' => inv xs s') halt s := by
    intro rest
    induction rest with
    | nil =>
      intro done s split h
      simpa [split] using h
    | cons x rest ih =>
      intro done s split h
      rw [List.forM_cons]
      refine wp_seq (step done x rest s split h) ?_
      intro _ s' h'
      exact ih (done ++ [x]) s' (by simp [split]) h'
  exact tail xs [] s rfl init

/-- Loop that stops at the first `false`: `inv` holds as long as every visited
element answered `true`, `stop` after the element that answered `false`. -/
theorem wp_allM {γ σ ε : Type} {body : γ → EStateM ε σ Bool} {halt : ε → σ → Prop}
    (inv : List γ → σ → Prop) (stop : σ → Prop) (xs : List γ) {s : σ}
    (step : ∀ done x rest s, xs = done ++ x :: rest → inv done s →
      wp (body x) (fun b s' => if b then inv (done ++ [x]) s' else stop s') halt s)
    (init : inv [] s) :
    wp (xs.allM body) (fun b s' => if b then inv xs s' else stop s') halt s := by
  have tail : ∀ (rest done : List γ) (s : σ), xs = done ++ rest → inv done s →
      wp (rest.allM body) (fun b s' => if b then inv xs s' else stop s') halt s := by
    intro rest
    induction rest with
    | nil =>
      intro done s split h
      simpa [split] using h
    | cons x rest ih =>
      intro done s split h
      rw [List.allM_cons]
      refine wp_seq (step done x rest s split h) ?_
      intro b s' h'
      cases b with
      | false => simpa using h'
      | true => exact ih (done ++ [x]) s' (by simp [split]) h'
  exact tail xs [] s rfl init

/-- A state invariant that every element of a loop keeps. -/
theorem wp_forM_inv {γ : Type u} {body : γ → EStateM ε σ PUnit} {halt : ε → σ → Prop}
    (inv : σ → Prop) {xs : List γ} {s : σ}
    (step : ∀ x ∈ xs, ∀ s, inv s → wp (body x) (fun _ s' => inv s') halt s) (init : inv s) :
    wp (forM xs body) (fun _ s' => inv s') halt s := by
  refine wp_forM (fun _ s => inv s) xs ?_ init
  intro done x rest s split h
  exact step x (by simp [split]) s h

theorem wp_allM_inv {γ σ ε : Type} {body : γ → EStateM ε σ Bool} {halt : ε → σ → Prop}
    (inv : σ → Prop) {xs : List γ} {s : σ}
    (step : ∀ x ∈ xs, ∀ s, inv s → wp (body x) (fun _ s' => inv s') halt s) (init : inv s) :
    wp (xs.allM body) (fun _ s' => inv s') halt s := by
  refine wp_imp (wp_allM (fun _ s => inv s) inv xs ?_ init) ?_
  · intro done x rest s split h
    refine wp_imp (step x (by simp [split]) s h) ?_
    intro b s' after
    cases b <;> exact after
  · intro b s' after
    cases b <;> exact after

/-! ## Parts of the state that stay as they are -/

/-- When `m` returns, `f` of the state is as before. -/
def Keeps {γ : Type u} (f : σ → γ) (m : EStateM ε σ α) : Prop :=
  ∀ s, wp m (fun _ s' => f s' = f s) (fun _ _ => True) s

namespace Keeps

variable {γ : Type u} {f : σ → γ}

theorem pure (a : α) : Keeps f (pure a : EStateM ε σ α) := fun _ => rfl

theorem throw (e : ε) : Keeps f (throw e : EStateM ε σ α) := fun _ => trivial

theorem get : Keeps f (get : EStateM ε σ σ) := fun _ => rfl

theorem bind {m : EStateM ε σ α} {k : α → EStateM ε σ β} (first : Keeps f m)
    (rest : ∀ a, Keeps f (k a)) : Keeps f (m >>= k) := by
  intro s
  refine wp_seq (first s) ?_
  intro a s' same
  refine wp_imp (rest a s') ?_
  intro _ s'' same'
  exact same'.trans same

theorem ite {c : Prop} [Decidable c] {m n : EStateM ε σ α} (yes : Keeps f m) (no : Keeps f n) :
    Keeps f (if c then m else n) := by
  split
  · exact yes
  · exact no

theorem forM {δ : Type u} {body : δ → EStateM ε σ PUnit} (xs : List δ)
    (step : ∀ x, Keeps f (body x)) : Keeps f (forM xs body) := by
  induction xs with
  | nil => exact .pure _
  | cons x xs ih =>
    rw [List.forM_cons]
    exact (step x).bind fun _ => ih

theorem allM {δ ε σ γ : Type} {f : σ → γ} {body : δ → EStateM ε σ Bool} (xs : List δ)
    (step : ∀ x, Keeps f (body x)) : Keeps f (xs.allM body) := by
  induction xs with
  | nil => exact .pure _
  | cons x xs ih =>
    rw [List.allM_cons]
    refine (step x).bind fun b => ?_
    cases b
    · exact .pure _
    · exact ih

end Keeps

/-! ## Errors a computation can stop with -/

def Throws (P : ε → Prop) (m : EStateM ε σ α) : Prop :=
  ∀ s, wp m (fun _ _ => True) (fun e _ => P e) s

namespace Throws

variable {P : ε → Prop}

theorem pure (a : α) : Throws P (pure a : EStateM ε σ α) := fun _ => trivial

theorem get : Throws P (get : EStateM ε σ σ) := fun _ => trivial

theorem bind {m : EStateM ε σ α} {k : α → EStateM ε σ β} (first : Throws P m)
    (rest : ∀ a, Throws P (k a)) : Throws P (m >>= k) :=
  fun s => wp_seq (first s) fun a s' _ => rest a s'

theorem ite {c : Prop} [Decidable c] {m n : EStateM ε σ α} (yes : Throws P m) (no : Throws P n) :
    Throws P (if c then m else n) := by
  split
  · exact yes
  · exact no

theorem forM {δ : Type u} {body : δ → EStateM ε σ PUnit} (xs : List δ)
    (step : ∀ x, Throws P (body x)) : Throws P (forM xs body) :=
  fun _ => wp_forM_inv (fun _ => True) (fun x _ s _ => step x s) trivial

theorem allM {δ ε σ : Type} {P : ε → Prop} {body : δ → EStateM ε σ Bool} (xs : List δ)
    (step : ∀ x, Throws P (body x)) : Throws P (xs.allM body) :=
  fun _ => wp_allM_inv (fun _ => True) (fun x _ s _ => step x s) trivial

/-- A computation that cannot stop where its specification would let it returns. -/
theorem returns {m : EStateM ε σ α} {post : α → σ → Prop} {halt : ε → σ → Prop} {s : σ}
    (h : Throws P m) (spec : wp m post halt s) (never : ∀ e s', halt e s' → ¬ P e) :
    ∃ a s', m s = .ok a s' ∧ post a s' := by
  refine exists_run ?_
  have errors := h s
  unfold wp at *
  cases ran : m s with
  | ok a s' =>
    rw [ran] at spec
    exact spec
  | error e s' =>
    rw [ran] at spec errors
    exact never e s' spec errors

end Throws

/-! ## Running a computation on a fixed state -/

def resultState : EStateM.Result ε σ α → σ
  | .ok _ s => s
  | .error _ s => s

def resultValue : EStateM.Result ε σ α → Option α
  | .ok a _ => some a
  | .error _ _ => none

theorem result_eq {r : EStateM.Result ε σ α} {a : α} (value : resultValue r = some a) :
    r = .ok a (resultState r) := by
  cases r with
  | ok b s => rw [Option.some.inj value, resultState]
  | error e s => cases value

/-- A sequence that returns has returned from its first part. -/
theorem resultValue_bind {m : EStateM ε σ α} {k : α → EStateM ε σ β} {s : σ} {b : β}
    (value : resultValue ((m >>= k) s) = some b) :
    ∃ a s', m s = .ok a s' ∧ resultValue (k a s') = some b := by
  change resultValue (EStateM.bind m k s) = some b at value
  unfold EStateM.bind at value
  cases first : m s with
  | ok a s' =>
    rw [first] at value
    exact ⟨a, s', rfl, value⟩
  | error e s' =>
    rw [first] at value
    cases value

end LithiumKernel.Lib
