import Mathlib.Data.List.Basic

/-!
# Linked lists in a map of pointers

`next` maps a node to the node its linkage field names. `Links next h xs` says that the list that
starts at `h` and ends in `none` consists of the nodes `xs`.
-/
namespace LithiumKernel.Lib

variable {P : Type}

def Links (next : P → Option P) : Option P → List P → Prop
  | h, [] => h = none
  | h, x :: xs => h = some x ∧ Links next (next x) xs

variable {next next' : P → Option P} {xs : List P}

theorem Links.congr (same : ∀ x ∈ xs, next' x = next x) : ∀ {h}, Links next h xs → Links next' h xs := by
  induction xs with
  | nil => exact fun links => links
  | cons x xs ih =>
    rintro h ⟨first, rest⟩
    refine ⟨first, ?_⟩
    rw [same x (by simp)]
    exact ih (fun y member => same y (List.mem_cons_of_mem _ member)) rest

end LithiumKernel.Lib
