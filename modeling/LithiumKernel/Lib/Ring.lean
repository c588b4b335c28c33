import Mathlib.Data.List.Basic
import Mathlib.Logic.Function.Basic
import Mathlib.Tactic.SplitIfs

/-!
# Ring buffers with one free slot

A buffer of `n` slots with the index of the oldest element and that of the next free slot. The two
are equal in an empty buffer, so a buffer that would become empty by one more element counts as
full and holds `n - 1` elements at most. `pending` is the queue the buffer stands for.
-/
namespace LithiumKernel.Lib

structure RingBuffer (α : Type) where
  buf : Nat → α
  head : Nat
  tail : Nat

/-- The slot of an index that is at most one round too large. -/
def wrap (n i : Nat) : Nat := if i < n then i else i - n

theorem wrap_lt {n i : Nat} (lt : i < 2 * n) : wrap n i < n := by
  unfold wrap
  split <;> omega

theorem wrap_next {n h i : Nat} (head : h < n) (lt : i < n) :
    wrap n (wrap n (h + 1) + i) = wrap n (h + (i + 1)) := by
  unfold wrap
  split_ifs <;> omega

namespace RingBuffer

variable {α : Type} {n : Nat} {r : RingBuffer α}

structure Ok (n : Nat) (r : RingBuffer α) : Prop where
  head : r.head < n
  tail : r.tail < n

def count (n : Nat) (r : RingBuffer α) : Nat :=
  if r.head ≤ r.tail then r.tail - r.head else r.tail + n - r.head

/-- The elements from the oldest to the newest. -/
def pending (n : Nat) (r : RingBuffer α) : List α :=
  (List.range (count n r)).map fun i => r.buf (wrap n (r.head + i))

/-- The buffer with `c` in the next free slot. -/
def store (n : Nat) (c : α) (r : RingBuffer α) : RingBuffer α :=
  { r with buf := Function.update r.buf r.tail c, tail := wrap n (r.tail + 1) }

/-- The buffer without its oldest element. -/
def advance (n : Nat) (r : RingBuffer α) : RingBuffer α := { r with head := wrap n (r.head + 1) }

theorem length_pending (n : Nat) (r : RingBuffer α) : (pending n r).length = count n r := by
  rw [pending, List.length_map, List.length_range]

theorem count_lt (ok : Ok n r) : count n r < n := by
  obtain ⟨head, tail⟩ := ok
  unfold count
  split <;> omega

theorem full_iff (ok : Ok n r) : wrap n (r.tail + 1) = r.head ↔ count n r = n - 1 := by
  obtain ⟨head, tail⟩ := ok
  unfold wrap count
  split <;> split <;> omega

theorem empty_iff (ok : Ok n r) : r.head = r.tail ↔ count n r = 0 := by
  obtain ⟨head, tail⟩ := ok
  unfold count
  split <;> omega

theorem Ok.store (ok : Ok n r) (c : α) : Ok n (store n c r) :=
  ⟨ok.head, wrap_lt (by have := ok.tail; omega)⟩

theorem Ok.advance (ok : Ok n r) : Ok n (advance n r) :=
  ⟨wrap_lt (by have := ok.head; omega), ok.tail⟩

theorem count_store (ok : Ok n r) (room : wrap n (r.tail + 1) ≠ r.head) (c : α) :
    count n (store n c r) = count n r + 1 := by
  obtain ⟨head, tail⟩ := ok
  unfold wrap at room
  unfold count store wrap
  dsimp only
  split_ifs at room ⊢ <;> omega

/-- The slots of the pending elements are not the next free one. -/
theorem slot_ne_tail (ok : Ok n r) {i : Nat} (lt : i < count n r) : wrap n (r.head + i) ≠ r.tail := by
  obtain ⟨head, tail⟩ := ok
  unfold count at lt
  unfold wrap
  split at lt <;> split <;> omega

theorem slot_count (ok : Ok n r) : wrap n (r.head + count n r) = r.tail := by
  obtain ⟨head, tail⟩ := ok
  unfold count wrap
  split <;> split <;> omega

theorem pending_store (ok : Ok n r) (room : wrap n (r.tail + 1) ≠ r.head) (c : α) :
    pending n (store n c r) = pending n r ++ [c] := by
  have old : ∀ i ∈ List.range (count n r),
      (store n c r).buf (wrap n (r.head + i)) = r.buf (wrap n (r.head + i)) := fun i member =>
    Function.update_of_ne (slot_ne_tail ok (List.mem_range.mp member)) _ _
  have new : (store n c r).buf (wrap n (r.head + count n r)) = c := by
    rw [slot_count ok]
    exact Function.update_self ..
  have split : pending n (store n c r) = (List.range (count n r)).map
      (fun i => (store n c r).buf (wrap n (r.head + i))) ++
        [(store n c r).buf (wrap n (r.head + count n r))] := by
    rw [pending, count_store ok room, List.range_succ, List.map_append, List.map_singleton]
    rfl
  rw [split, List.map_congr_left old, new]
  rfl

theorem count_advance (ok : Ok n r) (some_ : r.head ≠ r.tail) :
    count n r = count n (advance n r) + 1 := by
  obtain ⟨head, tail⟩ := ok
  unfold count advance wrap
  dsimp only
  split_ifs <;> omega

theorem pending_advance (ok : Ok n r) (some_ : r.head ≠ r.tail) :
    pending n r = r.buf r.head :: pending n (advance n r) := by
  have shift : ∀ i ∈ List.range (count n (advance n r)),
      r.buf (wrap n (r.head + (i + 1))) = (advance n r).buf (wrap n ((advance n r).head + i)) := by
    intro i member
    have lt := List.mem_range.mp member
    have below := count_lt ok.advance
    change _ = r.buf (wrap n (wrap n (r.head + 1) + i))
    rw [wrap_next ok.head (by omega)]
  have first : wrap n (r.head + 0) = r.head := if_pos ok.head
  rw [pending, count_advance ok some_, List.range_succ_eq_map, List.map_cons, List.map_map, first]
  congr 1
  exact List.map_congr_left shift

end RingBuffer

end LithiumKernel.Lib
