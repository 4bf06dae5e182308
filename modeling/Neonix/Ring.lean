import Mathlib.Data.List.Range
import Mathlib.Logic.Function.Basic

/-! # Segments of a ring

    An array of `n` cells read in a circle.  The segment from a cell on is the
    list of the next `k` cells; it grows at either end by one cell, and a store
    outside of it leaves it alone. -/

namespace NeonixRing

variable {α : Type*} {buf : Nat → α} {n start k p : Nat} {x : α}

/-- The `k` cells from `start` on. -/
def segment (buf : Nat → α) (n start k : Nat) : List α :=
  (List.range k).map fun i => buf ((start + i) % n)

@[simp] theorem length_segment : (segment buf n start k).length = k := by
  rw [segment, List.length_map, List.length_range]

@[simp] theorem segment_zero : segment buf n start 0 = [] := rfl

/-- A segment starts with its first cell. -/
theorem segment_cons :
    segment buf n start (k + 1) = buf (start % n) :: segment buf n (start + 1) k := by
  rw [segment, List.range_succ_eq_map, List.map_cons, List.map_map]
  refine congrArg _ (List.map_congr_left fun i _ => ?_)
  show buf ((start + (i + 1)) % n) = buf ((start + 1 + i) % n)
  rw [Nat.add_right_comm, Nat.add_assoc]

/-- A segment ends with its last cell. -/
theorem segment_concat :
    segment buf n start (k + 1) = segment buf n start k ++ [buf ((start + k) % n)] := by
  rw [segment, List.range_succ, List.map_append]
  rfl

/-- A segment depends on the place of its first cell in the circle only. -/
theorem segment_mod : segment buf n (start % n) k = segment buf n start k :=
  List.map_congr_left fun i _ => by rw [Nat.mod_add_mod]

/-- A store to a cell outside the segment. -/
theorem segment_store (h : ∀ i < k, (start + i) % n ≠ p) :
    segment (Function.update buf p x) n start k = segment buf n start k :=
  List.map_congr_left fun i hi => Function.update_of_ne (h i (List.mem_range.mp hi)) ..

end NeonixRing
