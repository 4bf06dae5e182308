import Mathlib.Algebra.Order.BigOperators.Group.Finset

/-! # Tallies

    A tally is a sum of natural numbers over a finite index set.  Three facts
    about it: what happens when one term changes, that a tally of at most one
    has at most one term, and that a tally that is zero has none. -/

namespace NeonixTally

variable {ι : Type*} {s : Finset ι} {f g : ι → Nat}

/-- One term of a tally changes. -/
theorem sum_change [DecidableEq ι] {i : ι} (hi : i ∈ s)
    (h : ∀ j ∈ s, j ≠ i → g j = f j) : (∑ j ∈ s, g j) + f i = (∑ j ∈ s, f j) + g i := by
  have herase : ∑ j ∈ s.erase i, g j = ∑ j ∈ s.erase i, f j := by
    refine Finset.sum_congr rfl fun j hj => ?_
    exact h j (Finset.mem_of_mem_erase hj) (Finset.ne_of_mem_erase hj)
  rw [← Finset.add_sum_erase s f hi, ← Finset.add_sum_erase s g hi, herase]
  omega

/-- A term is at most the tally. -/
theorem term_le {i : ι} (hi : i ∈ s) : f i ≤ ∑ j ∈ s, f j :=
  Finset.single_le_sum (fun _ _ => Nat.zero_le _) hi

/-- A tally of at most one has no second term. -/
theorem no_second {i j : ι} (hs : ∑ k ∈ s, f k ≤ 1) (hi : i ∈ s) (hj : j ∈ s) (hij : j ≠ i)
    (hfi : 1 ≤ f i) : f j = 0 := by
  have hle : f i + f j ≤ ∑ k ∈ s, f k :=
    Finset.add_le_sum (fun _ _ => Nat.zero_le _) hi hj (Ne.symm hij)
  omega

/-- A tally that is not zero has a term that is not. -/
theorem exists_term (hs : 0 < ∑ k ∈ s, f k) : ∃ i ∈ s, 0 < f i := by
  by_contra hn
  have hz : ∑ k ∈ s, f k = 0 := by
    refine Finset.sum_eq_zero fun i hi => ?_
    by_contra hne
    exact hn ⟨i, hi, Nat.pos_of_ne_zero hne⟩
  omega

end NeonixTally
