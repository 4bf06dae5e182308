import Mathlib.Data.Finset.Card
import Mathlib.Tactic.Common

/-! # Serving the one that waited longest

    A server keeps, for each client, the time it was last served.  A service goes
    to the waiting client with the least time, the first one where times are the
    same, and the client served before waits again with a time of its own.  Who
    is ahead of a client is served once each, so the number of them says exactly
    when it has its turn. -/

namespace NeonixRoundRobin

variable {ι : Type} [LinearOrder ι]

/-- The client that is served, those that wait, and the times. -/
structure Turns (ι : Type) where
  current : ι
  waiting : Finset ι
  stamp : ι → Nat

/-- `i` has its turn before `j`. -/
def Turns.Before (t : Turns ι) (i j : ι) : Prop :=
  t.stamp i < t.stamp j ∨ t.stamp i = t.stamp j ∧ i < j

instance (t : Turns ι) (i j : ι) : Decidable (t.Before i j) :=
  inferInstanceAs (Decidable (t.stamp i < t.stamp j ∨ t.stamp i = t.stamp j ∧ i < j))

/-- The clients that have their turn before `i`. -/
def Turns.ahead (t : Turns ι) (i : ι) : Finset ι := t.waiting.filter fun j => t.Before j i

/-- One service. -/
structure Serves (t u : Turns ι) : Prop where
  mem : u.current ∈ t.waiting
  least : ∀ i ∈ t.waiting, i ≠ u.current → t.Before u.current i
  waiting : u.waiting = insert t.current (t.waiting.erase u.current)
  kept : ∀ i ∈ t.waiting, u.stamp i = t.stamp i
  fresh : ∀ i ∈ t.waiting, t.stamp i < u.stamp t.current

variable {t u : Turns ι} {i j : ι}

theorem Turns.Before.asymm (h : t.Before i j) : ¬ t.Before j i := by
  rintro (hlt | ⟨heq, hlt⟩)
  · rcases h with h | ⟨h, -⟩
    · exact absurd h (Nat.lt_asymm hlt)
    · omega
  · rcases h with h | ⟨-, h⟩
    · omega
    · exact absurd h (lt_asymm hlt)

/-- The one that is served has nobody ahead. -/
theorem Serves.ahead_current (h : Serves t u) : t.ahead u.current = ∅ := by
  refine Finset.filter_eq_empty_iff.mpr fun j hj hbefore => ?_
  by_cases hne : j = u.current
  · subst hne
    exact hbefore.asymm hbefore
  · exact (h.least j hj hne).asymm hbefore

/-- Another one that waits has one less ahead. -/
theorem Serves.ahead_succ (h : Serves t u) (hi : i ∈ t.waiting) (hne : i ≠ u.current) :
    i ∈ u.waiting ∧ (u.ahead i).card + 1 = (t.ahead i).card := by
  refine ⟨?_, ?_⟩
  · rw [h.waiting]
    exact Finset.mem_insert_of_mem (Finset.mem_erase.mpr ⟨hne, hi⟩)
  have hsame : u.ahead i = (t.ahead i).erase u.current := by
    ext j
    rw [Turns.ahead, Turns.ahead, Finset.mem_erase, Finset.mem_filter, Finset.mem_filter, h.waiting,
      Finset.mem_insert, Finset.mem_erase]
    constructor
    · rintro ⟨rfl | ⟨hj, hmem⟩, hbefore⟩
      · -- the one served before stands behind all that wait
        have hfresh := h.fresh i hi
        have hkept := h.kept i hi
        rcases hbefore with hlt | ⟨heq, -⟩
        · omega
        · omega
      · rw [Turns.Before, h.kept j hmem, h.kept i hi] at hbefore
        exact ⟨hj, hmem, hbefore⟩
    · rintro ⟨hj, hmem, hbefore⟩
      refine ⟨Or.inr ⟨hj, hmem⟩, ?_⟩
      rw [Turns.Before, h.kept j hmem, h.kept i hi]
      exact hbefore
  have hnext : u.current ∈ t.ahead i := Finset.mem_filter.mpr ⟨h.mem, h.least i hi hne⟩
  rw [hsame, Finset.card_erase_of_mem hnext]
  exact Nat.sub_add_cancel (Finset.card_pos.mpr ⟨_, hnext⟩)

/-- **ITS TURN**: a client that waits is served when nobody is ahead of it, and comes one
    service nearer when somebody is. -/
theorem Serves.turn (h : Serves t u) (hi : i ∈ t.waiting) :
    u.current = i ∧ (t.ahead i).card = 0 ∨
      u.current ≠ i ∧ i ∈ u.waiting ∧ (u.ahead i).card + 1 = (t.ahead i).card := by
  by_cases heq : u.current = i
  · subst heq
    exact Or.inl ⟨rfl, by rw [h.ahead_current, Finset.card_empty]⟩
  · exact Or.inr ⟨heq, h.ahead_succ hi (Ne.symm heq)⟩

/-- Only what waits is looked at. -/
theorem Serves.congr {t' : Turns ι} (h : Serves t u) (hcurrent : t'.current = t.current)
    (hwaiting : t'.waiting = t.waiting) (hstamp : ∀ i ∈ t.waiting, t'.stamp i = t.stamp i) :
    Serves t' u := by
  refine ⟨hwaiting ▸ h.mem, fun i hi hne => ?_, ?_, fun i hi => ?_, fun i hi => ?_⟩
  · rw [hwaiting] at hi
    rw [Turns.Before, hstamp _ h.mem, hstamp i hi]
    exact h.least i hi hne
  · rw [hcurrent, hwaiting]
    exact h.waiting
  · rw [hwaiting] at hi
    rw [hstamp i hi]
    exact h.kept i hi
  · rw [hwaiting] at hi
    rw [hcurrent, hstamp i hi]
    exact h.fresh i hi

/-- As many are ahead. -/
theorem Turns.ahead_congr {t' : Turns ι} (hwaiting : t'.waiting = t.waiting)
    (hstamp : ∀ i ∈ t.waiting, t'.stamp i = t.stamp i) (hi : i ∈ t.waiting) :
    t'.ahead i = t.ahead i := by
  rw [Turns.ahead, Turns.ahead, hwaiting]
  refine Finset.filter_congr fun j hj => ?_
  rw [Turns.Before, Turns.Before, hstamp j hj, hstamp i hi]

end NeonixRoundRobin
