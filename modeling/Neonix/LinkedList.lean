import Mathlib.Data.List.Nodup
import Mathlib.Data.List.Perm.Basic

/-! # Ordered insertion and neighbours in a list

    `insertSort` puts an element before the first one with a greater key, so
    elements of equal keys keep the order of their arrival.  `next` and `prev`
    are the neighbours of an element in a list without duplicates. -/

namespace NeonixLinkedList

variable {α : Type*} {key : α → Int} {x y : α} {l : List α}

/-- Insertion before the first element with a greater key. -/
def insertSort (key : α → Int) (x : α) : List α → List α
  | [] => [x]
  | y :: l => if key y > key x then x :: y :: l else y :: insertSort key x l

/-- Insertion adds one element and moves no other. -/
theorem insertSort_perm (key : α → Int) (x : α) (l : List α) :
    (insertSort key x l).Perm (x :: l) := by
  induction l with
  | nil => exact .refl _
  | cons y l ih =>
      rw [insertSort]
      by_cases h : key y > key x
      · rw [if_pos h]
      · rw [if_neg h]
        exact (ih.cons y).trans (.swap x y l)

theorem mem_insertSort : y ∈ insertSort key x l ↔ y = x ∨ y ∈ l := by
  rw [(insertSort_perm key x l).mem_iff, List.mem_cons]

theorem nodup_insertSort (hl : l.Nodup) (hx : x ∉ l) : (insertSort key x l).Nodup :=
  (insertSort_perm key x l).nodup_iff.mpr (List.nodup_cons.mpr ⟨hx, hl⟩)

/-- Insertion keeps a list sorted. -/
theorem sorted_insertSort (hl : l.Pairwise fun a b => key a ≤ key b) :
    (insertSort key x l).Pairwise fun a b => key a ≤ key b := by
  induction l with
  | nil => exact List.pairwise_singleton _ _
  | cons y l ih =>
      obtain ⟨hy, hl'⟩ := List.pairwise_cons.mp hl
      rw [insertSort]
      by_cases h : key y > key x
      · rw [if_pos h]
        refine List.pairwise_cons.mpr ⟨?_, hl⟩
        intro z hz
        rcases List.mem_cons.mp hz with rfl | hz
        · exact Int.le_of_lt h
        · exact Int.le_trans (Int.le_of_lt h) (hy z hz)
      · rw [if_neg h]
        refine List.pairwise_cons.mpr ⟨?_, ih hl'⟩
        intro z hz
        rcases mem_insertSort.mp hz with rfl | hz
        · exact Int.not_lt.mp h
        · exact hy z hz

/-- An insertion goes behind the elements whose keys are not greater. -/
theorem insertSort_eq (key : α → Int) (x : α) (l : List α) : insertSort key x l =
    l.takeWhile (fun y => key y ≤ key x) ++ x :: l.dropWhile fun y => key y ≤ key x := by
  induction l with
  | nil => rfl
  | cons y l ih =>
      rw [insertSort]
      by_cases h : key y > key x
      · have hle : ¬ decide (key y ≤ key x) = true := fun hx =>
            Int.not_lt.mpr (of_decide_eq_true hx) h
        rw [if_pos h, List.takeWhile_cons, List.dropWhile_cons, if_neg hle, if_neg hle]
        rfl
      · have hle : decide (key y ≤ key x) = true := decide_eq_true (Int.not_lt.mp h)
        rw [if_neg h, List.takeWhile_cons, List.dropWhile_cons, if_pos hle, if_pos hle, ih]
        rfl

/-- What a sorted list is dropped down to has greater keys. -/
theorem dropWhile_greater {k : Int} (hl : l.Pairwise fun a b => key a ≤ key b)
    (hy : y ∈ l.dropWhile fun y => key y ≤ k) : k < key y := by
  induction l with
  | nil => cases hy
  | cons x l ih =>
      obtain ⟨hx, hl'⟩ := List.pairwise_cons.mp hl
      by_cases hle : key x ≤ k
      · rw [List.dropWhile_cons, if_pos (decide_eq_true hle)] at hy
        exact ih hl' hy
      · rw [List.dropWhile_cons, if_neg (fun h => hle (of_decide_eq_true h))] at hy
        rcases List.mem_cons.mp hy with rfl | hy
        · exact Int.not_le.mp hle
        · exact Int.lt_of_lt_of_le (Int.not_le.mp hle) (hx y hy)

section Neighbours

variable [DecidableEq α]

/-- The element after `x`. -/
def next (x : α) : List α → Option α
  | [] | [_] => none
  | a :: b :: l => if a = x then some b else next x (b :: l)

/-- The element before `x`. -/
def prev (x : α) : List α → Option α
  | [] | [_] => none
  | a :: b :: l => if b = x then some a else prev x (b :: l)

theorem next_mem (h : next x l = some y) : y ∈ l := by
  induction l with
  | nil => cases h
  | cons a l ih =>
      cases l with
      | nil => cases h
      | cons b l =>
          rw [next] at h
          by_cases ha : a = x
          · rw [if_pos ha] at h
            rw [← Option.some.inj h]
            exact List.mem_cons_of_mem _ List.mem_cons_self
          · rw [if_neg ha] at h
            exact List.mem_cons_of_mem _ (ih h)

theorem prev_mem (h : prev x l = some y) : y ∈ l := by
  induction l with
  | nil => cases h
  | cons a l ih =>
      cases l with
      | nil => cases h
      | cons b l =>
          rw [prev] at h
          by_cases hb : b = x
          · rw [if_pos hb] at h
            rw [← Option.some.inj h]
            exact List.mem_cons_self
          · rw [if_neg hb] at h
            exact List.mem_cons_of_mem _ (ih h)

/-- No element is its own successor. -/
theorem next_ne (hl : l.Nodup) (h : next x l = some y) : y ≠ x := by
  induction l with
  | nil => cases h
  | cons a l ih =>
      obtain ⟨ha, hl'⟩ := List.nodup_cons.mp hl
      cases l with
      | nil => cases h
      | cons b l =>
          rw [next] at h
          by_cases hax : a = x
          · rw [if_pos hax] at h
            rw [← Option.some.inj h, ← hax]
            exact fun hba => ha (hba ▸ List.mem_cons_self)
          · rw [if_neg hax] at h
            exact ih hl' h

/-- No element is its own predecessor. -/
theorem prev_ne (hl : l.Nodup) (h : prev x l = some y) : y ≠ x := by
  induction l with
  | nil => cases h
  | cons a l ih =>
      obtain ⟨ha, hl'⟩ := List.nodup_cons.mp hl
      cases l with
      | nil => cases h
      | cons b l =>
          rw [prev] at h
          by_cases hbx : b = x
          · rw [if_pos hbx] at h
            rw [← Option.some.inj h, ← hbx]
            exact fun hab => ha (hab ▸ List.mem_cons_self)
          · rw [if_neg hbx] at h
            exact ih hl' h

/-- An element without neighbours is alone. -/
theorem eq_singleton (hx : x ∈ l) (hn : next x l = none) (hp : prev x l = none) : l = [x] := by
  induction l with
  | nil => cases hx
  | cons a l ih =>
      cases l with
      | nil => rw [List.mem_singleton.mp hx]
      | cons b l =>
          rw [next] at hn
          rw [prev] at hp
          by_cases ha : a = x
          · rw [if_pos ha] at hn
            cases hn
          · rw [if_neg ha] at hn
            by_cases hb : b = x
            · rw [if_pos hb] at hp
              cases hp
            · rw [if_neg hb] at hp
              -- the element is further down, where it is alone, so it is `b`
              have hmem : x ∈ b :: l := (List.mem_cons.mp hx).resolve_left fun h => ha h.symm
              exact absurd (List.cons.inj (ih hmem hn hp)).1 hb

end Neighbours

end NeonixLinkedList
