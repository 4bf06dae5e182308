import Neonix.Namei

/-! # Components of a path

    A path is split at every separator.  The walk of `named` does not split it: it
    follows `next`, which `match_name` leaves behind the separator after a name,
    and stops where `next` meets the pointer behind the last separator.  The
    lemmas here say where these two pointers are in terms of the components. -/

namespace NeonixComponents

open NeonixMachine NeonixByteBits NeonixFileSystem NeonixNamei

/-- The components of a path. -/
def components (path : Str) : List Str := path.splitOnP fun c => isSeparator c

/-- The path has a separator. -/
def Split (path : Str) : Prop := ∃ c ∈ path, isSeparator c

instance (path : Str) : Decidable (Split path) := inferInstanceAs (Decidable (∃ c ∈ path, _))

/-- The first component. -/
def first (path : Str) : Str := path.takeWhile fun c => ¬ isSeparator c

/-- What is behind the first separator. -/
def rest (path : Str) : Str := (path.dropWhile fun c => ¬ isSeparator c).tail

variable {path name : Str} {c : Byte}

theorem first_cons_sep (h : isSeparator c) : first (c :: path) = [] := by
  rw [first, List.takeWhile_cons_of_neg]
  simpa using h

theorem rest_cons_sep (h : isSeparator c) : rest (c :: path) = path := by
  rw [rest, List.dropWhile_cons_of_neg]
  · rfl
  · simpa using h

theorem first_cons (h : ¬ isSeparator c) : first (c :: path) = c :: first path := by
  rw [first, first, List.takeWhile_cons_of_pos]
  simpa using h

theorem rest_cons (h : ¬ isSeparator c) : rest (c :: path) = rest path := by
  rw [rest, rest, List.dropWhile_cons_of_pos]
  simpa using h

theorem split_cons : Split (c :: path) ↔ isSeparator c ∨ Split path := by
  simp only [Split, List.mem_cons, exists_eq_or_imp]

theorem not_split_nil : ¬ Split [] := by
  rintro ⟨_, hmem, _⟩
  exact List.not_mem_nil hmem

/-- Without a separator the path is its only component. -/
theorem first_of_not_split (h : ¬ Split path) : first path = path ∧ rest path = [] := by
  induction path with
  | nil => exact ⟨rfl, rfl⟩
  | cons c path ih =>
      rw [split_cons, not_or] at h
      rw [first_cons h.1, rest_cons h.1, (ih h.2).1, (ih h.2).2]
      exact ⟨rfl, rfl⟩

theorem components_ne_nil (path : Str) : components path ≠ [] := List.splitOnP_ne_nil _ _

theorem components_of_not_split (h : ¬ Split path) : components path = [path] := by
  refine List.splitOnP_eq_singleton fun c hc => ?_
  exact decide_eq_false fun hsep => h ⟨c, hc, hsep⟩

/-- The components of a path with a separator. -/
theorem components_of_split (h : Split path) :
    components path = first path :: components (rest path) := by
  induction path with
  | nil => exact absurd h not_split_nil
  | cons c path ih =>
      rw [components, List.splitOnP_cons_eq_if_modifyHead]
      by_cases hc : isSeparator c
      · rw [if_pos (decide_eq_true hc), first_cons_sep hc, rest_cons_sep hc]
        rfl
      · have hrest := (split_cons.mp h).resolve_left hc
        rw [if_neg (by simpa using hc), first_cons hc, rest_cons hc]
        show (components path).modifyHead (List.cons c) = _
        rw [ih hrest]
        rfl

theorem rest_length (h : Split path) : (rest path).length < path.length := by
  induction path with
  | nil => exact absurd h not_split_nil
  | cons c path ih =>
      by_cases hc : isSeparator c
      · rw [rest_cons_sep hc]
        exact Nat.lt_succ_self _
      · rw [rest_cons hc]
        exact Nat.lt_succ_of_lt (ih ((split_cons.mp h).resolve_left hc))

theorem first_not_split (path : Str) : ¬ Split (first path) := by
  induction path with
  | nil => exact not_split_nil
  | cons c path ih =>
      by_cases hc : isSeparator c
      · rw [first_cons_sep hc]
        exact not_split_nil
      · rw [first_cons hc, split_cons, not_or]
        exact ⟨hc, ih⟩

/-- A component has no separator. -/
theorem components_not_split {name : Str} (h : name ∈ components path) : ¬ Split name := by
  induction hn : path.length using Nat.strongRecOn generalizing path with
  | _ n ih =>
      by_cases hs : Split path
      · rw [components_of_split hs] at h
        rcases List.mem_cons.mp h with rfl | h
        · exact first_not_split path
        · exact ih _ (hn ▸ rest_length hs) h rfl
      · rw [components_of_not_split hs] at h
        rw [List.mem_singleton.mp h]
        exact hs

/-! ## `strrsep` -/

theorem strrsep_eq_none : strrsep path = none ↔ ¬ Split path := by
  induction path with
  | nil => exact iff_of_true rfl not_split_nil
  | cons c path ih =>
      rw [split_cons, not_or, ← ih, strrsep]
      cases strrsep path with
      | some last => simp
      | none => simp

/-- The last separator of a path is the first one, or the last one behind it. -/
theorem strrsep_of_split (h : Split path) :
    (strrsep path).map List.tail =
      if Split (rest path) then (strrsep (rest path)).map List.tail else some (rest path) := by
  induction path with
  | nil => exact absurd h not_split_nil
  | cons c path ih =>
      rw [strrsep]
      by_cases hc : isSeparator c
      · rw [rest_cons_sep hc]
        by_cases hs : Split path
        · rw [if_pos hs]
          cases hlast : strrsep path with
          | none => exact absurd hs (strrsep_eq_none.mp hlast)
          | some last => rfl
        · rw [if_neg hs, strrsep_eq_none.mpr hs]
          simp only [if_pos hc, Option.map_some, List.tail_cons]
      · rw [rest_cons hc, ← ih ((split_cons.mp h).resolve_left hc)]
        cases hlast : strrsep path with
        | none =>
            exact absurd ((split_cons.mp h).resolve_left hc) (strrsep_eq_none.mp hlast)
        | some last => rfl

/-- What is behind the last separator is shorter than the path. -/
theorem strrsep_length {last : Str} (h : strrsep path = some last) :
    last.tail.length < path.length := by
  induction path generalizing last with
  | nil => cases h
  | cons c path ih =>
      rw [strrsep] at h
      cases hrest : strrsep path with
      | some l =>
          rw [hrest] at h
          obtain rfl := Option.some.inj h
          exact Nat.lt_succ_of_lt (ih hrest)
      | none =>
          rw [hrest] at h
          by_cases hc : isSeparator c
          · rw [if_pos hc] at h
            obtain rfl := Option.some.inj h
            exact Nat.lt_succ_self _
          · rw [if_neg hc] at h
            cases h

/-- The test that ends the walk: `next` meets the last component exactly when no
    separator is left. -/
theorem last_eq_rest {last : Str} (h : Split path) (hlast : strrsep path = some last) :
    last.tail = rest path ↔ ¬ Split (rest path) := by
  have heq := strrsep_of_split h
  rw [hlast] at heq
  constructor
  · intro hr hs
    rw [if_pos hs] at heq
    cases hnext : strrsep (rest path) with
    | none => exact strrsep_eq_none.mp hnext hs
    | some l =>
        rw [hnext] at heq
        have hlt := strrsep_length hnext
        rw [← Option.some.inj heq, hr] at hlt
        exact Nat.lt_irrefl _ hlt
  · intro hs
    rw [if_neg hs] at heq
    exact Option.some.inj heq

end NeonixComponents
