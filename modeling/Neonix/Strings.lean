import Neonix.Namei

/-! # `lib/string.c`: strings in memory

    A string is its characters in consecutive bytes, with a zero behind them.
    The loops get a number of turns; each function comes with what it computes
    for strings at given places. -/

namespace NeonixStrings

open NeonixMachine NeonixByteBits
open NeonixFileSystem (Str)
open NeonixNamei (isSeparator)

/-- The characters, none of them 0, stand in memory from `p` on. -/
def CharsAt (m : Nat → Byte) (p : Nat) : Str → Prop
  | [] => True
  | c :: cs => (m p = c ∧ c ≠ 0) ∧ CharsAt m (p + 1) cs

/-- The string at `p`. -/
def StringAt (m : Nat → Byte) (p : Nat) (w : Str) : Prop :=
  CharsAt m p w ∧ m (p + w.length) = 0

/-- A string constant. -/
def literal (w : Str) : Nat → Byte := fun i => w.getD i 0

variable {m m' src : Nat → Byte} {p q turns : Nat} {c : Byte} {u v w : Str}

theorem charsAt_append : CharsAt m p (u ++ v) ↔ CharsAt m p u ∧ CharsAt m (p + u.length) v := by
  induction u generalizing p with
  | nil => exact (iff_of_eq (true_and _)).symm
  | cons c u ih =>
      have hshift : p + (u.length + 1) = p + 1 + u.length := by omega
      show (_ ∧ CharsAt m (p + 1) (u ++ v)) ↔ (_ ∧ CharsAt m (p + 1) u) ∧ _
      rw [List.length_cons, hshift, ih]
      exact and_assoc.symm

theorem CharsAt.congr (h : CharsAt m p u) (heq : ∀ i, p ≤ i → i < p + u.length → m' i = m i) :
    CharsAt m' p u := by
  induction u generalizing p with
  | nil => trivial
  | cons c u ih =>
      rw [List.length_cons] at heq
      refine ⟨⟨(heq p (Nat.le_refl _) (by omega)).trans h.1.1, h.1.2⟩, ih h.2 fun i hi hlt => ?_⟩
      exact heq i (by omega) (by omega)

theorem StringAt.congr (h : StringAt m p u) (heq : ∀ i, p ≤ i → i ≤ p + u.length → m' i = m i) :
    StringAt m' p u :=
  ⟨h.1.congr fun i hi hlt => heq i hi (Nat.le_of_lt hlt),
    (heq _ (Nat.le_add_right _ _) (Nat.le_refl _)).trans h.2⟩

theorem CharsAt.head_ne (h : CharsAt m p u) (hu : u ≠ []) : m p ≠ 0 := by
  obtain ⟨c, u, rfl⟩ := List.exists_cons_of_ne_nil hu
  rw [h.1.1]
  exact h.1.2

/-- The character behind some others. -/
theorem CharsAt.at (h : CharsAt m p (u ++ c :: v)) : m (p + u.length) = c ∧ c ≠ 0 :=
  (charsAt_append.mp h).2.1

/-- The characters by their places. -/
theorem CharsAt.get (h : CharsAt m p u) {i : Nat} (hi : i < u.length) :
    m (p + i) = u[i] ∧ u[i] ≠ 0 := by
  induction u generalizing p i with
  | nil => exact absurd hi (Nat.not_lt_zero _)
  | cons c u ih =>
      cases i with
      | zero => exact h.1
      | succ i =>
          have hrest := ih h.2 (Nat.lt_of_succ_lt_succ hi)
          rw [Nat.add_right_comm, Nat.add_assoc] at hrest
          exact hrest

theorem charsAt_of_get (h : ∀ (i : Nat) (hi : i < u.length), m (p + i) = u[i] ∧ u[i] ≠ 0) :
    CharsAt m p u := by
  induction u generalizing p with
  | nil => trivial
  | cons c u ih =>
      refine ⟨h 0 (Nat.succ_pos _), ih fun i hi => ?_⟩
      have hrest := h (i + 1) (Nat.succ_lt_succ hi)
      rw [Nat.add_right_comm, Nat.add_assoc]
      exact hrest

/-! ## The functions -/

/-- `strsep`: the first separator. -/
def strsep (m : Nat → Byte) : (turns : Nat) → (ptr : Nat) → Res (Option Nat)
  | 0, _ => .error .outOfBounds
  | turns + 1, ptr =>
      if isSeparator (m ptr) then .ok (some ptr)
      else if m ptr = 0 then .ok none
      else strsep m turns (ptr + 1)

/-- `strrsep`: the last separator. -/
def strrsepLoop (m : Nat → Byte) : (turns : Nat) → (last : Option Nat) → (ptr : Nat) →
    Res (Option Nat)
  | 0, _, _ => .error .outOfBounds
  | turns + 1, last, ptr =>
      let last := if isSeparator (m ptr) then some ptr else last
      if m ptr = 0 then .ok last else strrsepLoop m turns last (ptr + 1)

def strrsep (m : Nat → Byte) (turns str : Nat) : Res (Option Nat) := strrsepLoop m turns none str

/-- `strlen`. -/
def strlen (m : Nat → Byte) : (turns : Nat) → (ptr : Nat) → Res Nat
  | 0, _ => .error .outOfBounds
  | turns + 1, ptr =>
      if m ptr = 0 then .ok 0 else do
        let n ← strlen m turns (ptr + 1)
        return n + 1

/-- `strcpy` between two buffers. -/
def strcpy (src : Nat → Byte) : (turns : Nat) → (m : Nat → Byte) → (ptr s : Nat) → Res (Nat → Byte)
  | 0, _, _, _ => .error .outOfBounds
  | turns + 1, m, ptr, s =>
      let m := Function.update m ptr (src s)
      if src s = 0 then .ok m else strcpy src turns m (ptr + 1) (s + 1)

/-- The loop of `strncpy`, with so many characters to go, and what comes after it. -/
def strncpyLoop (src : Nat → Byte) (final : Nat) : (left : Nat) → (m : Nat → Byte) → (ptr s : Nat) →
    (Nat → Byte)
  | 0, m, _, _ => Function.update m final 0
  | left + 1, m, ptr, s =>
      let m := Function.update m ptr (src s)
      if src s = 0 then m else strncpyLoop src final left m (ptr + 1) (s + 1)

/-- `strncpy` between two buffers. -/
def strncpy (src m : Nat → Byte) (dest s count : Nat) : Nat → Byte :=
  strncpyLoop src (dest + (count - 1)) count m dest s

/-- `strcmp`. -/
def strcmp (lhs rhs : Nat → Byte) : (turns : Nat) → (l r : Nat) → Res Int
  | 0, _, _ => .error .outOfBounds
  | turns + 1, l, r =>
      if lhs l = rhs r ∧ lhs l ≠ 0 ∧ rhs r ≠ 0 then strcmp lhs rhs turns (l + 1) (r + 1)
      else .ok (if (lhs l).toInt < (rhs r).toInt then -1
        else if (lhs l).toInt > (rhs r).toInt then 1 else 0)

/-- `memcmp`. -/
def memcmp (lhs rhs : Nat → Byte) : (count : Nat) → (l r : Nat) → Int
  | 0, _, _ => 0
  | count + 1, l, r =>
      if lhs l = rhs r then memcmp lhs rhs count (l + 1) (r + 1)
      else if (lhs l).toInt < (rhs r).toInt then -1
      else if (lhs l).toInt > (rhs r).toInt then 1 else 0

/-! ## What they compute -/

/-- `strsep` finds the separator behind some other characters. -/
theorem strsep_some (hu : CharsAt m p u) (hplain : ∀ c ∈ u, ¬ isSeparator c)
    (hsep : isSeparator (m (p + u.length))) (hturns : u.length < turns) :
    strsep m turns p = .ok (some (p + u.length)) := by
  induction u generalizing p turns with
  | nil =>
      obtain ⟨k, rfl⟩ := Nat.exists_eq_succ_of_ne_zero (Nat.ne_zero_of_lt hturns)
      exact if_pos hsep
  | cons c u ih =>
      obtain ⟨k, rfl⟩ := Nat.exists_eq_succ_of_ne_zero (Nat.ne_zero_of_lt hturns)
      have hshift : p + (u.length + 1) = p + 1 + u.length := by omega
      rw [List.length_cons, hshift] at hsep ⊢
      rw [strsep, hu.1.1, if_neg (hplain c List.mem_cons_self), if_neg hu.1.2]
      exact ih hu.2 (fun c hc => hplain c (List.mem_cons_of_mem _ hc)) hsep
        (Nat.lt_of_succ_lt_succ hturns)

theorem not_separator_zero : ¬ isSeparator 0 := by
  rintro (h | h)
  · exact absurd h (by decide)
  · exact absurd h (by decide)

/-- `strsep` of a string without separators. -/
theorem strsep_none (hu : StringAt m p u) (hplain : ∀ c ∈ u, ¬ isSeparator c)
    (hturns : u.length < turns) : strsep m turns p = .ok none := by
  induction u generalizing p turns with
  | nil =>
      obtain ⟨k, rfl⟩ := Nat.exists_eq_succ_of_ne_zero (Nat.ne_zero_of_lt hturns)
      have hzero : m p = 0 := hu.2
      rw [strsep, hzero, if_neg not_separator_zero, if_pos rfl]
  | cons c u ih =>
      obtain ⟨k, rfl⟩ := Nat.exists_eq_succ_of_ne_zero (Nat.ne_zero_of_lt hturns)
      obtain ⟨hchars, hend⟩ := hu
      have hshift : p + (u.length + 1) = p + 1 + u.length := by omega
      rw [List.length_cons, hshift] at hend
      rw [strsep, hchars.1.1, if_neg (hplain c List.mem_cons_self), if_neg hchars.1.2]
      exact ih ⟨hchars.2, hend⟩ (fun c hc => hplain c (List.mem_cons_of_mem _ hc))
        (Nat.lt_of_succ_lt_succ hturns)

/-- The last separator of a string is what the loop has found or finds. -/
theorem strrsepLoop_plain {last : Option Nat} (hu : StringAt m p u)
    (hplain : ∀ c ∈ u, ¬ isSeparator c)
    (hturns : u.length < turns) : strrsepLoop m turns last p = .ok last := by
  induction u generalizing p turns with
  | nil =>
      obtain ⟨k, rfl⟩ := Nat.exists_eq_succ_of_ne_zero (Nat.ne_zero_of_lt hturns)
      have hzero : m p = 0 := hu.2
      rw [strrsepLoop, hzero, if_neg not_separator_zero]
      exact if_pos rfl
  | cons c u ih =>
      obtain ⟨k, rfl⟩ := Nat.exists_eq_succ_of_ne_zero (Nat.ne_zero_of_lt hturns)
      obtain ⟨hchars, hend⟩ := hu
      have hshift : p + (u.length + 1) = p + 1 + u.length := by omega
      rw [List.length_cons, hshift] at hend
      rw [strrsepLoop, hchars.1.1, if_neg (hplain c List.mem_cons_self), if_neg hchars.1.2]
      exact ih ⟨hchars.2, hend⟩ (fun c hc => hplain c (List.mem_cons_of_mem _ hc))
        (Nat.lt_of_succ_lt_succ hturns)

theorem strrsepLoop_eq {last : Option Nat} (hu : StringAt m p (u ++ c :: v)) (hc : isSeparator c)
    (hplain : ∀ c ∈ v, ¬ isSeparator c) (hturns : (u ++ c :: v).length < turns) :
    strrsepLoop m turns last p = .ok (some (p + u.length)) := by
  induction u generalizing p turns last with
  | nil =>
      obtain ⟨k, rfl⟩ := Nat.exists_eq_succ_of_ne_zero (Nat.ne_zero_of_lt hturns)
      obtain ⟨hchars, hend⟩ := hu
      have hshift : p + (v.length + 1) = p + 1 + v.length := by omega
      rw [List.nil_append, List.length_cons, hshift] at hend
      rw [List.nil_append] at hchars hturns
      rw [strrsepLoop, hchars.1.1, if_pos hc, if_neg hchars.1.2]
      exact strrsepLoop_plain ⟨hchars.2, hend⟩ hplain (Nat.lt_of_succ_lt_succ hturns)
  | cons b u ih =>
      obtain ⟨k, rfl⟩ := Nat.exists_eq_succ_of_ne_zero (Nat.ne_zero_of_lt hturns)
      obtain ⟨hchars, hend⟩ := hu
      have hshift : ∀ n, p + (n + 1) = p + 1 + n := fun n => by omega
      rw [List.cons_append] at hchars hturns
      rw [List.cons_append, List.length_cons, hshift] at hend
      rw [strrsepLoop, hchars.1.1, if_neg hchars.1.2, List.length_cons, hshift u.length]
      exact ih ⟨hchars.2, hend⟩ (Nat.lt_of_succ_lt_succ hturns)

/-- `strrsep` finds the separator in front of characters that are none. -/
theorem strrsep_eq (hu : StringAt m p (u ++ c :: v)) (hc : isSeparator c)
    (hplain : ∀ c ∈ v, ¬ isSeparator c) (hturns : (u ++ c :: v).length < turns) :
    strrsep m turns p = .ok (some (p + u.length)) := strrsepLoop_eq hu hc hplain hturns

theorem strlen_eq (hu : StringAt m p u) (hturns : u.length < turns) :
    strlen m turns p = .ok u.length := by
  induction u generalizing p turns with
  | nil =>
      obtain ⟨k, rfl⟩ := Nat.exists_eq_succ_of_ne_zero (Nat.ne_zero_of_lt hturns)
      exact if_pos hu.2
  | cons c u ih =>
      obtain ⟨k, rfl⟩ := Nat.exists_eq_succ_of_ne_zero (Nat.ne_zero_of_lt hturns)
      obtain ⟨hchars, hend⟩ := hu
      have hshift : p + (u.length + 1) = p + 1 + u.length := by omega
      rw [List.length_cons, hshift] at hend
      rw [strlen, hchars.1.1, if_neg hchars.1.2,
        ih ⟨hchars.2, hend⟩ (Nat.lt_of_succ_lt_succ hturns)]
      rfl

/-- `strcpy` copies the string and stores in its place only. -/
theorem strcpy_eq (hu : StringAt src q u) (hturns : u.length < turns) :
    ∃ m', strcpy src turns m p q = .ok m' ∧ StringAt m' p u ∧
      ∀ i, i < p ∨ p + u.length < i → m' i = m i := by
  induction u generalizing m p q turns with
  | nil =>
      obtain ⟨k, rfl⟩ := Nat.exists_eq_succ_of_ne_zero (Nat.ne_zero_of_lt hturns)
      have hzero : src q = 0 := hu.2
      refine ⟨Function.update m p 0, ?_, ⟨trivial, Function.update_self ..⟩, fun i hi => ?_⟩
      · rw [strcpy, hzero]
        exact if_pos rfl
      · rw [List.length_nil] at hi
        exact Function.update_of_ne (by omega) ..
  | cons c u ih =>
      obtain ⟨k, rfl⟩ := Nat.exists_eq_succ_of_ne_zero (Nat.ne_zero_of_lt hturns)
      obtain ⟨hchars, hend⟩ := hu
      have hshift : ∀ r, r + (u.length + 1) = r + 1 + u.length := fun r => by omega
      rw [List.length_cons, hshift] at hend
      obtain ⟨m', hm', hstring, hkept⟩ := ih (m := Function.update m p c) (p := p + 1)
        ⟨hchars.2, hend⟩ (Nat.lt_of_succ_lt_succ hturns)
      refine ⟨m', ?_, ⟨⟨⟨?_, hchars.1.2⟩, hstring.1⟩, ?_⟩, fun i hi => ?_⟩
      · rw [strcpy, hchars.1.1]
        exact (if_neg hchars.1.2).trans hm'
      · rw [hkept p (.inl (Nat.lt_succ_self p))]
        exact Function.update_self ..
      · rw [List.length_cons, hshift]
        exact hstring.2
      · rw [List.length_cons] at hi
        rw [hkept i (by omega)]
        exact Function.update_of_ne (by omega) ..

/-- `strncpy` of characters that are followed by one more in the count. -/
theorem strncpyLoop_eq {final : Nat} (hu : CharsAt src q u) (hfinal : final = p + u.length) :
    CharsAt (strncpyLoop src final (u.length + 1) m p q) p u ∧
      strncpyLoop src final (u.length + 1) m p q final = 0 ∧
      ∀ i, i < p ∨ final < i → strncpyLoop src final (u.length + 1) m p q i = m i := by
  induction u generalizing m p q with
  | nil =>
      obtain rfl : final = p := hfinal
      refine ⟨trivial, ?_, fun i hi => ?_⟩
      · rw [List.length_nil, strncpyLoop]
        by_cases hzero : src q = 0
        · rw [if_pos hzero, hzero]
          exact Function.update_self ..
        · rw [if_neg hzero]
          exact Function.update_self ..
      · rw [List.length_nil, strncpyLoop]
        by_cases hzero : src q = 0
        · rw [if_pos hzero]
          exact Function.update_of_ne (by omega) ..
        · rw [if_neg hzero]
          exact (Function.update_of_ne (by omega) ..).trans (Function.update_of_ne (by omega) ..)
  | cons c u ih =>
      rw [List.length_cons] at hfinal
      have hloop : strncpyLoop src final ((c :: u).length + 1) m p q =
          strncpyLoop src final (u.length + 1) (Function.update m p c) (p + 1) (q + 1) := by
        rw [List.length_cons, strncpyLoop, hu.1.1]
        exact if_neg hu.1.2
      obtain ⟨hchars, hend, hkept⟩ := ih (m := Function.update m p c) (p := p + 1) hu.2 (by omega)
      rw [hloop]
      refine ⟨⟨⟨?_, hu.1.2⟩, hchars⟩, hend, fun i hi => ?_⟩
      · rw [hkept p (.inl (Nat.lt_succ_self p))]
        exact Function.update_self ..
      · rw [hkept i (by omega)]
        exact Function.update_of_ne (by omega) ..

theorem strncpy_eq (hu : CharsAt src q u) :
    StringAt (strncpy src m p q (u.length + 1)) p u ∧
      ∀ i, i < p → strncpy src m p q (u.length + 1) i = m i := by
  obtain ⟨hchars, hend, hkept⟩ := strncpyLoop_eq (m := m) hu rfl
  exact ⟨⟨hchars, hend⟩, fun i hi => hkept i (.inl hi)⟩

/-- `memcmp` gives 0 for equal bytes only. -/
theorem memcmp_eq_zero {lhs rhs : Nat → Byte} {count l r : Nat} :
    memcmp lhs rhs count l r = 0 ↔ ∀ i, i < count → lhs (l + i) = rhs (r + i) := by
  induction count generalizing l r with
  | zero => exact iff_of_true rfl fun i hi => absurd hi (Nat.not_lt_zero _)
  | succ count ih =>
      rw [memcmp]
      by_cases heq : lhs l = rhs r
      · rw [if_pos heq, ih]
        constructor
        · intro h i hi
          cases i with
          | zero => exact heq
          | succ i =>
              have hrest := h i (Nat.lt_of_succ_lt_succ hi)
              rw [Nat.add_right_comm, Nat.add_assoc, Nat.add_right_comm r, Nat.add_assoc r] at hrest
              exact hrest
        · intro h i hi
          have hrest := h (i + 1) (Nat.succ_lt_succ hi)
          rw [Nat.add_right_comm, Nat.add_assoc, Nat.add_right_comm r, Nat.add_assoc r]
          exact hrest
      · rw [if_neg heq]
        have hne : (lhs l).toInt ≠ (rhs r).toInt := fun h => heq (BitVec.eq_of_toInt_eq h)
        refine iff_of_false ?_ fun h => heq (h 0 (Nat.succ_pos _))
        split
        · decide
        · rw [if_pos (by omega)]
          decide

/-- `strcmp` gives 0 for equal strings only. -/
theorem strcmp_eq_zero {lhs rhs : Nat → Byte} {l r : Nat} (hu : StringAt lhs l u)
    (hw : StringAt rhs r w) (hturns : u.length < turns) :
    ∃ x, strcmp lhs rhs turns l r = .ok x ∧ (x = 0 ↔ u = w) := by
  have hdiffer : ∀ {b c : Byte}, b ≠ c →
      (if b.toInt < c.toInt then (-1 : Int) else if b.toInt > c.toInt then 1 else 0) ≠ 0 := by
    intro b c hne
    have htoInt : b.toInt ≠ c.toInt := fun h => hne (BitVec.eq_of_toInt_eq h)
    split
    · decide
    · rw [if_pos (by omega)]
      decide
  induction u generalizing l r w turns with
  | nil =>
      obtain ⟨k, rfl⟩ := Nat.exists_eq_succ_of_ne_zero (Nat.ne_zero_of_lt hturns)
      have hzero : lhs l = 0 := hu.2
      rw [strcmp, if_neg fun h => h.2.1 hzero]
      refine ⟨_, rfl, ?_⟩
      cases w with
      | nil =>
          have hzero' : rhs r = 0 := hw.2
          rw [hzero, hzero']
          exact iff_of_true rfl rfl
      | cons c w =>
          refine iff_of_false (hdiffer ?_) (List.cons_ne_nil c w).symm
          rw [hzero, hw.1.1.1]
          exact hw.1.1.2.symm
  | cons b u ih =>
      obtain ⟨k, rfl⟩ := Nat.exists_eq_succ_of_ne_zero (Nat.ne_zero_of_lt hturns)
      obtain ⟨hchars, hend⟩ := hu
      have hshift : ∀ (p n : Nat), p + (n + 1) = p + 1 + n := fun p n => by omega
      rw [List.length_cons, hshift l u.length] at hend
      rw [strcmp]
      by_cases heq : lhs l = rhs r
      · cases w with
        | nil =>
            have hzero : rhs r = 0 := hw.2
            exact absurd (hchars.1.1.symm.trans (heq.trans hzero)) hchars.1.2
        | cons c w =>
            obtain ⟨hchars', hend'⟩ := hw
            rw [List.length_cons, hshift r w.length] at hend'
            have hne : lhs l ≠ 0 := hchars.1.1.symm ▸ hchars.1.2
            rw [if_pos ⟨heq, hne, heq ▸ hne⟩]
            obtain ⟨x, hx, hiff⟩ := ih ⟨hchars.2, hend⟩ ⟨hchars'.2, hend'⟩
              (Nat.lt_of_succ_lt_succ hturns)
            refine ⟨x, hx, hiff.trans ?_⟩
            rw [← hchars.1.1, ← hchars'.1.1, heq, List.cons.injEq]
            exact (and_iff_right rfl).symm
      · rw [if_neg fun h => heq h.1]
        refine ⟨_, rfl, iff_of_false (hdiffer heq) fun huw => heq ?_⟩
        subst huw
        rw [hchars.1.1, hw.1.1.1]

/-- A string constant is where its memory begins. -/
theorem literal_at (h : ∀ c ∈ w, c ≠ 0) : StringAt (literal w) 0 w := by
  refine ⟨charsAt_of_get fun i hi => ?_, ?_⟩
  · rw [Nat.zero_add, literal, List.getD_eq_getElem?_getD, List.getElem?_eq_getElem hi]
    exact ⟨rfl, h _ (List.getElem_mem hi)⟩
  · rw [Nat.zero_add, literal, List.getD_eq_getElem?_getD, List.getElem?_eq_none (Nat.le_refl _)]
    rfl

end NeonixStrings
