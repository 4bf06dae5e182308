import Mathlib.Algebra.BigOperators.Intervals
import Neonix.Memory
import Neonix.Tally

/-! # The references to a physical page

    `refs P p` counts the present entries that point at page `p`: in the slots
    4..1022 of every directory, and in the tables those slots hold.  The lemmas
    say how the count moves when one entry of a table, or one directory,
    changes.  A table that only one slot points at may be changed without any
    other directory noticing; that is `spaceRefs_setEntry`. -/

namespace NeonixPageRefs

open NeonixMemory NeonixTally

/-- Whether an entry points at a page, as a count. -/
def hit (e : Entry) (p : Nat) : Nat := if e.present = true ∧ e.index = p then 1 else 0

/-- The entries of a table that point at a page. -/
def tableRefs (entries : Nat → Entry) (p : Nat) : Nat := ∑ t ∈ Finset.range 1024, hit (entries t) p

/-- A slot of a directory that points at a page, and the entries of its table. -/
def slotRefs (T : Nat → Nat → Entry) (e : Entry) (p : Nat) : Nat :=
  hit e p + if e.present then tableRefs (T e.index) p else 0

/-- The references from the slots `lo..hi-1` of a directory. -/
def rangeRefs (T : Nat → Nat → Entry) (dir : Nat → Entry) (lo hi p : Nat) : Nat :=
  ∑ d ∈ Finset.Ico lo hi, slotRefs T (dir d) p

def dirRefs (T : Nat → Nat → Entry) (dir : Nat → Entry) (p : Nat) : Nat :=
  rangeRefs T dir FIRST_SLOT SELF_SLOT p

def spaceRefs (P : Paging) (x : Space) (p : Nat) : Nat := dirRefs P.table (P.slot x) p

def refs (P : Paging) (p : Nat) : Nat := ∑ x : Space, spaceRefs P x p

/-! ## Entries and tables -/

theorem hit_self {e : Entry} (h : e.present = true) : hit e e.index = 1 := if_pos ⟨h, rfl⟩

theorem hit_absent {e : Entry} (h : e.present = false) (p : Nat) : hit e p = 0 := by
  refine if_neg ?_
  rintro ⟨hp, _⟩
  rw [h] at hp
  cases hp

theorem hit_le (e : Entry) (p : Nat) : hit e p ≤ 1 := by
  unfold hit
  split <;> omega

/-- What a hit says. -/
theorem of_hit {e : Entry} {p : Nat} (h : 0 < hit e p) : e.present = true ∧ e.index = p := by
  by_contra hn
  rw [hit, if_neg hn] at h
  omega

theorem hit_congr {e e' : Entry} (hp : e'.present = e.present) (hi : e'.index = e.index) :
    hit e' = hit e := by
  funext p
  rw [hit, hit, hp, hi]

@[simp] theorem hit_clear (p : Nat) : hit .clear p = 0 := hit_absent rfl p

theorem hit_init (q p : Nat) : hit (entryInit q) p = if q = p then 1 else 0 := by
  simp [hit, entryInit]

@[simp] theorem tableRefs_clear (p : Nat) : tableRefs (fun _ => .clear) p = 0 :=
  Finset.sum_eq_zero fun _ _ => hit_clear p

theorem slotRefs_absent {e : Entry} (h : e.present = false) (T : Nat → Nat → Entry) (p : Nat) :
    slotRefs T e p = 0 := by
  rw [slotRefs, hit_absent h, if_neg (by rw [h]; exact Bool.false_ne_true)]

theorem slotRefs_present {e : Entry} (h : e.present = true) (T : Nat → Nat → Entry) (p : Nat) :
    slotRefs T e p = hit e p + tableRefs (T e.index) p := by
  rw [slotRefs, if_pos h]

/-- The references from a slot depend on its own table only. -/
theorem slotRefs_congr {T T' : Nat → Nat → Entry} {e : Entry}
    (h : e.present = true → T' e.index = T e.index) : slotRefs T' e = slotRefs T e := by
  funext p
  by_cases he : e.present = true
  · rw [slotRefs_present he, slotRefs_present he, h he]
  · rw [slotRefs_absent (Bool.eq_false_iff.mpr he), slotRefs_absent (Bool.eq_false_iff.mpr he)]

/-- One entry of a table changes. -/
theorem tableRefs_update (entries : Nat → Entry) {t : Nat} (ht : t < 1024) (e : Entry) (p : Nat) :
    tableRefs (Function.update entries t e) p + hit (entries t) p
      = tableRefs entries p + hit e p := by
  have h := sum_change (f := fun k => hit (entries k) p)
    (g := fun k => hit (Function.update entries t e k) p) (Finset.mem_range.mpr ht)
    (fun j _ hj => by rw [Function.update_of_ne hj])
  rw [Function.update_self] at h
  exact h

theorem hit_le_tableRefs (entries : Nat → Entry) {t : Nat} (ht : t < 1024) (p : Nat) :
    hit (entries t) p ≤ tableRefs entries p :=
  term_le (f := fun k => hit (entries k) p) (Finset.mem_range.mpr ht)

/-! ## Directories -/

/-- A slot that is counted. -/
def Counts (d : Nat) : Prop := FIRST_SLOT ≤ d ∧ d < SELF_SLOT

theorem counts_iff {d : Nat} : Counts d ↔ d ∈ Finset.Ico FIRST_SLOT SELF_SLOT :=
  Finset.mem_Ico.symm

theorem rangeRefs_succ (T : Nat → Nat → Entry) (dir : Nat → Entry) {lo hi : Nat} (h : lo ≤ hi)
    (p : Nat) : rangeRefs T dir lo (hi + 1) p = rangeRefs T dir lo hi p + slotRefs T (dir hi) p :=
  Finset.sum_Ico_succ_top h _

theorem rangeRefs_pred (T : Nat → Nat → Entry) (dir : Nat → Entry) {lo hi : Nat} (h : lo < hi)
    (p : Nat) : rangeRefs T dir lo hi p = slotRefs T (dir lo) p + rangeRefs T dir (lo + 1) hi p :=
  Finset.sum_eq_sum_Ico_succ_bot h _

@[simp] theorem rangeRefs_nil (T : Nat → Nat → Entry) (dir : Nat → Entry) (lo p : Nat) :
    rangeRefs T dir lo lo p = 0 := by
  rw [rangeRefs, Finset.Ico_self, Finset.sum_empty]

/-- The references from a range of slots depend on these slots and their tables
    only. -/
theorem rangeRefs_congr {T T' : Nat → Nat → Entry} {dir dir' : Nat → Entry} {lo hi : Nat}
    (hd : ∀ d, lo ≤ d → d < hi → dir' d = dir d)
    (hT : ∀ d, lo ≤ d → d < hi → (dir d).present = true → T' (dir d).index = T (dir d).index) :
    rangeRefs T' dir' lo hi = rangeRefs T dir lo hi := by
  funext p
  refine Finset.sum_congr rfl fun d hd' => ?_
  obtain ⟨h1, h2⟩ := Finset.mem_Ico.mp hd'
  rw [hd d h1 h2, slotRefs_congr (hT d h1 h2)]

theorem slotRefs_le_range (T : Nat → Nat → Entry) (dir : Nat → Entry) {lo hi d : Nat}
    (h1 : lo ≤ d) (h2 : d < hi) (p : Nat) : slotRefs T (dir d) p ≤ rangeRefs T dir lo hi p :=
  term_le (f := fun k => slotRefs T (dir k) p) (Finset.mem_Ico.mpr ⟨h1, h2⟩)

/-- A slot that points at a page refers to it. -/
theorem one_le_slotRefs {e : Entry} (h : e.present = true) (T : Nat → Nat → Entry) :
    1 ≤ slotRefs T e e.index := by
  rw [slotRefs_present h, hit_self h]
  omega

variable {P : Paging}

/-- The count of a directory, written out. -/
theorem spaceRefs_eq (P : Paging) (x : Space) (p : Nat) :
    spaceRefs P x p = ∑ d ∈ Finset.Ico FIRST_SLOT SELF_SLOT, slotRefs P.table (P.slot x d) p := rfl

theorem slotRefs_le_space {d : Nat} (hd : Counts d) (x : Space) (p : Nat) :
    slotRefs P.table (P.slot x d) p ≤ spaceRefs P x p :=
  slotRefs_le_range P.table (P.slot x) hd.1 hd.2 p

theorem space_le_refs (x : Space) (p : Nat) : spaceRefs P x p ≤ refs P p :=
  term_le (f := fun y => spaceRefs P y p) (Finset.mem_univ x)

/-- A counted slot refers to its table. -/
theorem table_referenced {d : Nat} {x : Space} (hd : Counts d) (h : (P.slot x d).present = true) :
    1 ≤ spaceRefs P x (P.slot x d).index :=
  le_trans (one_le_slotRefs h _) (slotRefs_le_space hd x _)

/-- A mapped page: entry `e` of the table in slot `d`. -/
def Maps (P : Paging) (x : Space) (d t : Nat) (e : Entry) : Prop :=
  Counts d ∧ t < 1024 ∧ (P.slot x d).present = true ∧ P.table (P.slot x d).index t = e ∧
    e.present = true

/-- A mapping and the slot of its table are two references of the same
    directory. -/
theorem Maps.hits {x : Space} {d t : Nat} {e : Entry} (h : Maps P x d t e) (p : Nat) :
    hit (P.slot x d) p + hit e p ≤ spaceRefs P x p := by
  obtain ⟨hd, ht, hs, he, _⟩ := h
  refine le_trans ?_ (slotRefs_le_space hd x p)
  rw [slotRefs_present hs, ← he]
  have := hit_le_tableRefs (P.table (P.slot x d).index) ht p
  omega

theorem Maps.referenced {x : Space} {d t : Nat} {e : Entry} (h : Maps P x d t e) :
    1 ≤ spaceRefs P x e.index := by
  have := h.hits e.index
  rw [hit_self h.2.2.2.2] at this
  omega

/-- A page that a directory refers to is the table of a slot or mapped. -/
theorem exists_reference {x : Space} {p : Nat} (h : 0 < spaceRefs P x p) :
    ∃ d, Counts d ∧ (P.slot x d).present = true ∧ ((P.slot x d).index = p ∨
      ∃ t e, Maps P x d t e ∧ e.index = p) := by
  rw [spaceRefs_eq] at h
  obtain ⟨d, hd, hs⟩ := exists_term h
  have hp : (P.slot x d).present = true := by
    by_contra hn
    rw [slotRefs_absent (Bool.eq_false_iff.mpr hn)] at hs
    omega
  refine ⟨d, counts_iff.mpr hd, hp, ?_⟩
  rw [slotRefs_present hp] at hs
  by_cases hh : 0 < hit (P.slot x d) p
  · exact Or.inl (of_hit hh).2
  · have hpos : 0 < tableRefs (P.table (P.slot x d).index) p := by omega
    obtain ⟨t, ht, hte⟩ := exists_term hpos
    obtain ⟨he, hi⟩ := of_hit hte
    exact Or.inr ⟨t, _, ⟨counts_iff.mpr hd, Finset.mem_range.mp ht, hp, rfl, he⟩, hi⟩

/-! ## Changing one directory -/

/-- The slots are those of the directories. -/
theorem slot_of_dirs {P P' : Paging} (h : P'.dirs = P.dirs) (x : Space) : P'.slot x = P.slot x := by
  funext d
  simp only [Paging.slot, h]

/-- The same paging with another directory. -/
def setDir (P : Paging) (x : Space) (dir : Option (Nat → Entry)) : Paging :=
  { P with dirs := Function.update P.dirs x dir }

theorem slot_setDir_self (x : Space) (dir : Nat → Entry) :
    (setDir P x (some dir)).slot x = dir := by
  funext d
  simp [Paging.slot, setDir]

theorem slot_setDir_none (x : Space) (d : Nat) : (setDir P x none).slot x d = .clear := by
  simp [Paging.slot, setDir]

theorem slot_setDir_other {x y : Space} (h : y ≠ x) (dir : Option (Nat → Entry)) :
    (setDir P x dir).slot y = P.slot y := by
  funext d
  simp only [Paging.slot, setDir, Function.update_of_ne h]

theorem spaceRefs_setDir_other {x y : Space} (h : y ≠ x) (dir : Option (Nat → Entry)) :
    spaceRefs (setDir P x dir) y = spaceRefs P y := by
  funext p
  rw [spaceRefs, slot_setDir_other h]
  rfl

theorem spaceRefs_setDir_self (x : Space) (dir : Nat → Entry) :
    spaceRefs (setDir P x (some dir)) x = dirRefs P.table dir := by
  funext p
  rw [spaceRefs, slot_setDir_self]
  rfl

/-- A directory that does not exist refers to nothing. -/
theorem spaceRefs_of_clear {x : Space} (h : ∀ d, P.slot x d = .clear) (p : Nat) :
    spaceRefs P x p = 0 := by
  rw [spaceRefs_eq]
  refine Finset.sum_eq_zero fun d _ => ?_
  rw [h d]
  exact slotRefs_absent rfl _ _

theorem spaceRefs_setDir_none (x : Space) (p : Nat) : spaceRefs (setDir P x none) x p = 0 :=
  spaceRefs_of_clear (slot_setDir_none x) p

/-- The count moves by what the changed directory refers to. -/
theorem refs_setDir (x : Space) (dir : Option (Nat → Entry)) (p : Nat) :
    refs (setDir P x dir) p + spaceRefs P x p = refs P p + spaceRefs (setDir P x dir) x p :=
  sum_change (f := fun y => spaceRefs P y p) (g := fun y => spaceRefs (setDir P x dir) y p)
    (Finset.mem_univ x) (fun y _ hy => by rw [spaceRefs_setDir_other hy])

/-- A directory with one slot changed. -/
theorem dirRefs_update (T : Nat → Nat → Entry) (dir : Nat → Entry) {d : Nat} (hd : Counts d)
    (e : Entry) (p : Nat) :
    dirRefs T (Function.update dir d e) p + slotRefs T (dir d) p
      = dirRefs T dir p + slotRefs T e p := by
  have h := sum_change (f := fun k => slotRefs T (dir k) p)
    (g := fun k => slotRefs T (Function.update dir d e k) p) (counts_iff.mp hd)
    (fun j _ hj => by rw [Function.update_of_ne hj])
  rw [Function.update_self] at h
  exact h

/-! ## Changing one table -/

/-- The same paging with other entries on one page. -/
def setTable (P : Paging) (q : Nat) (entries : Nat → Entry) : Paging :=
  { P with table := Function.update P.table q entries }

@[simp] theorem slot_setTable (q : Nat) (entries : Nat → Entry) (x : Space) :
    (setTable P q entries).slot x = P.slot x := rfl

theorem table_setTable_self (q : Nat) (entries : Nat → Entry) :
    (setTable P q entries).table q = entries := Function.update_self ..

theorem table_setTable_other {q r : Nat} (h : r ≠ q) (entries : Nat → Entry) :
    (setTable P q entries).table r = P.table r := Function.update_of_ne h ..

/-- A directory that does not refer to a page does not notice what it holds. -/
theorem spaceRefs_setTable_other {x : Space} {q : Nat} (h : spaceRefs P x q = 0)
    (entries : Nat → Entry) : spaceRefs (setTable P q entries) x = spaceRefs P x := by
  refine rangeRefs_congr (fun _ _ _ => rfl) fun d h1 h2 hp => ?_
  refine table_setTable_other ?_ entries
  intro hq
  have := table_referenced ⟨h1, h2⟩ hp
  rw [hq, h] at this
  omega

theorem refs_setTable_of_zero {q : Nat} (h : refs P q = 0) (entries : Nat → Entry) :
    refs (setTable P q entries) = refs P := by
  funext p
  refine Finset.sum_congr rfl fun x _ => ?_
  rw [spaceRefs_setTable_other]
  have := space_le_refs (P := P) x q
  omega

/-- Entry `t` of the table that only slot `d` of `x` points at changes. -/
theorem spaceRefs_setEntry {x : Space} {d t : Nat} (hd : Counts d) (ht : t < 1024)
    (hs : (P.slot x d).present = true) (h1 : spaceRefs P x (P.slot x d).index ≤ 1) (e : Entry)
    (p : Nat) :
    let q := (P.slot x d).index
    spaceRefs (setTable P q (Function.update (P.table q) t e)) x p + hit (P.table q t) p
      = spaceRefs P x p + hit e p := by
  intro q
  rw [spaceRefs_eq] at h1
  have h := sum_change (f := fun k => slotRefs P.table (P.slot x k) p)
    (g := fun k => slotRefs (setTable P q (Function.update (P.table q) t e)).table (P.slot x k) p)
    (counts_iff.mp hd) (fun j hj hne => ?_)
  · have hnew : slotRefs (setTable P q (Function.update (P.table q) t e)).table (P.slot x d) p
        = hit (P.slot x d) p + tableRefs (Function.update (P.table q) t e) p := by
      rw [slotRefs_present hs, table_setTable_self]
    have hold : slotRefs P.table (P.slot x d) p = hit (P.slot x d) p + tableRefs (P.table q) p :=
      slotRefs_present hs _ _
    have hu := tableRefs_update (P.table q) ht e p
    rw [hnew, hold] at h
    rw [spaceRefs_eq, spaceRefs_eq]
    simp only [slot_setTable]
    omega
  · -- another slot of the directory holds another table
    refine congrFun (slotRefs_congr fun hj' => table_setTable_other ?_ _) p
    intro hq
    have hz := no_second (f := fun k => slotRefs P.table (P.slot x k) q) h1 (counts_iff.mp hd) hj
      hne (one_le_slotRefs hs _)
    have hpos := one_le_slotRefs hj' P.table
    rw [hq] at hpos
    omega

end NeonixPageRefs
