import Neonix.PageRefs

/-! # What one step of `memory.c` does to the counts

    `Counted m E` says that the reference counts are exact when the references
    in `E` are added: those a call holds between `get_page` and the entry it
    writes, or between clearing an entry and `put_page`.  A step moves
    references between the tables and `E`, or changes a count together with
    `E`, so exactness needs no argument beyond that.  What does need one is that
    a table is changed under one directory only; `once` and `tables` carry it.

    `Private m` is the copy-on-write discipline.  `Kept x m m'` collects what a
    whole call of a task on directory `x` keeps. -/

namespace NeonixPageSteps

open NeonixMachine NeonixOutcome NeonixMemory NeonixPageRefs NeonixTally

/-- The pages of the first 16 MB. -/
def KERNEL_PAGES : Nat := IDX KERNEL_MEMORY_SIZE

/-- The stop the counts rule out. -/
def badCount (e : Stop) : Prop := e = .refcount

/-- One reference to page `p`. -/
def one (p q : Nat) : Nat := if p = q then 1 else 0

theorem one_eq_hit (p q : Nat) : one p q = hit (entryInit p) q := (hit_init p q).symm

@[simp] theorem one_self (p : Nat) : one p p = 1 := if_pos rfl

theorem one_other {p q : Nat} (h : p ≠ q) : one p q = 0 := if_neg h

/-- The references an entry holds, as a number of references to its page. -/
theorem hit_present {e : Entry} (h : e.present = true) (p : Nat) : hit e p = one e.index p := by
  simp [hit, one, h]

theorem slot_setSlot_self (m : Memory) (x : Space) (d : Nat) (e : Entry) :
    (m.setSlot x d e).slot x d = e := by
  have h := congrFun (slot_setDir_self (P := m.toPaging) x (Function.update (m.slot x) d e)) d
  rw [Function.update_self] at h
  exact h

theorem slot_setSlot_other (m : Memory) {x y : Space} {d d' : Nat} (h : ¬ (y = x ∧ d' = d))
    (e : Entry) : (m.setSlot x d e).slot y d' = m.slot y d' := by
  by_cases hy : y = x
  · subst hy
    have hu := congrFun (slot_setDir_self (P := m.toPaging) y (Function.update (m.slot y) d e)) d'
    rw [Function.update_of_ne (fun hdd => h ⟨rfl, hdd⟩)] at hu
    exact hu
  · exact congrFun (slot_setDir_other hy _) d'

/-- What `get_page` leaves. -/
def taken (m : Memory) (p : Nat) (f : UInt32) : Memory :=
  { m with memory_map := Function.update m.memory_map p 1, free_pages := f,
           handed := (p, m.toPaging) :: m.handed }

/-- What `put_page` leaves. -/
def dropped (m : Memory) (p : Nat) (f : UInt32) : Memory :=
  { m with memory_map := Function.update m.memory_map p (m.memory_map p - 1), free_pages := f }

/-- Exact counts, with the references in `E` still to be placed. -/
structure Counted (m : Memory) (E : Nat → Nat) : Prop where
  exact : ∀ p, KERNEL_PAGES ≤ p → m.memory_map p = refs m.toPaging p + E p
  low : ∀ p, p < KERNEL_PAGES → 1 ≤ m.memory_map p
  inside : ∀ p, 0 < refs m.toPaging p + E p → KERNEL_PAGES ≤ p ∧ p < m.total_pages
  start : m.start_page ≤ KERNEL_PAGES
  once : ∀ x p, spaceRefs m.toPaging x p ≤ 1
  tables : ∀ x d, Counts d → (m.slot x d).present = true →
    refs m.toPaging (m.slot x d).index = 1
  fresh : ∀ h ∈ m.handed, refs h.2 h.1 = 0

/-- Exact counts between calls. -/
def Sound (m : Memory) : Prop := Counted m fun _ => 0

namespace Counted

variable {m : Memory} {E : Nat → Nat}

/-- A count is exact for every page something refers to. -/
theorem exact_of_pos (h : Counted m E) {p : Nat} (hp : 0 < refs m.toPaging p + E p) :
    m.memory_map p = refs m.toPaging p + E p := h.exact p (h.inside p hp).1

/-- The references may be listed in another way. -/
theorem congr (h : Counted m E) {F : Nat → Nat} (hF : ∀ p, F p = E p) : Counted m F := by
  rw [show F = E from funext hF]
  exact h

/-- Only one slot holds a table. -/
theorem slot_unique (h : Counted m E) {x y : Space} {d d' : Nat} (hd : Counts d)
    (hd' : Counts d') (hx : (m.slot x d).present = true) (hy : (m.slot y d').present = true)
    (he : (m.slot y d').index = (m.slot x d).index) : y = x ∧ d' = d := by
  have hx1 := table_referenced hd hx
  have hy1 := table_referenced hd' hy
  rw [he] at hy1
  have hyx : y = x := by
    by_contra hne
    have hz := no_second (f := fun z => spaceRefs m.toPaging z (m.slot x d).index)
      (Nat.le_of_eq (h.tables x d hd hx)) (Finset.mem_univ x) (Finset.mem_univ y) hne hx1
    omega
  subst hyx
  refine ⟨rfl, ?_⟩
  by_contra hne
  have h1 := h.once y (m.slot y d).index
  rw [spaceRefs_eq] at h1
  have hz := no_second h1 (counts_iff.mp hd) (counts_iff.mp hd') hne (one_le_slotRefs hx _)
  have hpos := one_le_slotRefs hy m.table
  rw [he] at hpos
  omega

/-- No mapped page is a table. -/
theorem not_table (h : Counted m E) {x y : Space} {d d' t : Nat} {e : Entry}
    (hm : Maps m.toPaging x d t e) (hd' : Counts d') (hy : (m.slot y d').present = true) :
    (m.slot y d').index ≠ e.index := by
  intro he
  have hx1 := hm.referenced
  have hy1 := table_referenced hd' hy
  have hyx : y = x := by
    by_contra hne
    have hone := Nat.le_of_eq (h.tables y d' hd' hy)
    have hz := no_second (f := fun z => spaceRefs m.toPaging z (m.slot y d').index)
      hone (Finset.mem_univ y) (Finset.mem_univ x) (Ne.symm hne) hy1
    rw [he] at hz
    omega
  subst hyx
  by_cases hdd : d' = d
  · subst hdd
    have := hm.hits e.index
    rw [hit_self hm.2.2.2.2, ← he, hit_self hy] at this
    have := h.once y (m.slot y d').index
    omega
  · have h1 := h.once y e.index
    rw [spaceRefs_eq] at h1
    have hz := no_second h1 (counts_iff.mp hd') (counts_iff.mp hm.1) (Ne.symm hdd)
      (he ▸ one_le_slotRefs hy _)
    have hs := slotRefs_present hm.2.2.1 m.table e.index
    have ht := hit_le_tableRefs (m.table (m.slot y d).index) hm.2.1 e.index
    rw [hm.2.2.2.1, hit_self hm.2.2.2.2] at ht
    omega

/-- Nothing but the one mapping refers to a page with one reference. -/
theorem maps_unique (h : Counted m E) {x y : Space} {d d' t t' : Nat} {e e' : Entry}
    (hm : Maps m.toPaging x d t e) (hm' : Maps m.toPaging y d' t' e') (he : e'.index = e.index)
    (h1 : refs m.toPaging e.index ≤ 1) : y = x ∧ d' = d ∧ t' = t := by
  have hx1 := hm.referenced
  have hy1 := hm'.referenced
  rw [he] at hy1
  have hyx : y = x := by
    by_contra hne
    have hz := no_second (f := fun z => spaceRefs m.toPaging z e.index) h1 (Finset.mem_univ x)
      (Finset.mem_univ y) hne hx1
    omega
  subst hyx
  obtain ⟨hd, ht, hs, hte, hp⟩ := hm
  obtain ⟨hd', ht', hs', hte', hp'⟩ := hm'
  have hh : hit e' e.index = 1 := by
    rw [← he]
    exact hit_self hp'
  have hslot : 1 ≤ slotRefs m.table (m.slot y d) e.index := by
    rw [slotRefs_present hs]
    have := hit_le_tableRefs (m.table (m.slot y d).index) ht e.index
    rw [hte, hit_self hp] at this
    omega
  have hslot' : 1 ≤ slotRefs m.table (m.slot y d') e.index := by
    rw [slotRefs_present hs']
    have := hit_le_tableRefs (m.table (m.slot y d').index) ht' e.index
    rw [hte', hh] at this
    omega
  have hle := h.once y e.index
  rw [spaceRefs_eq] at hle
  have hdd : d' = d := by
    by_contra hne
    have := no_second hle (counts_iff.mp hd) (counts_iff.mp hd') hne hslot
    omega
  subst hdd
  refine ⟨rfl, rfl, ?_⟩
  by_contra hne
  have htab : tableRefs (m.table (m.slot y d').index) e.index ≤ 1 := by
    have := slotRefs_le_space (P := m.toPaging) hd y e.index
    have := h.once y e.index
    have := slotRefs_present hs m.table e.index
    omega
  have := no_second htab (Finset.mem_range.mpr ht) (Finset.mem_range.mpr ht') hne
    (by rw [hte, hit_self hp])
  rw [hte', hh] at this
  omega

/-! ### Pages -/

/-- A page that is free is neither referred to nor claimed. -/
theorem unused (h : Counted m E) {p : Nat} (hp : m.memory_map p = 0) :
    KERNEL_PAGES ≤ p ∧ refs m.toPaging p = 0 ∧ E p = 0 := by
  have hk : KERNEL_PAGES ≤ p := by
    by_contra hn
    have := h.low p (by omega)
    omega
  have := h.exact p hk
  exact ⟨hk, by omega, by omega⟩

/-- A free page is claimed. -/
theorem take (h : Counted m E) {p : Nat} (hp : m.memory_map p = 0) (ht : p < m.total_pages)
    (f : UInt32) : Counted (taken m p f) fun q => E q + one p q := by
  obtain ⟨hk, hr, hE⟩ := h.unused hp
  refine ⟨?_, ?_, ?_, h.start, h.once, h.tables, ?_⟩
  · intro q hq
    show Function.update m.memory_map p 1 q = refs m.toPaging q + (E q + one p q)
    by_cases hqp : q = p
    · subst hqp
      rw [Function.update_self, one_self, hr, hE]
    · rw [Function.update_of_ne hqp, one_other (Ne.symm hqp), h.exact q hq, Nat.add_zero]
  · intro q hq
    show 1 ≤ Function.update m.memory_map p 1 q
    rw [Function.update_of_ne (by omega)]
    exact h.low q hq
  · intro q hq
    by_cases hqp : q = p
    · subst hqp
      exact ⟨hk, ht⟩
    · rw [one_other (Ne.symm hqp)] at hq
      exact h.inside q hq
  · intro g hg
    rcases List.mem_cons.mp hg with rfl | hg
    · exact hr
    · exact h.fresh g hg

/-- A claimed reference to a page is dropped. -/
theorem drop {p : Nat} (h : Counted m fun q => E q + one p q) (f : UInt32) :
    Counted (dropped m p f) E := by
  have hp := h.exact_of_pos (p := p) (by rw [one_self]; omega)
  rw [one_self] at hp
  refine ⟨?_, ?_, ?_, h.start, h.once, h.tables, h.fresh⟩
  · intro q hq
    show Function.update m.memory_map p (m.memory_map p - 1) q = refs m.toPaging q + E q
    by_cases hqp : q = p
    · subst hqp
      rw [Function.update_self, hp]
      show refs m.toPaging q + (E q + 1) - 1 = refs m.toPaging q + E q
      omega
    · have := h.exact q hq
      rw [one_other (Ne.symm hqp)] at this
      rw [Function.update_of_ne hqp, this, Nat.add_zero]
  · intro q hq
    show 1 ≤ Function.update m.memory_map p (m.memory_map p - 1) q
    have hk := (h.inside p (by rw [one_self]; omega)).1
    rw [Function.update_of_ne (by omega)]
    exact h.low q hq
  · intro q hq
    have hq' : 0 < refs m.toPaging q + E q := hq
    exact h.inside q (by omega)

/-- One more reference to a mapped page is claimed. -/
theorem retain (h : Counted m E) {p : Nat} (hp : 0 < refs m.toPaging p) :
    Counted (m.setMap p (m.memory_map p + 1)) fun q => E q + one p q := by
  obtain ⟨hk, ht⟩ := h.inside p (by omega)
  refine ⟨?_, ?_, ?_, h.start, h.once, h.tables, h.fresh⟩
  · intro q hq
    show Function.update m.memory_map p (m.memory_map p + 1) q = refs m.toPaging q + _
    by_cases hqp : q = p
    · subst hqp
      rw [Function.update_self, one_self, h.exact q hq, Nat.add_assoc]
    · rw [Function.update_of_ne hqp, one_other (Ne.symm hqp), h.exact q hq, Nat.add_zero]
  · intro q hq
    show 1 ≤ Function.update m.memory_map p (m.memory_map p + 1) q
    rw [Function.update_of_ne (by omega)]
    exact h.low q hq
  · intro q hq
    by_cases hqp : q = p
    · subst hqp
      exact ⟨hk, ht⟩
    · rw [one_other (Ne.symm hqp)] at hq
      exact h.inside q hq

/-! ### Entries -/

/-- An entry changes: what it referred to is claimed, what it refers to now was
    claimed before. -/
theorem setEntry (h : Counted m E) {x : Space} {d t : Nat} (hd : Counts d) (ht : t < 1024)
    (hs : (m.slot x d).present = true) {e : Entry} {F : Nat → Nat}
    (hF : ∀ p, F p + hit e p = E p + hit (m.table (m.slot x d).index t) p)
    (hnew : ∀ p, 0 < hit e p → 0 < hit (m.table (m.slot x d).index t) p ∨ refs m.toPaging p = 0) :
    Counted (m.setEntry (m.slot x d).index t e) F := by
  have hspace := spaceRefs_setEntry hd ht hs (h.once x _) e
  have hq : ∀ y, y ≠ x → spaceRefs m.toPaging y (m.slot x d).index = 0 := fun y hy =>
    no_second (f := fun z => spaceRefs m.toPaging z (m.slot x d).index)
      (Nat.le_of_eq (h.tables x d hd hs)) (Finset.mem_univ x) (Finset.mem_univ y) hy
      (table_referenced hd hs)
  have hother : ∀ y, y ≠ x →
      spaceRefs (m.setEntry (m.slot x d).index t e).toPaging y = spaceRefs m.toPaging y :=
    fun y hy => spaceRefs_setTable_other (hq y hy) _
  have hrefs : ∀ p, refs (m.setEntry (m.slot x d).index t e).toPaging p
      + hit (m.table (m.slot x d).index t) p = refs m.toPaging p + hit e p := by
    intro p
    have hc := sum_change (f := fun y => spaceRefs m.toPaging y p)
      (g := fun y => spaceRefs (m.setEntry (m.slot x d).index t e).toPaging y p)
      (Finset.mem_univ x) (fun y _ hy => by rw [hother y hy])
    have hx : spaceRefs (m.setEntry (m.slot x d).index t e).toPaging x p
        + hit (m.table (m.slot x d).index t) p = spaceRefs m.toPaging x p + hit e p := hspace p
    simp only [refs]
    omega
  have htotal : ∀ p, refs (m.setEntry (m.slot x d).index t e).toPaging p + F p
      = refs m.toPaging p + E p := by
    intro p
    have := hF p
    have := hrefs p
    omega
  refine ⟨?_, h.low, ?_, h.start, ?_, ?_, h.fresh⟩
  · intro p hp
    rw [htotal]
    exact h.exact p hp
  · intro p hp
    rw [htotal] at hp
    exact h.inside p hp
  · intro y p
    by_cases hy : y = x
    · subst hy
      have hx : spaceRefs (m.setEntry (m.slot y d).index t e).toPaging y p
          + hit (m.table (m.slot y d).index t) p = spaceRefs m.toPaging y p + hit e p := hspace p
      have h1 := h.once y p
      have hle := hit_le e p
      by_cases he : 0 < hit e p
      · rcases hnew p he with ho | hz
        · omega
        · have := space_le_refs (P := m.toPaging) y p
          omega
      · omega
    · rw [hother y hy]
      exact h.once y p
  · intro y d' hd' hy
    have h1 := h.tables y d' hd' hy
    have hr := hrefs (m.slot y d').index
    have hold : hit (m.table (m.slot x d).index t) (m.slot y d').index = 0 := by
      by_contra hne
      obtain ⟨hp, hi⟩ := of_hit (Nat.pos_of_ne_zero hne)
      exact h.not_table ⟨hd, ht, hs, rfl, hp⟩ hd' hy hi.symm
    have hz : hit e (m.slot y d').index = 0 := by
      by_contra hne
      rcases hnew _ (Nat.pos_of_ne_zero hne) with ho | hz
      · omega
      · omega
    show refs (m.setEntry (m.slot x d).index t e).toPaging (m.slot y d').index = 1
    omega

/-- A page nothing refers to is filled. -/
theorem setPage (h : Counted m E) {q : Nat} (hq : refs m.toPaging q = 0) (entries : Nat → Entry)
    (bytes : Nat → NeonixByteBits.Byte) : Counted (m.setPage q entries bytes) E := by
  have hr : refs (m.setPage q entries bytes).toPaging = refs m.toPaging :=
    refs_setTable_of_zero hq entries
  have hsp : ∀ x, spaceRefs (m.setPage q entries bytes).toPaging x = spaceRefs m.toPaging x := by
    intro x
    refine spaceRefs_setTable_other ?_ entries
    have := space_le_refs (P := m.toPaging) x q
    omega
  refine ⟨?_, h.low, ?_, h.start, ?_, ?_, h.fresh⟩
  · intro p hp
    rw [hr]
    exact h.exact p hp
  · intro p hp
    rw [hr] at hp
    exact h.inside p hp
  · intro x p
    rw [hsp]
    exact h.once x p
  · intro x d hd hs
    rw [hr]
    exact h.tables x d hd hs

/-! ### Directories -/

/-- A claimed page that holds no references becomes the table of a slot. -/
theorem install {q : Nat} (h : Counted m fun p => E p + one q p) {x : Space} {d : Nat}
    (hd : Counts d) (ha : (m.slot x d).present = false) (hq : refs m.toPaging q = 0)
    (hT : ∀ p, tableRefs (m.table q) p = 0) : Counted (m.setSlot x d (entryInit q)) E := by
  have hself : ∀ p, spaceRefs (m.setSlot x d (entryInit q)).toPaging x p
      = spaceRefs m.toPaging x p + one q p := by
    intro p
    have hu := dirRefs_update m.table (m.slot x) hd (entryInit q) p
    rw [slotRefs_absent ha, slotRefs_present (e := entryInit q) rfl, ← one_eq_hit] at hu
    have hx : spaceRefs (m.setSlot x d (entryInit q)).toPaging x p
        = dirRefs m.table (Function.update (m.slot x) d (entryInit q)) p :=
      congrFun (spaceRefs_setDir_self x _) p
    have hz : tableRefs (m.table (entryInit q).index) p = 0 := hT p
    rw [hx, spaceRefs]
    omega
  have hother : ∀ y, y ≠ x → spaceRefs (m.setSlot x d (entryInit q)).toPaging y
      = spaceRefs m.toPaging y := fun y hy => spaceRefs_setDir_other hy _
  have hrefs : ∀ p, refs (m.setSlot x d (entryInit q)).toPaging p
      = refs m.toPaging p + one q p := by
    intro p
    have hu := refs_setDir (P := m.toPaging) x
      (some (Function.update (m.slot x) d (entryInit q))) p
    have hs := hself p
    have hr : refs (m.setSlot x d (entryInit q)).toPaging p
        = refs (NeonixPageRefs.setDir m.toPaging x
          (some (Function.update (m.slot x) d (entryInit q)))) p := rfl
    have hsp : spaceRefs (m.setSlot x d (entryInit q)).toPaging x p
        = spaceRefs (NeonixPageRefs.setDir m.toPaging x
          (some (Function.update (m.slot x) d (entryInit q)))) x p := rfl
    omega
  refine ⟨?_, h.low, ?_, h.start, ?_, ?_, h.fresh⟩
  · intro p hp
    have := h.exact p hp
    rw [hrefs]
    show m.memory_map p = _
    omega
  · intro p hp
    rw [hrefs] at hp
    exact h.inside p (by omega)
  · intro y p
    by_cases hy : y = x
    · subst hy
      rw [hself]
      by_cases hqp : q = p
      · subst hqp
        have := space_le_refs (P := m.toPaging) y q
        rw [one_self]
        omega
      · rw [one_other hqp, Nat.add_zero]
        exact h.once y p
    · rw [hother y hy]
      exact h.once y p
  · intro y d' hd' hs'
    rw [hrefs]
    by_cases hyd : y = x ∧ d' = d
    · obtain ⟨rfl, rfl⟩ := hyd
      rw [slot_setSlot_self]
      show refs m.toPaging q + one q q = 1
      rw [hq, one_self]
    · rw [slot_setSlot_other m hyd] at hs' ⊢
      have h1 := h.tables y d' hd' hs'
      rw [h1, one_other]
      rintro rfl
      omega

/-- A directory is taken away: what it refers to is claimed. -/
theorem removeDir (h : Counted m E) (x : Space) :
    Counted (m.setDir x none) fun p => E p + spaceRefs m.toPaging x p := by
  have hrefs : ∀ p, refs (m.setDir x none).toPaging p + spaceRefs m.toPaging x p
      = refs m.toPaging p := by
    intro p
    have := refs_setDir (P := m.toPaging) x none p
    rw [spaceRefs_setDir_none, Nat.add_zero] at this
    exact this
  refine ⟨?_, h.low, ?_, h.start, ?_, ?_, h.fresh⟩
  · intro p hp
    have := h.exact p hp
    have := hrefs p
    show m.memory_map p = _
    omega
  · intro p hp
    have := hrefs p
    exact h.inside p (by omega)
  · intro y p
    by_cases hy : y = x
    · subst hy
      exact le_trans (Nat.le_of_eq (spaceRefs_setDir_none y p)) (Nat.zero_le 1)
    · have : spaceRefs (m.setDir x none).toPaging y = spaceRefs m.toPaging y :=
        spaceRefs_setDir_other hy _
      rw [this]
      exact h.once y p
  · intro y d hd hs
    by_cases hy : y = x
    · subst hy
      have : (m.setDir y none).slot y d = .clear := slot_setDir_none y d
      rw [this] at hs
      cases hs
    · have hslot : (m.setDir x none).slot y d = m.slot y d := congrFun (slot_setDir_other hy _) d
      rw [hslot] at hs ⊢
      have h1 := h.tables y d hd hs
      have hz := no_second (f := fun z => spaceRefs m.toPaging z (m.slot y d).index)
        (Nat.le_of_eq h1) (Finset.mem_univ y) (Finset.mem_univ x) (Ne.symm hy)
        (table_referenced hd hs)
      have := hrefs (m.slot y d).index
      omega

/-- A directory is added: what it refers to was claimed. -/
theorem addDir {dir : Nat → Entry} (h : Counted m fun p => E p + dirRefs m.table dir p) {x : Space}
    (hx : ∀ p, spaceRefs m.toPaging x p = 0) (honce : ∀ p, dirRefs m.table dir p ≤ 1)
    (htab : ∀ d, Counts d → (dir d).present = true → refs m.toPaging (dir d).index = 0)
    (hapart : ∀ y d, Counts d → (m.slot y d).present = true →
      dirRefs m.table dir (m.slot y d).index = 0) :
    Counted (m.setDir x (some dir)) E := by
  have hself : ∀ p, spaceRefs (m.setDir x (some dir)).toPaging x p = dirRefs m.table dir p :=
    fun p => congrFun (spaceRefs_setDir_self x dir) p
  have hother : ∀ y, y ≠ x → spaceRefs (m.setDir x (some dir)).toPaging y
      = spaceRefs m.toPaging y := fun y hy => spaceRefs_setDir_other hy _
  have hrefs : ∀ p, refs (m.setDir x (some dir)).toPaging p
      = refs m.toPaging p + dirRefs m.table dir p := by
    intro p
    have hu := refs_setDir (P := m.toPaging) x (some dir) p
    rw [hx, Nat.add_zero, spaceRefs_setDir_self] at hu
    exact hu
  refine ⟨?_, h.low, ?_, h.start, ?_, ?_, h.fresh⟩
  · intro p hp
    have := h.exact p hp
    rw [hrefs]
    show m.memory_map p = _
    omega
  · intro p hp
    rw [hrefs] at hp
    exact h.inside p (by omega)
  · intro y p
    by_cases hy : y = x
    · subst hy
      rw [hself]
      exact honce p
    · rw [hother y hy]
      exact h.once y p
  · intro y d hd hs
    rw [hrefs]
    by_cases hy : y = x
    · subst hy
      have hslot : (m.setDir y (some dir)).slot y d = dir d := congrFun (slot_setDir_self y dir) d
      rw [hslot] at hs ⊢
      have hge : 1 ≤ dirRefs m.table dir (dir d).index :=
        le_trans (one_le_slotRefs hs m.table) (slotRefs_le_range m.table dir hd.1 hd.2 _)
      have hle := honce (dir d).index
      have hz := htab d hd hs
      omega
    · have hslot : (m.setDir x (some dir)).slot y d = m.slot y d :=
        congrFun (slot_setDir_other hy _) d
      rw [hslot] at hs ⊢
      have h1 := h.tables y d hd hs
      have hz := hapart y d hd hs
      omega

end Counted

end NeonixPageSteps
