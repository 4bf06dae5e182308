import Mathlib.Data.Fintype.Card
import Neonix.MappingCalls

/-! # `copy_pde` and `free_pde`

    Both walk a whole directory, and in between counts and tables do not agree.
    `copy_pde` claims a reference for every entry it passes and for every new
    table; the claims are the references of the new directory, slot by slot
    (`Copying`), and are placed all at once when the task gets it.  `free_pde`
    is the other way round: taking the directory away claims all its references
    at once, and the loops drop them. -/

namespace NeonixDirectoryCalls

open NeonixMachine NeonixOutcome NeonixMemory NeonixPageRefs NeonixPageSteps NeonixTally
open NeonixPageCalls NeonixMappingCalls

variable {m m' : Memory} {x : Space} {E : Nat → Nat}

/-! ## Tallies of tables -/

/-- Tables with the same hits are referred to alike. -/
theorem rangeRefs_of_tables {T T' : Nat → Nat → Entry} (h : ∀ r, tableRefs (T' r) = tableRefs (T r))
    (dir : Nat → Entry) (lo hi : Nat) : rangeRefs T' dir lo hi = rangeRefs T dir lo hi := by
  funext p
  refine Finset.sum_congr rfl fun d _ => ?_
  by_cases hd : (dir d).present = true
  · rw [slotRefs_present hd, slotRefs_present hd, h]
  · rw [slotRefs_absent (Bool.eq_false_iff.mpr hd), slotRefs_absent (Bool.eq_false_iff.mpr hd)]

theorem refs_of_tables {P P' : Paging} (hd : P'.dirs = P.dirs)
    (h : ∀ r, tableRefs (P'.table r) = tableRefs (P.table r)) : refs P' = refs P := by
  funext p
  refine Finset.sum_congr rfl fun y _ => ?_
  rw [spaceRefs, spaceRefs, slot_of_dirs hd]
  exact congrFun (rangeRefs_of_tables h _ _ _) p

theorem rangeRefs_le (T : Nat → Nat → Entry) (dir : Nat → Entry) {d : Nat} (hd : FIRST_SLOT ≤ d)
    (p : Nat) : rangeRefs T dir d SELF_SLOT p ≤ dirRefs T dir p := by
  rw [dirRefs, rangeRefs, rangeRefs]
  exact Finset.sum_le_sum_of_subset (Finset.Ico_subset_Ico hd (le_refl _))

/-- No page has more references than there are directories. -/
theorem refs_le (h : Counted m E) (p : Nat) : refs m.toPaging p ≤ TASK_NR + 1 := by
  have hsum := Finset.sum_le_card_nsmul Finset.univ (fun y => spaceRefs m.toPaging y p) 1
    fun y _ => h.once y p
  have hcard : Finset.card (Finset.univ : Finset Space) = TASK_NR + 1 := by
    rw [Finset.card_univ, Fintype.card_option, Fintype.card_fin]
  rw [hcard] at hsum
  exact hsum

/-! ## One table of `copy_pde` -/

/-- The references of the first `t` entries of a table. -/
def prefixRefs (entries : Nat → Entry) (t p : Nat) : Nat :=
  ∑ k ∈ Finset.range t, hit (entries k) p

theorem prefixRefs_succ (entries : Nat → Entry) (t p : Nat) :
    prefixRefs entries (t + 1) p = prefixRefs entries t p + hit (entries t) p :=
  Finset.sum_range_succ _ t

theorem prefixRefs_le (entries : Nat → Entry) {t : Nat} (ht : t ≤ 1024) (p : Nat) :
    prefixRefs entries t p ≤ tableRefs entries p :=
  Finset.sum_le_sum_of_subset (Finset.range_mono ht)

/-- The user may not write a page by an entry unless it is shared. -/
def ReadOnly (e : Entry) : Prop := e.present = true → e.shared = false → e.write = false

/-- The same page, shared or not as before. -/
def SameRef (e e' : Entry) : Prop :=
  e'.present = e.present ∧ e'.index = e.index ∧ e'.shared = e.shared

/-- After the first `t` entries of the table on page `q`. -/
structure Sharing (q t : Nat) (E : Nat → Nat) (m m' : Memory) : Prop where
  counted : Counted m' fun p => E p + prefixRefs (m.table q) t p
  dirs : m'.dirs = m.dirs
  other : ∀ r, r ≠ q → m'.table r = m.table r
  same : ∀ k, SameRef (m.table q k) (m'.table q k)
  done : ∀ k, k < t → ReadOnly (m'.table q k)
  cow : Private m → Private m'

/-- The entry of `copy_pde` with its right to write taken. -/
def demoted (m : Memory) (q t : Nat) : Memory :=
  if (m.table q t).shared then m else m.setEntry q t { m.table q t with write := false }

theorem demoted_table (m : Memory) (q t r k : Nat) :
    (demoted m q t).table r k = if r = q ∧ k = t ∧ (m.table q t).shared = false
      then { m.table q t with write := false } else m.table r k := by
  unfold demoted
  by_cases hs : (m.table q t).shared = true
  · rw [if_pos hs, if_neg]
    rintro ⟨_, _, hf⟩
    rw [hs] at hf
    cases hf
  · rw [if_neg hs]
    show Function.update m.table q (Function.update (m.table q) t _) r k = _
    by_cases hr : r = q
    · subst hr
      rw [Function.update_self]
      by_cases hk : k = t
      · subst hk
        rw [Function.update_self, if_pos ⟨rfl, rfl, Bool.eq_false_iff.mpr hs⟩]
      · rw [Function.update_of_ne hk, if_neg fun h => hk h.2.1]
    · rw [Function.update_of_ne hr, if_neg fun h => hr h.1]

/-- Taking the right to write keeps counts and discipline. -/
theorem demoted_counted (h : Counted m E) {d t : Nat} (hd : Counts d) (ht : t < 1024)
    (hs : (m.slot x d).present = true) : Counted (demoted m (m.slot x d).index t) E := by
  unfold demoted
  split
  · exact h
  · exact counted_flags h hd ht hs rfl rfl

theorem demoted_private (hP : Private m) (h : Counted m E) {d t : Nat} (hd : Counts d)
    (ht : t < 1024) (hs : (m.slot x d).present = true) :
    Private (demoted m (m.slot x d).index t) := by
  unfold demoted
  split
  · exact hP
  · exact private_flags hP h hd ht hs rfl rfl rfl fun _ _ hw => absurd hw Bool.false_ne_true

theorem demoted_rest (m : Memory) (q t : Nat) : (demoted m q t).dirs = m.dirs ∧
    (demoted m q t).memory_map = m.memory_map := by
  unfold demoted
  split
  · exact ⟨rfl, rfl⟩
  · exact ⟨rfl, rfl⟩

/-- The body of the inner loop, where the entry is present. -/
theorem copyEntry_present {q t : Nat} (hp : (m.table q t).present = true)
    (h0 : 0 < m.memory_map (m.table q t).index)
    (h255 : m.memory_map (m.table q t).index + 1 < 255) :
    copyEntry q t m = .ok ((demoted m q t).setMap (m.table q t).index
      (m.memory_map (m.table q t).index + 1)) := by
  unfold copyEntry
  rw [if_pos hp, checkCount, if_pos h0, bind_ok]
  show (checkCount (((demoted m q t).setMap (m.table q t).index
      ((demoted m q t).memory_map (m.table q t).index + 1)).memory_map (m.table q t).index < 255)
    >>= fun _ => .ok ((demoted m q t).setMap (m.table q t).index
      ((demoted m q t).memory_map (m.table q t).index + 1))) = _
  rw [(demoted_rest m q t).2, checkCount, if_pos, bind_ok]
  show Function.update (demoted m q t).memory_map _ _ _ < 255
  rw [Function.update_self]
  exact h255

theorem ends_copyEntry {m₀ : Memory} {d t : Nat} (hS : Sharing (m₀.slot x d).index t E m₀ m)
    (hd : Counts d) (ht : t < 1024) (hs : (m₀.slot x d).present = true)
    (hE : ∀ p, E p + tableRefs (m₀.table (m₀.slot x d).index) p ≤ 1) :
    Ends badCount (copyEntry (m₀.slot x d).index t m) (Sharing (m₀.slot x d).index (t + 1) E m₀) := by
  have hslot : m.slot x d = m₀.slot x d := congrFun (slot_of_dirs hS.dirs x) d
  have hs' : (m.slot x d).present = true := by
    rw [hslot]
    exact hs
  obtain ⟨hpres, hidx, _⟩ := hS.same t
  by_cases hp : (m.table (m₀.slot x d).index t).present = true
  · have hmaps : Maps m.toPaging x d t (m.table (m₀.slot x d).index t) :=
      ⟨hd, ht, hs', by rw [hslot], hp⟩
    have hpos := maps_refs hmaps
    have hexact := hS.counted.exact_of_pos (p := (m.table (m₀.slot x d).index t).index)
      (Nat.add_pos_left hpos _)
    have hle := refs_le hS.counted (m.table (m₀.slot x d).index t).index
    have hbound := hE (m.table (m₀.slot x d).index t).index
    have hpre := prefixRefs_le (m₀.table (m₀.slot x d).index) (Nat.le_of_lt ht)
      (m.table (m₀.slot x d).index t).index
    simp only [TASK_NR] at hle
    rw [copyEntry_present hp (by omega) (by omega)]
    -- the entry loses its right to write, then the page gains a reference
    have hc₁ : Counted (demoted m (m₀.slot x d).index t)
        fun p => E p + prefixRefs (m₀.table (m₀.slot x d).index) t p := by
      have := demoted_counted hS.counted hd ht hs'
      rw [hslot] at this
      exact this
    have hP₁ : Private m₀ → Private (demoted m (m₀.slot x d).index t) := by
      intro hP
      have := demoted_private (hS.cow hP) hS.counted hd ht hs'
      rw [hslot] at this
      exact this
    obtain ⟨hdirs, hmap⟩ := demoted_rest m (m₀.slot x d).index t
    have hslot₁ : (demoted m (m₀.slot x d).index t).slot x d = m₀.slot x d :=
      (congrFun (slot_of_dirs hdirs x) d).trans hslot
    have hnew : ReadOnly ((demoted m (m₀.slot x d).index t).table (m₀.slot x d).index t) := by
      intro _ hsh
      rw [demoted_table] at hsh ⊢
      by_cases hc : (m.table (m₀.slot x d).index t).shared = false
      · rw [if_pos ⟨rfl, rfl, hc⟩]
      · rw [if_neg fun hn => hc hn.2.2] at hsh
        exact absurd hsh hc
    have hsame₁ : ∀ k, SameRef (m.table (m₀.slot x d).index k)
        ((demoted m (m₀.slot x d).index t).table (m₀.slot x d).index k) := by
      intro k
      rw [demoted_table]
      by_cases hc : k = t ∧ (m.table (m₀.slot x d).index t).shared = false
      · rw [if_pos ⟨rfl, hc.1, hc.2⟩, hc.1]
        exact ⟨rfl, rfl, rfl⟩
      · rw [if_neg fun hn => hc hn.2]
        exact ⟨rfl, rfl, rfl⟩
    have hmaps₁ : Maps (demoted m (m₀.slot x d).index t).toPaging x d t
        ((demoted m (m₀.slot x d).index t).table (m₀.slot x d).index t) := by
      refine ⟨hd, ht, ?_, by rw [hslot₁], ?_⟩
      · rw [hslot₁]
        exact hs
      · rw [(hsame₁ t).1]
        exact hp
    have hpos₁ := maps_refs hmaps₁
    rw [(hsame₁ t).2.1] at hpos₁
    have hret := hc₁.retain hpos₁
    rw [hmap] at hret
    refine ⟨hret.congr fun p => ?_, hdirs.trans hS.dirs, fun r hr => ?_, fun k => ?_,
      fun k hk => ?_,
      fun hP => ?_⟩
    · rw [prefixRefs_succ, ← hit_congr hpres hidx, hit_present hp]
      omega
    · rw [← hS.other r hr]
      funext k
      exact (demoted_table m _ t r k).trans (if_neg fun hn => hr hn.1)
    · obtain ⟨h1, h2, h3⟩ := hS.same k
      obtain ⟨g1, g2, g3⟩ := hsame₁ k
      exact ⟨g1.trans h1, g2.trans h2, g3.trans h3⟩
    · rcases Nat.lt_succ_iff_lt_or_eq.mp hk with hlt | rfl
      · have hold := hS.done k hlt
        have hk' : (demoted m (m₀.slot x d).index t).table (m₀.slot x d).index k
            = m.table (m₀.slot x d).index k := by
          rw [demoted_table, if_neg fun hn => by omega]
        show ReadOnly ((demoted m (m₀.slot x d).index t).table (m₀.slot x d).index k)
        rw [hk']
        exact hold
      · exact hnew
    · refine (hP₁ hP).mono (fun _ _ _ _ hm => hm) fun y d' t' e hm hsh hw => ?_
      show Function.update (demoted m (m₀.slot x d).index t).memory_map _ _ e.index = _
      refine Function.update_of_ne ?_ _ _
      intro he
      -- an entry that may write is the only one of its page, and this one may not
      have h1 := (hP₁ hP).alone y d' t' e hm hsh hw
      rw [hc₁.exact_of_pos (Nat.add_pos_left (maps_refs hm) _)] at h1
      have hi : e.index
          = ((demoted m (m₀.slot x d).index t).table (m₀.slot x d).index t).index := by
        rw [(hsame₁ t).2.1]
        exact he
      obtain ⟨rfl, rfl, rfl⟩ := hc₁.maps_unique hmaps₁ hm hi (by rw [← hi]; omega)
      have hee : e = (demoted m (m₀.slot y d').index t').table (m₀.slot y d').index t' := by
        rw [← hm.2.2.2.1, hslot₁]
      rw [hee] at hsh hw
      rw [hnew hmaps₁.2.2.2.2 hsh] at hw
      cases hw
  · unfold copyEntry
    rw [if_neg hp]
    refine ⟨hS.counted.congr fun p => ?_, hS.dirs, hS.other, hS.same, fun k hk => ?_, hS.cow⟩
    · rw [prefixRefs_succ, ← hit_congr hpres hidx, hit_absent (Bool.eq_false_iff.mpr hp),
        Nat.add_zero]
    · rcases Nat.lt_succ_iff_lt_or_eq.mp hk with hlt | rfl
      · exact hS.done k hlt
      · intro hpk _
        exact absurd hpk hp

/-- The inner loop of `copy_pde`. -/
theorem ends_copyTable (h : Counted m E) {d : Nat} (hd : Counts d)
    (hs : (m.slot x d).present = true) (hE : ∀ p, E p + tableRefs (m.table (m.slot x d).index) p ≤ 1) :
    Ends badCount (forLoop (copyEntry (m.slot x d).index) 0 1024 m)
      (Sharing (m.slot x d).index 1024 E m) := by
  have hloop := Ends.forLoop badCount (copyEntry (m.slot x d).index) 0 1024 m
    (fun t m' => Sharing (m.slot x d).index t E m m') ?_ ?_
  · exact hloop
  · refine ⟨h.congr fun p => ?_, rfl, fun _ _ => rfl, fun _ => ⟨rfl, rfl, rfl⟩, fun k hk => ?_, id⟩
    · rw [prefixRefs, Finset.range_zero, Finset.sum_empty, Nat.add_zero]
    · omega
  · intro t m' _ ht hS
    exact ends_copyEntry hS hd (by omega) hs hE

theorem Sharing.tableRefs {q : Nat} (h : Sharing q 1024 E m m') (r : Nat) :
    tableRefs (m'.table r) = tableRefs (m.table r) := by
  funext p
  refine Finset.sum_congr rfl fun k _ => ?_
  by_cases hr : r = q
  · subst hr
    obtain ⟨h1, h2, _⟩ := h.same k
    rw [hit_congr h1 h2]
  · rw [h.other r hr]

/-! ## The directory of `copy_pde` -/

/-- After the slots below `d`: the references of the new directory so far are
    claimed, and no page is referred to twice by it and by what is left of the
    old one. -/
structure Copying (x : Space) (m₀ : Memory) (d : Nat) (pde : Nat → Entry) (m : Memory) : Prop where
  counted : Counted m (rangeRefs m.table pde FIRST_SLOT d)
  dirs : m.dirs = m₀.dirs
  rest : ∀ k, d ≤ k → pde k = m.slot x k
  present : ∀ k, (pde k).present = (m.slot x k).present
  budget : ∀ p, rangeRefs m.table pde FIRST_SLOT d p
    + rangeRefs m.table (m.slot x) d SELF_SLOT p ≤ 1
  apart : ∀ k, FIRST_SLOT ≤ k → k < d → (pde k).present = true → refs m.toPaging (pde k).index = 0
  tables : ∀ y k, Counts k → (m.slot y k).present = true →
    rangeRefs m.table pde FIRST_SLOT d (m.slot y k).index = 0
  copies : ∀ k, FIRST_SLOT ≤ k → k < d → (pde k).present = true →
    m.table (pde k).index = m.table (m.slot x k).index
  readOnly : ∀ k, FIRST_SLOT ≤ k → k < d → (pde k).present = true →
    ∀ t, t < 1024 → ReadOnly (m.table (m.slot x k).index t)
  cow : Private m₀ → Private m

/-- Nothing is copied yet. -/
theorem copying_start (h : Sound m) : Copying x m FIRST_SLOT (m.slot x) m := by
  refine ⟨h.congr fun p => rangeRefs_nil _ _ _ p, rfl, fun _ _ => rfl, fun _ => rfl, fun p => ?_,
    fun k h1 h2 => absurd h1 (by omega), fun _ _ _ _ => rangeRefs_nil _ _ _ _,
    fun k h1 h2 => absurd h1 (by omega), fun k h1 h2 => absurd h1 (by omega), id⟩
  rw [rangeRefs_nil, Nat.zero_add]
  exact h.once x p

/-- A slot without a table. -/
theorem Copying.skip {m₀ : Memory} {d : Nat} {pde : Nat → Entry} (h : Copying x m₀ d pde m)
    (hd : Counts d) (ha : (pde d).present = false) : Copying x m₀ (d + 1) pde m := by
  have hrange : rangeRefs m.table pde FIRST_SLOT (d + 1) = rangeRefs m.table pde FIRST_SLOT d := by
    funext p
    rw [rangeRefs_succ _ _ hd.1, slotRefs_absent ha, Nat.add_zero]
  have hlast : ∀ k, k < d + 1 → (pde k).present = true → k < d := by
    intro k hk hp
    rcases Nat.lt_succ_iff_lt_or_eq.mp hk with hlt | rfl
    · exact hlt
    · rw [ha] at hp
      cases hp
  refine ⟨h.counted.congr fun p => congrFun hrange p, h.dirs, fun k hk => h.rest k (by omega),
    h.present, fun p => ?_, fun k h1 h2 hp => h.apart k h1 (hlast k h2 hp) hp, fun y k hk hp => ?_,
    fun k h1 h2 hp => h.copies k h1 (hlast k h2 hp) hp,
    fun k h1 h2 hp => h.readOnly k h1 (hlast k h2 hp) hp, h.cow⟩
  · have hb := h.budget p
    rw [rangeRefs_pred _ _ hd.2] at hb
    rw [hrange]
    omega
  · rw [hrange]
    exact h.tables y k hk hp

/-- A slot whose table was copied to page `p`. -/
theorem Copying.copy {m₀ m₁ : Memory} {d p : Nat} {pde : Nat → Entry} (h : Copying x m₀ d pde m)
    (hd : Counts d) (hs : (m.slot x d).present = true)
    (hS : Sharing (m.slot x d).index 1024 (rangeRefs m.table pde FIRST_SLOT d) m m₁)
    (hp : m₁.memory_map p = 0) (htot : p < m₁.total_pages) (f : UInt32)
    (bytes : Nat → NeonixByteBits.Byte) :
    Copying x m₀ (d + 1) (Function.update pde d { pde d with index := p })
      ((taken m₁ p f).setPage p (m₁.table (m.slot x d).index) bytes) := by
  obtain ⟨_, hr₁, hE₁⟩ := hS.counted.unused hp
  have hslot : ∀ y, m₁.slot y = m.slot y := fun y => slot_of_dirs hS.dirs y
  have hrefs : refs m₁.toPaging = refs m.toPaging := refs_of_tables hS.dirs hS.tableRefs
  have hrange₁ : ∀ dir lo hi, rangeRefs m₁.table dir lo hi = rangeRefs m.table dir lo hi :=
    rangeRefs_of_tables hS.tableRefs
  have hq := h.counted.tables x d hd hs
  have hr : refs m.toPaging p = 0 := by
    rw [← hrefs]
    exact hr₁
  have hEp : rangeRefs m.table pde FIRST_SLOT d p = 0 := Nat.eq_zero_of_add_eq_zero_right hE₁
  -- neither the tables of a slot nor those made so far lie on the new page
  have hnew : ∀ y k, Counts k → (m.slot y k).present = true → (m.slot y k).index ≠ p := by
    intro y k hk hpk he
    have := h.counted.tables y k hk hpk
    rw [he, hr] at this
    omega
  have hold : ∀ k, FIRST_SLOT ≤ k → k < d → (pde k).present = true → (pde k).index ≠ p := by
    intro k h1 h2 hpk he
    have h3 := one_le_slotRefs hpk m.table
    have h4 := slotRefs_le_range m.table pde h1 h2 (pde k).index
    rw [he, hEp] at h4
    rw [he] at h3
    omega
  have hqp := hnew x d hd hs
  have hT : ∀ r, r ≠ p → ((taken m₁ p f).setPage p (m₁.table (m.slot x d).index) bytes).table r
      = m₁.table r := fun r hne => Function.update_of_ne hne _ _
  have hTp : ((taken m₁ p f).setPage p (m₁.table (m.slot x d).index) bytes).table p
      = m₁.table (m.slot x d).index := Function.update_self ..
  have hpde : (pde d).present = true := by
    rw [h.present d]
    exact hs
  have hother : ∀ k, k < d → Function.update pde d { pde d with index := p } k = pde k :=
    fun k hk => Function.update_of_ne (by omega) _ _
  -- the references of the new directory, one slot further
  have hbelow : ∀ r, rangeRefs ((taken m₁ p f).setPage p (m₁.table (m.slot x d).index) bytes).table
      (Function.update pde d { pde d with index := p }) FIRST_SLOT (d + 1) r
      = rangeRefs m.table pde FIRST_SLOT d r + (one p r + tableRefs (m.table (m.slot x d).index) r) := by
    intro r
    have hsame : rangeRefs ((taken m₁ p f).setPage p (m₁.table (m.slot x d).index) bytes).table
        (Function.update pde d { pde d with index := p }) FIRST_SLOT d r
        = rangeRefs m₁.table pde FIRST_SLOT d r :=
      congrFun (rangeRefs_congr (fun k _ h2 => hother k h2)
        fun k h1 h2 hpk => hT _ (hold k h1 h2 hpk)) r
    have hlast : slotRefs ((taken m₁ p f).setPage p (m₁.table (m.slot x d).index) bytes).table
        { pde d with index := p } r = one p r + tableRefs (m.table (m.slot x d).index) r := by
      rw [slotRefs_present (e := { pde d with index := p }) hpde,
        hit_present (e := { pde d with index := p }) hpde, ← hS.tableRefs]
      show one p r + tableRefs (((taken m₁ p f).setPage p _ bytes).table p) r = _
      rw [hTp]
    rw [rangeRefs_succ _ _ hd.1, Function.update_self, hsame, hlast, hrange₁]
  have habove : ∀ r, rangeRefs ((taken m₁ p f).setPage p (m₁.table (m.slot x d).index) bytes).table
      (m.slot x) (d + 1) SELF_SLOT r = rangeRefs m.table (m.slot x) (d + 1) SELF_SLOT r := by
    intro r
    rw [← hrange₁]
    refine congrFun (rangeRefs_congr (fun _ _ _ => rfl) fun k h1 h2 hpk => hT _ ?_) r
    exact hnew x k ⟨le_trans hd.1 (by omega), h2⟩ hpk
  have hrefs₂ : refs ((taken m₁ p f).setPage p (m₁.table (m.slot x d).index) bytes).toPaging
      = refs m.toPaging := by
    rw [← hrefs]
    exact refs_setTable_of_zero hr₁ _
  have hslot₂ : ∀ y, ((taken m₁ p f).setPage p (m₁.table (m.slot x d).index) bytes).slot y =
      m.slot y :=
    hslot
  refine ⟨?_, hS.dirs.trans h.dirs, fun k hk => ?_, fun k => ?_, fun r => ?_, fun k h1 h2 hpk => ?_,
    fun y k hk hpk => ?_, fun k h1 h2 hpk => ?_, fun k h1 h2 hpk t ht => ?_, fun hP => ?_⟩
  · refine (((hS.counted.take hp htot f).setPage hr₁ _ bytes)).congr fun r => ?_
    rw [hbelow]
    show _ = rangeRefs m.table pde FIRST_SLOT d r + tableRefs (m.table (m.slot x d).index) r + one p r
    omega
  · rw [Function.update_of_ne (by omega), hslot₂]
    exact h.rest k (by omega)
  · rw [hslot₂]
    by_cases hk : k = d
    · subst hk
      rw [Function.update_self]
      exact h.present k
    · rw [Function.update_of_ne hk]
      exact h.present k
  · have hb := h.budget r
    rw [rangeRefs_pred _ _ hd.2, slotRefs_present hs] at hb
    rw [hbelow, hslot₂, habove]
    by_cases hrp : p = r
    · subst hrp
      have h1 : rangeRefs m.table (m.slot x) d SELF_SLOT p ≤ spaceRefs m.toPaging x p :=
        rangeRefs_le m.table (m.slot x) hd.1 p
      have h2 := space_le_refs (P := m.toPaging) x p
      rw [rangeRefs_pred _ _ hd.2, slotRefs_present hs] at h1
      rw [one_self]
      omega
    · rw [one_other hrp]
      omega
  · rw [hrefs₂]
    rcases Nat.lt_succ_iff_lt_or_eq.mp h2 with hlt | rfl
    · rw [hother k hlt] at hpk ⊢
      exact h.apart k h1 hlt hpk
    · rw [Function.update_self]
      exact hr
  · rw [hslot₂] at hpk ⊢
    rw [hbelow, h.tables y k hk hpk, one_other (Ne.symm (hnew y k hk hpk)), Nat.zero_add,
      Nat.zero_add]
    by_contra hne
    obtain ⟨t, ht, hte⟩ := exists_term (Nat.pos_of_ne_zero hne)
    obtain ⟨hpe, hie⟩ := of_hit hte
    exact h.counted.not_table ⟨hd, Finset.mem_range.mp ht, hs, rfl, hpe⟩ hk hpk hie.symm
  · rw [hslot₂]
    rcases Nat.lt_succ_iff_lt_or_eq.mp h2 with hlt | rfl
    · rw [hother k hlt] at hpk ⊢
      have hpk' : (m.slot x k).present = true := by
        rw [← h.present k]
        exact hpk
      have hk : Counts k := ⟨h1, lt_trans hlt hd.2⟩
      have hne₁ : (pde k).index ≠ (m.slot x d).index := by
        intro he
        have h3 := h.apart k h1 hlt hpk
        rw [he, hq] at h3
        omega
      have hne₂ : (m.slot x k).index ≠ (m.slot x d).index := by
        intro he
        have := (h.counted.slot_unique hd hk hs hpk' he).2
        omega
      rw [hT _ (hold k h1 hlt hpk), hT _ (hnew x k hk hpk'), hS.other _ hne₁, hS.other _ hne₂]
      exact h.copies k h1 hlt hpk
    · rw [Function.update_self]
      show ((taken m₁ p f).setPage p (m₁.table (m.slot x k).index) bytes).table p = _
      rw [hTp, hT _ hqp]
  · rw [hslot₂]
    rcases Nat.lt_succ_iff_lt_or_eq.mp h2 with hlt | rfl
    · rw [hother k hlt] at hpk
      have hpk' : (m.slot x k).present = true := by
        rw [← h.present k]
        exact hpk
      have hk : Counts k := ⟨h1, lt_trans hlt hd.2⟩
      have hne₂ : (m.slot x k).index ≠ (m.slot x d).index := by
        intro he
        have := (h.counted.slot_unique hd hk hs hpk' he).2
        omega
      rw [hT _ (hnew x k hk hpk'), hS.other _ hne₂]
      exact h.readOnly k h1 hlt hpk t ht
    · rw [hT _ hqp]
      exact hS.done t ht
  · refine ((hS.cow (h.cow hP)).taken hS.counted hp f).mono (fun y d' t e hm => ?_)
      fun _ _ _ _ _ _ _ => rfl
    exact maps_setPage (m := taken m₁ p f) hr₁ hm

theorem ends_copySlot {m₀ : Memory} {d : Nat} {pde : Nat → Entry} (h : Copying x m₀ d pde m)
    (hd : Counts d) : Ends badCount (copySlot x d (pde, m)) fun r =>
      Copying x m₀ (d + 1) r.1 r.2 := by
  refine Ends.ite (fun hp => ?_) fun hp => h.skip hd (Bool.eq_false_iff.mpr hp)
  have hs : (m.slot x d).present = true := by
    rw [← h.present d]
    exact hp
  refine (ends_copyTable h.counted hd hs fun p => ?_).bind fun m₁ hS => ?_
  · have hb := h.budget p
    rw [rangeRefs_pred _ _ hd.2, slotRefs_present hs] at hb
    omega
  · refine (ends_copyPage m₁ _).bind ?_
    rintro ⟨p, m₂⟩ ⟨hp0, ht, f, hm₂⟩
    simp only at hp0 ht hm₂
    subst hm₂
    exact h.copy hd hs hS hp0 ht f _

/-- `copy_pde`. -/
theorem ends_copyPde (h : Sound m) (x : Space) : Ends badCount (copyPde m x) fun r =>
    Copying x m SELF_SLOT r.1 r.2 := by
  have hloop := Ends.forLoop badCount (copySlot x) FIRST_SLOT (SELF_SLOT - FIRST_SLOT) (m.slot x, m)
    (fun d r => Copying x m d r.1 r.2) ?_ ?_
  · exact hloop
  · exact copying_start h
  · rintro d ⟨pde, m'⟩ h1 h2 hC
    exact ends_copySlot hC ⟨h1, h2⟩

/-- The task gets the directory. -/
theorem Copying.place {m₀ : Memory} {pde : Nat → Entry} (h : Copying x m₀ SELF_SLOT pde m)
    {y : Space}
    (hy : m.dirs y = none) :
    Sound (m.setDir y (some pde)) ∧ (Private m₀ → Private (m.setDir y (some pde))) := by
  have hclear : ∀ d, m.slot y d = .clear := by
    intro d
    simp only [Paging.slot, hy]
  have hcounted : Counted m fun p => 0 + dirRefs m.table pde p :=
    h.counted.congr fun p => Nat.zero_add _
  refine ⟨hcounted.addDir (spaceRefs_of_clear hclear) (fun p => ?_) (fun d hd hp => ?_)
    fun z d hd hp => ?_, fun hP => ?_⟩
  · have hb := h.budget p
    rw [rangeRefs_nil, Nat.add_zero] at hb
    exact hb
  · exact h.apart d hd.1 hd.2 hp
  · exact h.tables z d hd hp
  -- each mapping of the new directory has a twin in the old one, neither may write
  have htwin : ∀ z d t e, Maps (m.setDir y (some pde)).toPaging z d t e →
      (z ≠ y ∧ Maps m.toPaging z d t e) ∨ (Maps m.toPaging x d t e ∧ ReadOnly e) := by
    rintro z d t e ⟨hd, ht, hs, he, hp⟩
    by_cases hz : z = y
    · subst hz
      have hslot : (m.setDir z (some pde)).slot z d = pde d := congrFun (slot_setDir_self z pde) d
      rw [hslot] at hs he
      have hs' : (m.slot x d).present = true := by
        rw [← h.present d]
        exact hs
      have he' : m.table (m.slot x d).index t = e := by
        rw [← h.copies d hd.1 hd.2 hs]
        exact he
      refine Or.inr ⟨⟨hd, ht, hs', he', hp⟩, ?_⟩
      rw [← he']
      exact h.readOnly d hd.1 hd.2 hs t ht
    · have hslot : (m.setDir y (some pde)).slot z d = m.slot z d :=
        congrFun (slot_setDir_other hz _) d
      rw [hslot] at hs he
      exact Or.inl ⟨hz, hd, ht, hs, he, hp⟩
  have hP' := h.cow hP
  refine ⟨fun z d t e hm hsh hw => ?_, fun z d t e z' d' t' e' hm hm' hi => ?_⟩
  · rcases htwin z d t e hm with ⟨_, hold⟩ | ⟨hold, hro⟩
    · exact hP'.alone z d t e hold hsh hw
    · rw [hro hm.2.2.2.2 hsh] at hw
      cases hw
  · rcases htwin z d t e hm with ⟨_, h1⟩ | ⟨h1, _⟩
    · rcases htwin z' d' t' e' hm' with ⟨_, h2⟩ | ⟨h2, _⟩
      · exact hP'.agree _ _ _ _ _ _ _ _ h1 h2 hi
      · exact hP'.agree _ _ _ _ _ _ _ _ h1 h2 hi
    · rcases htwin z' d' t' e' hm' with ⟨_, h2⟩ | ⟨h2, _⟩
      · exact hP'.agree _ _ _ _ _ _ _ _ h1 h2 hi
      · exact hP'.agree _ _ _ _ _ _ _ _ h1 h2 hi

/-! ## `free_pde` -/

/-- While `free_pde` runs: the directory is gone already, and the references in
    `E` are still to be dropped. -/
structure Freeing (x : Space) (m₀ : Memory) (E : Nat → Nat) (m : Memory) : Prop where
  counted : Counted (m.setDir x none) E
  paging : m.toPaging = m₀.toPaging
  data : m.data = m₀.data
  cow : Private m₀ → Private (m.setDir x none)

/-- A reference to drop is counted. -/
theorem Freeing.pos {m₀ : Memory} {p : Nat} (h : Freeing x m₀ (fun q => E q + one p q) m) :
    0 < m.memory_map p := by
  have hx : m.memory_map p = refs (m.setDir x none).toPaging p + (E p + one p p) :=
    h.counted.exact_of_pos (by rw [one_self]; omega)
  rw [hx, one_self]
  omega

/-- One reference is dropped. -/
theorem Freeing.put {m₀ : Memory} {p : Nat} (h : Freeing x m₀ (fun q => E q + one p q) m) :
    Ends badCount (putPage m p) (Freeing x m₀ E) := by
  refine (ends_putPage h.pos).mono ?_
  rintro _ ⟨f, rfl⟩
  exact ⟨h.counted.drop f, h.paging, h.data, fun hP => (h.cow hP).dropped h.counted f⟩

theorem Freeing.congr {m₀ : Memory} {F : Nat → Nat} (h : Freeing x m₀ E m) (hF : ∀ p, F p = E p) :
    Freeing x m₀ F m := ⟨h.counted.congr hF, h.paging, h.data, h.cow⟩

/-- The references of the entries of a table from `t` on. -/
def suffixRefs (entries : Nat → Entry) (t p : Nat) : Nat :=
  ∑ k ∈ Finset.Ico t 1024, hit (entries k) p

theorem suffixRefs_pred (entries : Nat → Entry) {t : Nat} (ht : t < 1024) (p : Nat) :
    suffixRefs entries t p = hit (entries t) p + suffixRefs entries (t + 1) p :=
  Finset.sum_eq_sum_Ico_succ_bot ht _

theorem suffixRefs_zero (entries : Nat → Entry) (p : Nat) :
    suffixRefs entries 0 p = tableRefs entries p := by
  rw [suffixRefs, tableRefs, Finset.range_eq_Ico]

theorem suffixRefs_end (entries : Nat → Entry) (p : Nat) : suffixRefs entries 1024 p = 0 := by
  rw [suffixRefs, Finset.Ico_self, Finset.sum_empty]

section Puts

/-! The loops of `free_pde` do what each `put_page` does: `K` is what one keeps,
    and `bad` the reasons for which one does not stop. -/

variable {bad : Stop → Prop} {K : Memory → Prop}

/-- What `put_page` of a page with a reference to drop does. -/
def Puts (bad : Stop → Prop) (K : Memory → Prop) (x : Space) (m₀ : Memory) : Prop :=
  ∀ (E : Nat → Nat) (p : Nat) (m : Memory), Freeing x m₀ (fun q => E q + one p q) m → K m →
    Ends bad (putPage m p) fun m' => Freeing x m₀ E m' ∧ K m'

/-- The inner loop of `free_pde`. -/
theorem ends_freeTable {m₀ : Memory} {q : Nat} (hput : Puts bad K x m₀)
    (h : Freeing x m₀ (fun p => E p + tableRefs (m₀.table q) p) m) (hk : K m) :
    Ends bad (forLoop (freeEntry q) 0 1024 m) fun m' => Freeing x m₀ E m' ∧ K m' := by
  have hloop := Ends.forLoop bad (freeEntry q) 0 1024 m
    (fun t m' => Freeing x m₀ (fun p => E p + suffixRefs (m₀.table q) t p) m' ∧ K m') ⟨?_, hk⟩ ?_
  · refine hloop.mono fun m' hF => ⟨hF.1.congr fun p => ?_, hF.2⟩
    rw [suffixRefs_end, Nat.add_zero]
  · refine h.congr fun p => ?_
    rw [suffixRefs_zero]
  · rintro t m' _ ht ⟨hF, hk'⟩
    have htab : m'.table q t = m₀.table q t := by
      rw [hF.paging]
    have hcong : Freeing x m₀
        (fun p => E p + suffixRefs (m₀.table q) (t + 1) p + hit (m₀.table q t) p) m' := by
      refine hF.congr fun p => ?_
      rw [suffixRefs_pred (m₀.table q) (t := t) (by omega)]
      omega
    refine Ends.ite (fun hp => ?_) fun hp => ⟨?_, hk'⟩
    · rw [htab] at hp ⊢
      have hdrop := hcong.congr fun p => by rw [hit_present hp]
      exact (ends_checkCount hdrop.pos).bind fun _ _ => hput _ _ _ hdrop hk'
    · refine hcong.congr fun p => ?_
      rw [← htab, hit_absent (Bool.eq_false_iff.mpr hp)]
      rfl

theorem ends_freeSlot {m₀ : Memory} {d : Nat} (hput : Puts bad K x m₀) (hd : Counts d)
    (h : Freeing x m₀ (rangeRefs m₀.table (m₀.slot x) d SELF_SLOT) m) (hk : K m) :
    Ends bad (freeSlot x d m)
      fun m' => Freeing x m₀ (rangeRefs m₀.table (m₀.slot x) (d + 1) SELF_SLOT) m' ∧ K m' := by
  have hslot : m.slot x d = m₀.slot x d := by
    rw [h.paging]
  refine Ends.ite (fun hp => ?_) fun hp => ⟨?_, hk⟩
  · rw [hslot] at hp ⊢
    refine (ends_freeTable (E := fun p => rangeRefs m₀.table (m₀.slot x) (d + 1) SELF_SLOT p
      + one (m₀.slot x d).index p) hput (h.congr fun p => ?_) hk).bind fun m' hF =>
        hput _ _ _ hF.1 hF.2
    rw [rangeRefs_pred _ _ hd.2, slotRefs_present hp, hit_present hp]
    omega
  · refine h.congr fun p => ?_
    rw [rangeRefs_pred _ _ hd.2, ← hslot, slotRefs_absent (Bool.eq_false_iff.mpr hp), Nat.zero_add]

/-- `free_pde` starts with the directory gone and all its references to drop. -/
theorem freeing_start (h : Sound m) (x : Space) :
    Freeing x m (rangeRefs m.table (m.slot x) FIRST_SLOT SELF_SLOT) m := by
  refine ⟨(h.removeDir x).congr fun p => (Nat.zero_add _).symm, rfl, rfl, fun hP => ?_⟩
  refine hP.mono (fun y d t e hm => ?_) fun _ _ _ _ _ _ _ => rfl
  obtain ⟨hd, ht, hs, he, hp⟩ := hm
  by_cases hy : y = x
  · subst hy
    have hslot : (m.setDir y none).slot y d = .clear := slot_setDir_none y d
    rw [hslot] at hs
    cases hs
  · have hslot : (m.setDir x none).slot y d = m.slot y d := congrFun (slot_setDir_other hy _) d
    rw [hslot] at hs he
    exact ⟨hd, ht, hs, he, hp⟩

/-- `free_pde`. -/
theorem ends_freePde_of (hput : Puts bad K x m) (h : Sound m) (hk : K m) {uid : Nat}
    (huid : bad .assertion → uid ≠ KERNEL_USER) (hx : bad .assertion → x ≠ none) :
    Ends bad (freePde m uid x) fun m' => x ≠ none ∧ Sound m' ∧
      m'.dirs = Function.update m.dirs x none ∧ (∀ y, y ≠ x → Unseen y m m') ∧
      (Private m → Private m') := by
  have hcheck : ∀ {p : Prop} [Decidable p], (bad .assertion → p) →
      Ends bad (check p) fun _ => p := by
    intro p _ hp
    by_cases hb : bad .assertion
    · rw [check_pos (hp hb)]
      exact hp hb
    · exact ends_check hb fun hp => hp
  refine (hcheck huid).bind fun _ _ => ?_
  have hloop := Ends.forLoop bad (freeSlot x) FIRST_SLOT (SELF_SLOT - FIRST_SLOT) m
    (fun d m' => Freeing x m (rangeRefs m.table (m.slot x) d SELF_SLOT) m' ∧ K m')
    ⟨freeing_start h x, hk⟩ fun d m' h1 h2 hF => ends_freeSlot hput ⟨h1, h2⟩ hF.1 hF.2
  refine hloop.bind fun m' ⟨hF, _⟩ => (hcheck hx).bind fun _ hx => ?_
  refine ⟨hx, hF.counted.congr fun p => (rangeRefs_nil _ _ _ p).symm, ?_, fun y hy => ?_, hF.cow⟩
  · show Function.update m'.dirs x none = _
    rw [hF.paging]
  · exact (Unseen.of_eq hF.paging hF.data).trans (unseen_setDir hy none)

end Puts

/-- No `free_pde` stops at a count. -/
theorem ends_freePde (h : Sound m) (uid : Nat) (x : Space) : Ends badCount (freePde m uid x)
    fun m' => x ≠ none ∧ Sound m' ∧ m'.dirs = Function.update m.dirs x none ∧
      (∀ y, y ≠ x → Unseen y m m') ∧ (Private m → Private m') := by
  have hput : Puts badCount (fun _ => True) x m :=
    fun E p m' hF _ => hF.put.mono fun _ hF' => ⟨hF', trivial⟩
  exact ends_freePde_of hput h trivial (fun hb => absurd hb not_bad_assertion)
    fun hb => absurd hb not_bad_assertion

end NeonixDirectoryCalls
