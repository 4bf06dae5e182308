import Neonix.HeapCalls

/-! # `kfree`

    A block goes back to its list; an arena whose blocks are all on it may go back to
    `free_kpage`, and the pages of a large allocation do so at once. -/

namespace NeonixHeapFrees

open NeonixMachine NeonixOutcome NeonixMemoryLists NeonixArenas NeonixHeapShape NeonixHeapChanges
open NeonixHeapCalls
open NeonixMemory (MEMORY_BASE KERNEL_MEMORY_SIZE PAGE_SIZE IDX pageCount)
open NeonixKernelPages (Separate)

variable {s : Heap} {K : Books} {L : List (Nat × Nat)} {D i k n p : Nat} {r : Nat × Nat}

theorem freeKpage_held (hon : OnPages s.held p n) (hn : 0 < n) : freeKpage s p n =
    .ok { s with held := fun j => !decide (IDX p ≤ j ∧ j < IDX p + n) && s.held j } :=
  next_call (check_pos hon.aligned) (next_call (check_pos hn) (next_call (check_pos hon.held) rfl))

theorem given_keep (j : Nat) (hheld : s.held j = true) (hj : ¬ (IDX p ≤ j ∧ j < IDX p + n)) :
    (!decide (IDX p ≤ j ∧ j < IDX p + n) && s.held j) = true := by
  rw [decide_eq_false hj, hheld]
  rfl

/-! ## An arena -/

/-- The list after so many blocks of an arena were taken off it. -/
def without (X : List Nat) (p i k : Nat) : List Nat :=
  X.filter fun b => decide (∀ j < k, b ≠ block p i j)

theorem mem_without {X : List Nat} {b : Nat} :
    b ∈ without X p i k ↔ b ∈ X ∧ ∀ j < k, b ≠ block p i j := by
  rw [without, List.mem_filter, decide_eq_true_eq]

theorem without_succ {X : List Nat} (hX : X.Nodup) :
    (without X p i k).erase (block p i k) = without X p i (k + 1) := by
  rw [without, (hX.filter _).erase_eq_filter, List.filter_filter, without]
  refine List.filter_congr fun b _ => ?_
  rw [Bool.eq_iff_iff, Bool.and_eq_true, bne_iff_ne, decide_eq_true_eq, decide_eq_true_eq]
  constructor
  · rintro ⟨hne, hall⟩ j hj
    rcases Nat.lt_succ_iff_lt_or_eq.mp hj with hj | rfl
    · exact hall j hj
    · exact hne
  · exact fun hall => ⟨hall k (Nat.lt_succ_self k), fun j hj => hall j (Nat.lt_succ_of_lt hj)⟩

/-- The blocks of an arena are off the list, and all others are on it. -/
theorem countIn_without {X : List Nat} (hp : p % PAGE_SIZE = 0) {q : Nat} (hq : q ≠ p) :
    countIn (without X p i (blocks i)) q = countIn X q := by
  rw [countIn, countIn, without, List.filter_filter]
  refine congrArg List.length (List.filter_congr fun b _ => ?_)
  rw [Bool.eq_iff_iff, Bool.and_eq_true, decide_eq_true_eq, decide_eq_true_eq]
  refine ⟨fun h => h.1, fun h => ⟨h, fun j hj heq => hq ?_⟩⟩
  rw [← h, heq, getBlockArena_block hp hj]

section Removed

variable (hD : Placed D) (h : Geometry D K.free s) (hm : Holds D K s) (hi : i < DESC_COUNT)
  (hp : (p, descriptor D i) ∈ s.arenas)
include h hi hp

/-- An arena that counts all of its blocks has them on the list. -/
theorem all_free (hfull : countIn (K.free i) p = blocks i) {k : Nat} (hk : k < blocks i) :
    block p i k ∈ K.free i := by
  have hpage := (h.arena _ hp).1.aligned
  have hnodup := (h.nodup i hi).filter fun b => decide (getBlockArena b = p)
  have hsub : (K.free i).filter (fun b => decide (getBlockArena b = p)) ⊆
      (List.range (blocks i)).map (block p i) := by
    intro b hb
    obtain ⟨hb, harena⟩ := List.mem_filter.mp hb
    obtain ⟨q, hq, j, hj, rfl⟩ := h.free i hi b hb
    have hqp : q = p := by
      rw [← of_decide_eq_true harena, getBlockArena_block (h.arena _ hq).1.aligned hj]
    rw [hqp]
    exact List.mem_map.mpr ⟨j, List.mem_range.mpr hj, rfl⟩
  have hperm := (hnodup.subperm hsub).perm_of_length_le (by
    rw [List.length_map, List.length_range]
    exact Nat.le_of_eq hfull.symm)
  have hin := hperm.mem_iff.mpr (List.mem_map.mpr ⟨k, List.mem_range.mpr hk, rfl⟩)
  exact (List.mem_filter.mp hin).1

/-- No block of the arena is left on the list. -/
theorem without_arena {b : Nat} (hb : b ∈ without (K.free i) p i (blocks i)) :
    getBlockArena b ≠ p := by
  obtain ⟨hb, hne⟩ := mem_without.mp hb
  obtain ⟨q, hq, j, hj, rfl⟩ := h.free i hi b hb
  rw [getBlockArena_block (h.arena _ hq).1.aligned hj]
  rintro rfl
  exact hne j hj rfl

include hD hm

theorem removeBlocks_ok (hall : ∀ k < blocks i, block p i k ∈ K.free i) :
    ∃ m', forLoop (removeBlock p) 0 (blocks i) s.mem = .ok m' ∧
      Geometry D (Function.update K.free i (without (K.free i) p i (blocks i))) s ∧
      Holds D { K with free := Function.update K.free i (without (K.free i) p i (blocks i)) }
        { s with mem := m' } := by
  refine loop_returns (I := fun k m =>
    Geometry D (Function.update K.free i (without (K.free i) p i k)) s ∧
    Holds D { K with free := Function.update K.free i (without (K.free i) p i k) } { s with mem := m })
    (blocks i) ?_ ?_
  · have hstart : without (K.free i) p i 0 = K.free i :=
      List.filter_eq_self.mpr fun b _ => decide_eq_true fun j hj => absurd hj (Nat.not_lt_zero j)
    rw [hstart, Function.update_eq_self]
    exact ⟨h, hm⟩
  · rintro k m hk ⟨hk1, hk2⟩
    have hin : block p i k ∈ (Function.update K.free i (without (K.free i) p i k)) i := by
      rw [Function.update_self, mem_without]
      exact ⟨hall k hk, fun j hj heq => absurd (block_inj heq) (by omega)⟩
    obtain ⟨m', hremove, hg, hw⟩ := removeBlock_ok hD (geometry_words hk1 m) hk2 hi hp hk hin
    simp only [Function.update_self, Function.update_idem, without_succ (h.nodup i hi)] at hg hw
    exact ⟨m', hremove, geometry_words hg s.mem, hw⟩

end Removed

/-- The page counts without an arena. -/
theorem pages_drop (h : Geometry D K.free s) {d : Nat} (hp : (p, d) ∈ s.arenas) (e : Nat) :
    (s.arenas.filter fun r => r.2 = e).length =
      ((s.arenas.filter fun r => r.1 ≠ p).filter fun r => r.2 = e).length + if d = e then 1 else 0 := by
  have hnodup : s.arenas.Nodup := List.Nodup.of_map _ h.once
  have herase : s.arenas.erase (p, d) = s.arenas.filter fun r => r.1 ≠ p := by
    rw [hnodup.erase_eq_filter]
    refine List.filter_congr fun r hr => ?_
    rw [Bool.eq_iff_iff, bne_iff_ne, decide_eq_true_eq]
    refine ⟨fun hne heq => hne ?_, fun hne heq => hne (congrArg Prod.fst heq)⟩
    subst heq
    exact Prod.ext rfl (h.same_arena hr hp)
  rw [((List.perm_cons_erase hp).filter _).length_eq, herase]
  by_cases hde : d = e
  · rw [if_pos hde, List.filter_cons_of_pos (by simpa using hde), List.length_cons]
  · rw [if_neg hde, List.filter_cons_of_neg (by simpa using hde)]
    rfl

/-- An arena is given back; the allocations `L` are read by no code. -/
theorem freeArena_ok (hD : Placed D) (hinv : Inv D K { s with live := L }) (hi : i < DESC_COUNT)
    (hp : (p, descriptor D i) ∈ s.arenas) (hfull : K.count p = blocks i) (hmany : 4 < K.pages i) :
    ∃ s' K', freeArena s p = .ok s' ∧ s'.live = s.live ∧ Inv D K' { s' with live := L } := by
  obtain ⟨h, hm, ht⟩ := hinv
  have hpage := (h.arena _ hp).1
  have hcount : countIn (K.free i) p = blocks i := (ht.count i hi p hp).symm.trans hfull
  have hall := fun k hk => all_free (k := k) h hi hp hcount hk
  obtain ⟨m', hloop, hg, hw⟩ := removeBlocks_ok hD h hm hi hp hall
  have hheader : Header m' p (descriptor D i) 0 (K.count p) := hw.arena _ hp
  have hpages : pageCountOf m' (descriptor D i) = K.pages i := (hw.sizes i hi).pages
  have hpaged := holds_repage hD (geometry_words hg m') hw hi (K.pages i - 1)
  obtain ⟨X, hX⟩ : ∃ X, X = without (K.free i) p i (blocks i) := ⟨_, rfl⟩
  rw [← hX] at hg hpaged
  obtain ⟨g, hgive⟩ : ∃ g : Nat → Bool,
      g = fun j => !decide (IDX p ≤ j ∧ j < IDX p + 1) && s.held j := ⟨_, rfl⟩
  have hkeep : ∀ j, s.held j = true → ¬ (IDX p ≤ j ∧ j < IDX p + 1) → g j = true := by
    rw [hgive]
    exact given_keep
  -- no block of the page is free or in use
  have hnone : ∀ j < DESC_COUNT, ∀ b ∈ Function.update K.free i X j, getBlockArena b ≠ p := by
    intro j hj b hb
    by_cases hij : j = i
    · subst hij
      rw [Function.update_self, hX] at hb
      exact without_arena h hi hp hb
    · rw [Function.update_of_ne hij] at hb
      obtain ⟨q, hq, hblock⟩ := h.free j hj b hb
      rw [hblock.arena (h.arena _ hq).1.aligned]
      rintro rfl
      exact hij (descriptor_inj (h.same_arena hq hp))
  have hunused : ∀ r ∈ L, r.2 ≤ 1024 → getBlockArena r.1 ≠ p := by
    rintro r hr hsmall rfl
    rcases h.live r hr with ⟨-, j, hj, q, hq, hblock, -, hno⟩ | ⟨hlarge, -⟩
    · have hqp := hblock.arena (h.arena _ hq).1.aligned
      rw [hqp] at hp hall
      obtain rfl : j = i := descriptor_inj (h.same_arena hq hp)
      obtain ⟨k, hk, heq⟩ := hblock
      exact hno (heq ▸ hall k hk)
    · omega
  have hdropped := geometry_dropArena hg hnone hunused
  have hgiven := geometry_give (n := 1) hdropped hpage.aligned hkeep
    (fun q hq => by
      obtain ⟨hq, hne⟩ := List.mem_filter.mp hq
      rw [Nat.one_mul]
      exact h.pages_separate hp hq (of_decide_eq_true hne).symm)
    (fun r hr hlarge => by
      rw [Nat.one_mul]
      exact (h.apart r hr hlarge _ hp).symm)
  have hfree := freeKpage_held (s := { s with mem := m' }) hpage Nat.zero_lt_one
  refine ⟨⟨m'.store (descriptor D i + 8) (K.pages i - 1), g, s.arenas.filter fun r => r.1 ≠ p,
    s.live⟩, ⟨Function.update K.free i X, K.count, Function.update K.pages i (K.pages i - 1)⟩,
    ?_, rfl, geometry_words hgiven _, ?_, ?_, ?_⟩
  · have hdesc : descOf s.mem p = descriptor D i := (hm.arena _ hp).desc
    have htotal : totalBlock s.mem (descriptor D i) = blocks i := (hm.sizes i hi).total
    rw [freeArena, hdesc, htotal]
    refine next_call hloop (next_call hfree ?_)
    simp only [hheader.desc, hpages]
    refine next_call (check_pos ?_) ?_
    · rw [pageCountOf, store_apply, if_pos rfl]
      show 4 ≤ K.pages i - 1
      omega
    · rw [hgive]
      rfl
  · exact holds_fewer hpaged rfl List.filter_sublist.subset (List.Subset.refl _)
  · intro j hj q hq
    obtain ⟨hq, hne⟩ := List.mem_filter.mp hq
    show K.count q = countIn (Function.update K.free i X j) q
    rw [ht.count j hj q hq]
    by_cases hij : j = i
    · subst hij
      rw [Function.update_self, hX, countIn_without hpage.aligned (of_decide_eq_true hne)]
    · rw [Function.update_of_ne hij]
  · intro j hj
    show Function.update K.pages i (K.pages i - 1) j = _
    have hsplit := pages_drop h hp (descriptor D j)
    by_cases hij : j = i
    · subst hij
      rw [if_pos rfl, ← ht.pages j hj] at hsplit
      rw [Function.update_self, hsplit]
      rfl
    · rw [if_neg fun hd => hij (descriptor_inj hd).symm, ← ht.pages j hj] at hsplit
      rw [Function.update_of_ne hij, hsplit]
      rfl

/-! ## `kfree` -/

section Kfree

/-- The allocations without one. -/
def others (s : Heap) (ptr : Nat) : List (Nat × Nat) := s.live.filter fun r => r.1 ≠ ptr

theorem others_sublist {r : Nat} : (others s r).Sublist s.live := List.filter_sublist

variable (hD : Placed D) (hinv : Inv D K s) (hr : r ∈ s.live)
include hinv

include hD in
/-- A block is put back. -/
theorem giveBlock_ok (hi : i < DESC_COUNT) (hp : (p, descriptor D i) ∈ s.arenas)
    (hblock : IsBlock p i r.1) (hno : r.1 ∉ K.free i) :
    ∃ m', listPush TURNS s.mem (freeList (descriptor D i)) r.1 = some m' ∧
      descOf m' p = descriptor D i ∧ countOf m' p = K.count p ∧
      Inv D ⟨Function.update K.free i (r.1 :: K.free i), Function.update K.count p (K.count p + 1),
          K.pages⟩
        { s with mem := m'.store (p + 4) (K.count p + 1), live := others s r.1 } := by
  obtain ⟨h, hm, ht⟩ := hinv
  obtain ⟨m', hpush, hm'⟩ := push_free hD h hm hi hp hblock hno
  have hheader : Header m' p (descriptor D i) 0 (K.count p) := hm'.arena _ hp
  have hothers : ∀ q ∈ others s r.1, q.1 ≠ r.1 := fun q hq =>
      of_decide_eq_true (List.mem_filter.mp hq).2
  have hg := geometry_push (geometry_fewer h others_sublist) hi hp hblock hno hothers
  have hfewer : Holds D { K with free := Function.update K.free i (r.1 :: K.free i) }
      { s with mem := m', live := others s r.1 } :=
    holds_fewer hm' rfl (List.Subset.refl _) others_sublist.subset
  refine ⟨m', hpush, hheader.desc, hheader.count, geometry_words hg _,
    holds_recount hD (geometry_words hg m') hfewer hp (K.count p + 1), ?_, ht.pages⟩
  have harena := hblock.arena (h.arena _ hp).1.aligned
  intro j hj q hq
  show Function.update K.count p (K.count p + 1) q =
    countIn (Function.update K.free i (r.1 :: K.free i) j) q
  by_cases hqp : q = p
  · subst hqp
    rw [descriptor_inj (h.same_arena hq hp), Function.update_self, Function.update_self,
      countIn_cons,
      if_pos harena, ht.count i hi q hp]
  · rw [Function.update_of_ne hqp, ht.count j hj q hq]
    by_cases hij : j = i
    · subst hij
      rw [Function.update_self, countIn_cons, if_neg fun heq => hqp (heq.symm.trans harena)]
    · rw [Function.update_of_ne hij]

include hr

/-- The pages of an allocation go back. -/
theorem giveLarge_ok (hlarge : 1024 < r.2) (hp : r.1 = p + ARENA_SIZE) :
    ∃ s', freeKpage s p (pagesOf r.2) = .ok s' ∧ s'.live = s.live ∧
      Inv D K { s' with live := others s r.1 } := by
  obtain ⟨h, hm, ht⟩ := hinv
  obtain ⟨a, ha, hon, hapart⟩ := h.large hr hlarge
  obtain rfl : a = p := Nat.add_right_cancel (ha.symm.trans hp)
  have hg := geometry_fewer h (others_sublist (r := r.1))
  refine ⟨_, freeKpage_held hon (pagesOf_pos r.2), rfl, ?_, ?_, ht.count, ht.pages⟩
  · refine geometry_give hg hon.aligned given_keep hapart fun q hq hql => ?_
    obtain ⟨hq, hne⟩ := List.mem_filter.mp hq
    have haside : Aside r q := h.aside.forall hr hq fun heq =>
      of_decide_eq_true hne (congrArg Prod.fst heq.symm)
    obtain ⟨c, hc, -⟩ := h.large hq hql
    have hsep := haside hlarge hql
    rw [Separate, ha, hc] at hsep
    rw [Separate, hc, Nat.add_sub_cancel]
    omega
  · exact holds_fewer hm rfl (List.Subset.refl _) others_sublist.subset

theorem getBlockArena_large (hlarge : 1024 < r.2) : ∃ p, r.1 = p + ARENA_SIZE ∧
    getBlockArena r.1 = p := by
  obtain ⟨p, hp, hon, -⟩ := hinv.geometry.large hr hlarge
  refine ⟨p, hp, ?_⟩
  have haligned : p % 4096 = 0 := hon.aligned
  rw [hp, getBlockArena]
  show (p + 16) / 4096 * 4096 = p
  omega

include hD in
/-- `kfree` of an allocation returns. -/
theorem kfree_ok : ∃ s' K', kfree s r.1 = .ok s' ∧ s'.live = s.live ∧
    Inv D K' { s' with live := others s r.1 } := by
  have h := hinv.geometry
  have hm := hinv.holds
  rcases h.live r hr with ⟨-, i, hi, p, hp, hblock, -, hno⟩ | ⟨hlarge, -⟩
  · have hon := (h.arena _ hp).1
    have harena := hblock.arena hon.aligned
    have hheader : Header s.mem p (descriptor D i) 0 (K.count p) := hm.arena _ hp
    have hptr : r.1 ≠ 0 := by
      have hstart := hblock.bounds.1
      omega
    obtain ⟨m', hpush, hdesc, hcount, hinv'⟩ := giveBlock_ok hD hinv hi hp hblock hno
    have hwrap : (K.count p + 1) % 2 ^ 32 = K.count p + 1 := by
      have hlt := countIn_lt h hi p
      rw [hinv.tallied.count i hi p hp]
      omega
    obtain ⟨m, hm''⟩ : ∃ m, m = m'.store (p + 4) (K.count p + 1) := ⟨_, rfl⟩
    rw [← hm''] at hinv'
    have hheader' : Header m p (descriptor D i) 0 (Function.update K.count p (K.count p + 1) p) :=
      hinv'.holds.arena _ hp
    have hsizes : Sizes m (descriptor D i) i (K.pages i) := hinv'.holds.sizes i hi
    have hcalled : kfree s r.1 = if K.count p + 1 = blocks i ∧ K.pages i > BUF_COUNT then
        freeArena { s with mem := m } p else .ok { s with mem := m } := by
      rw [kfree, harena]
      refine next_call (check_pos hptr) (next_call (check_pos (Or.inr hheader.large))
        (next_call (check_pos hheader.magic) ?_))
      rw [if_neg (fun hne => hne hheader.large), hheader.desc]
      refine next_call (orStop_some hpush) ?_
      simp only [hcount, hwrap, ← hm'', hheader'.desc, hheader'.count, hsizes.total, hsizes.pages,
        Function.update_self]
      rfl
    by_cases hgive : K.count p + 1 = blocks i ∧ K.pages i > BUF_COUNT
    · rw [hcalled, if_pos hgive]
      refine freeArena_ok (s := { s with mem := m }) hD hinv' hi hp ?_ hgive.2
      exact (Function.update_self ..).trans hgive.1
    · rw [hcalled, if_neg hgive]
      exact ⟨_, _, rfl, rfl, hinv'⟩
  · obtain ⟨p, hp, harena⟩ := getBlockArena_large hinv hr hlarge
    obtain ⟨s', hcall, hlive, hinv'⟩ := giveLarge_ok hinv hr hlarge hp
    have hheader := hm.large r hr hlarge
    rw [hp, Nat.add_sub_cancel] at hheader
    refine ⟨s', K, ?_, hlive, hinv'⟩
    rw [kfree, harena]
    refine next_call (check_pos ?_) (next_call (check_pos (Or.inl hheader.large))
      (next_call (check_pos hheader.magic) ?_))
    · rw [hp]
      exact Nat.succ_ne_zero _
    · rw [if_pos (by rw [hheader.large]; decide), hheader.count]
      exact hcall

end Kfree

end NeonixHeapFrees
