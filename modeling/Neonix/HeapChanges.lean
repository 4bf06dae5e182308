import Mathlib.Data.List.Perm.Subperm
import Neonix.HeapShape

/-! # Changes of the heap

    What a list operation, a store to a header, a page taken and a page given back are
    for the blocks (`Geometry`) and for the words (`Holds`). -/

namespace NeonixHeapChanges

open NeonixMachine NeonixOutcome NeonixMemoryLists NeonixArenas NeonixHeapShape
open NeonixMemory (MEMORY_BASE KERNEL_MEMORY_SIZE PAGE_SIZE IDX pageCount)
open NeonixKernelPages (Separate)

variable {m m' : Words} {s t : Heap} {F F' : Nat → List Nat} {K : Books} {X Y : List Nat}
  {held' : Nat → Bool} {b c d D i j k n p q size w : Nat} {r : Nat × Nat}

/-! ## Words -/

section Words

variable (hD : Placed D) (h : Geometry D K.free s) (hm : Holds D K s)

/-- The words do not say which pages are held, and they say less of fewer arenas and
    allocations. -/
theorem holds_fewer (hm : Holds D K s) (hmem : t.mem = s.mem) (harenas : t.arenas ⊆ s.arenas)
    (hlive : t.live ⊆ s.live) : Holds D K t := by
  obtain ⟨hsizes, hlist, harena, hlarge⟩ := hm
  rw [← hmem] at hsizes hlist harena hlarge
  exact ⟨hsizes, hlist, fun r hr => harena r (harenas hr), fun r hr => hlarge r (hlive hr)⟩

theorem holds_addArena (hm : Holds D K s) (hheader : Header s.mem p d 0 (K.count p)) :
    Holds D K { s with arenas := (p, d) :: s.arenas } := by
  refine ⟨hm.sizes, hm.list, fun r hr => ?_, hm.large⟩
  rcases List.mem_cons.mp hr with rfl | hr
  · exact hheader
  · exact hm.arena r hr

theorem holds_addLive (hm : Holds D K s)
    (hheader : 1024 < r.2 → Header s.mem (r.1 - ARENA_SIZE) 0 1 (pagesOf r.2)) :
    Holds D K { s with live := r :: s.live } := by
  refine ⟨hm.sizes, hm.list, hm.arena, fun r' hr' => ?_⟩
  rcases List.mem_cons.mp hr' with rfl | hr'
  · exact hheader
  · exact hm.large r' hr'

include hD h hm

/-- One list is changed, and no words but those of its nodes. -/
theorem holds_relist (hi : i < DESC_COUNT) (hY : BlocksOf D s i Y)
    (hlist : IsList m' (freeList (descriptor D i)) X)
    (hsame : ∀ w, Outside (chain D i Y) w → m' w = s.mem w) :
    Holds D { K with free := Function.update K.free i X } { s with mem := m' } := by
  refine ⟨fun j hj => ?_, fun j hj => ?_, fun r hr => ?_, fun r hr hlarge => ?_⟩
  · exact (hm.sizes j hj).congr fun w hw => hsame _ (desc_outside hD h hi hY hj hw)
  · show IsList m' _ (Function.update K.free i X j)
    by_cases hij : j = i
    · subst hij
      rw [Function.update_self]
      exact hlist
    · rw [Function.update_of_ne hij]
      refine (hm.list j hj).congr fun w hw => hsame w ?_
      exact chain_outside hD h hi hY hj (Ne.symm hij) (h.blocksOf hj) hw
  · exact (hm.arena r hr).congr fun w hw => hsame _ (header_outside hD h hi hY hr hw)
  · exact (hm.large r hr hlarge).congr fun w hw => hsame _ (large_outside hD h hi hY hr hlarge hw)

/-- The count of an arena is stored. -/
theorem holds_recount (hp : (p, d) ∈ s.arenas) (c : Nat) :
    Holds D { K with count := Function.update K.count p c }
      { s with mem := s.mem.store (p + 4) c } := by
  have hlow := (h.arena _ hp).1.low
  have hbase := hD.2
  change MEMORY_BASE ≤ p at hlow
  change D + 28 * 7 ≤ MEMORY_BASE at hbase
  have hother : ∀ {w}, w ≠ p + 4 → (s.mem.store (p + 4) c) w = s.mem w := by
    intro w hw
    rw [store_apply, if_neg hw]
  refine ⟨fun j hj => ?_, fun j hj => ?_, fun r hr => ?_, fun r hr hlarge => ?_⟩
  · change j < 7 at hj
    refine (hm.sizes j hj).congr fun w hw => hother ?_
    rw [descriptor]
    omega
  · refine (hm.list j hj).congr fun w hw => hother ?_
    rintro rfl
    exact hw (header_outside hD h hj (h.blocksOf hj) hp (by omega))
  · obtain ⟨q, e⟩ := r
    show Header (s.mem.store (p + 4) c) q e 0 (Function.update K.count p c q)
    have hq := hm.arena _ hr
    by_cases hpq : q = p
    · subst hpq
      rw [Function.update_self]
      refine ⟨(hother (by omega)).trans hq.desc, (hother (by omega)).trans hq.large, ?_,
        (hother (by omega)).trans hq.magic⟩
      rw [countOf, store_apply, if_pos rfl]
    · rw [Function.update_of_ne hpq]
      have hsep := h.pages_separate hr hp hpq
      exact hq.congr fun w hw => hother (by show q + w ≠ p + 4; omega)
  · obtain ⟨a, ha, -, hapart⟩ := h.large hr hlarge
    have hsep := hapart _ hp
    have hpages : PAGE_SIZE ≤ pagesOf r.2 * PAGE_SIZE := Nat.le_mul_of_pos_left _ (pagesOf_pos r.2)
    have hP : PAGE_SIZE = 4096 := rfl
    rw [Separate] at hsep
    refine (hm.large r hr hlarge).congr fun w hw => hother ?_
    rw [ha, Nat.add_sub_cancel]
    omega

/-- The page count of a descriptor is stored. -/
theorem holds_repage (hi : i < DESC_COUNT) (n : Nat) :
    Holds D { K with pages := Function.update K.pages i n }
      { s with mem := s.mem.store (descriptor D i + 8) n } := by
  have hbase := hD.2
  change D + 28 * 7 ≤ MEMORY_BASE at hbase
  change i < 7 at hi
  have hother : ∀ {w}, w ≠ D + 28 * i + 8 → (s.mem.store (descriptor D i + 8) n) w = s.mem w := by
    intro w hw
    rw [store_apply, descriptor, if_neg hw]
  refine ⟨fun j hj => ?_, fun j hj => ?_, fun r hr => ?_, fun r hr hlarge => ?_⟩
  · change j < 7 at hj
    show Sizes (s.mem.store (descriptor D i + 8) n) _ j (Function.update K.pages i n j)
    have hsizes := hm.sizes j hj
    by_cases hij : j = i
    · subst hij
      rw [Function.update_self]
      refine ⟨(hother ?_).trans hsizes.total, (hother ?_).trans hsizes.size, ?_⟩
      · rw [descriptor]
        omega
      · rw [descriptor]
        omega
      · rw [pageCountOf, store_apply, if_pos rfl]
    · rw [Function.update_of_ne hij]
      refine hsizes.congr fun w hw => hother ?_
      rw [descriptor]
      omega
  · refine (hm.list j hj).congr fun w hw => hother ?_
    rintro rfl
    exact hw (desc_outside hD h hj (h.blocksOf hj) hi (by omega))
  · have hlow := (h.arena r hr).1.low
    exact (hm.arena r hr).congr fun w hw => hother (by omega)
  · obtain ⟨a, ha, hon, -⟩ := h.large hr hlarge
    have hlow := hon.low
    refine (hm.large r hr hlarge).congr fun w hw => hother ?_
    rw [ha, Nat.add_sub_cancel]
    omega

end Words

/-! ## Operations on the list of a descriptor -/

/-- A list of free blocks is shorter than the turns of a search. -/
theorem free_short (h : Geometry D F s) (hi : i < DESC_COUNT) : (F i).length < TURNS := by
  have hplace : ∀ b ∈ F i, b % 16 = 0 ∧ b / 16 < 2 ^ 20 := by
    intro b hb
    obtain ⟨p, hp, hblock⟩ := h.free i hi b hb
    obtain ⟨-, hhi⟩ := hblock.bounds
    have hon := (h.arena _ hp).1
    have hend : p + 1 * 4096 ≤ 0x1000000 := hon.high
    have hbytes := bytes_ge i
    exact ⟨hblock.aligned hon.aligned, by omega⟩
  have hnodup : ((F i).map fun b => b / 16).Nodup := by
    refine (h.nodup i hi).map_on fun b hb c hc heq => ?_
    have := (hplace b hb).1
    have := (hplace c hc).1
    omega
  have hsub : (F i).map (fun b => b / 16) ⊆ List.range (2 ^ 20) := by
    intro x hx
    obtain ⟨b, hb, rfl⟩ := List.mem_map.mp hx
    exact List.mem_range.mpr (hplace b hb).2
  have hlen := (hnodup.subperm hsub).length_le
  rw [List.length_map, List.length_range] at hlen
  exact Nat.lt_succ_of_le hlen

section Lists

variable (hD : Placed D) (h : Geometry D K.free s) (hm : Holds D K s) (hi : i < DESC_COUNT)
include h hm hi

theorem search_free (b : Nat) :
    listSearch TURNS s.mem (freeList (descriptor D i)) b = some (decide (b ∈ K.free i)) :=
  (hm.list i hi).search (free_short h hi) b

theorem nodes_free : nodesOf TURNS s.mem (freeList (descriptor D i)) = K.free i :=
  (hm.list i hi).nodes (free_short h hi)

include hD

/-- A block is put on the list. -/
theorem push_free (hp : (p, descriptor D i) ∈ s.arenas) (hb : IsBlock p i b) (hno : b ∉ K.free i) :
    ∃ m', listPush TURNS s.mem (freeList (descriptor D i)) b = some m' ∧
      Holds D { K with free := Function.update K.free i (b :: K.free i) } { s with mem := m' } := by
  have hblocks : BlocksOf D s i (b :: K.free i) :=
    List.forall_mem_cons.mpr ⟨⟨p, hp, hb⟩, h.free i hi⟩
  have hlow := block_low hD h hblocks List.mem_cons_self
  change i < 7 at hi
  have hapart : ∀ x ∈ chain D i (K.free i), Apart b x := by
    intro x hx
    rcases List.mem_cons.mp hx with rfl | hx
    · rw [Apart, freeList, descriptor]
      omega
    · rcases List.mem_append.mp hx with hx | hx
      · -- blocks start 16 bytes apart
        obtain ⟨q, hq, hblock⟩ := h.free i hi x hx
        have haligned := hb.aligned (h.arena _ hp).1.aligned
        have haligned' := hblock.aligned (h.arena _ hq).1.aligned
        have hne : b ≠ x := fun heq => hno (heq ▸ hx)
        rw [Apart]
        omega
      · rw [List.mem_singleton.mp hx, Apart, tailOf, freeList, descriptor]
        omega
  obtain ⟨m', hpush, hlist, hsame⟩ := (hm.list i hi).push (by omega) hapart (free_short h hi)
  exact ⟨m', hpush, holds_relist hD h hm hi hblocks hlist hsame⟩

/-- The first block is taken off the list. -/
theorem pop_free (hfree : K.free i = b :: X) :
    ∃ m', listPop s.mem (freeList (descriptor D i)) = some (b, m') ∧
      Holds D { K with free := Function.update K.free i X } { s with mem := m' } := by
  have hlist := hm.list i hi
  have hblocks := h.blocksOf hi
  rw [hfree] at hlist hblocks
  obtain ⟨m', hpop, hlist, hsame⟩ := hlist.pop
  exact ⟨m', hpop, holds_relist hD h hm hi hblocks hlist hsame⟩

/-- A block is taken off the list. -/
theorem remove_free (hb : b ∈ K.free i) : ∃ m', listRemove s.mem b = some m' ∧
    Holds D { K with free := Function.update K.free i ((K.free i).erase b) }
      { s with mem := m' } := by
  obtain ⟨m', hremove, hlist, hsame⟩ := (hm.list i hi).erase hb
  exact ⟨m', hremove, holds_relist hD h hm hi (h.blocksOf hi) hlist hsame⟩

end Lists

/-! ## Blocks and pages -/

/-- The blocks are where they are whatever the words are. -/
theorem geometry_words (h : Geometry D F s) (m : Words) : Geometry D F { s with mem := m } :=
  ⟨h.arena, h.once, h.free, h.nodup, h.live, h.pointers, h.aside, h.apart⟩

theorem isSmall_imp (hsmall : IsSmall D F s r) (himp : ∀ i < DESC_COUNT, ∀ p,
    (p, descriptor D i) ∈ s.arenas → IsBlock p i r.1 → r.1 ∉ F i →
      (p, descriptor D i) ∈ t.arenas ∧ r.1 ∉ F' i) : IsSmall D F' t r := by
  obtain ⟨hsize, i, hi, p, hp, hblock, hle, hno⟩ := hsmall
  obtain ⟨hp', hno'⟩ := himp i hi p hp hblock hno
  exact ⟨hsize, i, hi, p, hp', hblock, hle, hno'⟩

theorem onPages_imp (h : OnPages s.held p n) (himp : ∀ j < n, held' (IDX p + j) = true) :
    OnPages held' p n := ⟨h.aligned, h.low, h.high, himp⟩

/-- Fewer allocations. -/
theorem geometry_fewer {live : List (Nat × Nat)} (h : Geometry D F s)
    (hlive : live.Sublist s.live) :
    Geometry D F { s with live := live } where
  arena := h.arena
  once := h.once
  free := h.free
  nodup := h.nodup
  live := fun r hr => h.live r (hlive.subset hr)
  pointers := h.pointers.sublist (hlive.map _)
  aside := h.aside.sublist hlive
  apart := fun r hr => h.apart r (hlive.subset hr)

/-- Another list of a descriptor, with blocks that are free or become so. -/
theorem geometry_relist (h : Geometry D F s) (hi : i < DESC_COUNT) (hX : BlocksOf D s i X)
    (hnodup : X.Nodup) (hno : ∀ b ∈ X, b ∈ F i ∨ ∀ r ∈ s.live, r.1 ≠ b) :
    Geometry D (Function.update F i X) s where
  arena := h.arena
  once := h.once
  free := by
    intro j hj
    by_cases hij : j = i
    · subst hij
      rw [Function.update_self]
      exact hX
    · rw [Function.update_of_ne hij]
      exact h.free j hj
  nodup := by
    intro j hj
    by_cases hij : j = i
    · subst hij
      rw [Function.update_self]
      exact hnodup
    · rw [Function.update_of_ne hij]
      exact h.nodup j hj
  live := by
    intro r hr
    rcases h.live r hr with hsmall | hlarge
    · refine Or.inl (isSmall_imp hsmall fun j hj p hp hblock hfree => ⟨hp, ?_⟩)
      by_cases hij : j = i
      · subst hij
        rw [Function.update_self]
        intro hin
        rcases hno _ hin with hin | hnone
        · exact hfree hin
        · exact hnone r hr rfl
      · rw [Function.update_of_ne hij]
        exact hfree
    · exact Or.inr hlarge
  pointers := h.pointers
  aside := h.aside
  apart := h.apart

/-- A block becomes free. -/
theorem geometry_push (h : Geometry D F s) (hi : i < DESC_COUNT)
    (hp : (p, descriptor D i) ∈ s.arenas) (hb : IsBlock p i b) (hno : b ∉ F i)
    (hlive : ∀ r ∈ s.live, r.1 ≠ b) : Geometry D (Function.update F i (b :: F i)) s := by
  refine geometry_relist h hi (List.forall_mem_cons.mpr ⟨⟨p, hp, hb⟩, h.free i hi⟩)
    (List.nodup_cons.mpr ⟨hno, h.nodup i hi⟩) (List.forall_mem_cons.mpr ⟨Or.inr hlive, ?_⟩)
  exact fun c hc => Or.inl hc

/-- Blocks are not free any more. -/
theorem geometry_less (h : Geometry D F s) (hi : i < DESC_COUNT) (hX : X.Sublist (F i)) :
    Geometry D (Function.update F i X) s :=
  geometry_relist h hi (fun b hb => h.free i hi b (hX.subset hb)) ((h.nodup i hi).sublist hX)
    fun _ hb => Or.inl (hX.subset hb)

/-! ## Allocations -/

/-- A block that is not free any more. -/
theorem geometry_addSmall (h : Geometry D F s) (hi : i < DESC_COUNT)
    (hp : (p, descriptor D i) ∈ s.arenas) (hb : IsBlock p i b) (hno : b ∉ F i)
    (hlive : ∀ r ∈ s.live, r.1 ≠ b) (hsmall : size ≤ 1024) (hsize : size ≤ bytes i) :
    Geometry D F { s with live := (b, size) :: s.live } where
  arena := h.arena
  once := h.once
  free := h.free
  nodup := h.nodup
  live := by
    intro r hr
    rcases List.mem_cons.mp hr with rfl | hr
    · exact Or.inl ⟨hsmall, i, hi, p, hp, hb, hsize, hno⟩
    · exact h.live r hr
  pointers := by
    refine List.nodup_cons.mpr ⟨fun hin => ?_, h.pointers⟩
    obtain ⟨r, hr, heq⟩ := List.mem_map.mp hin
    exact hlive r hr heq
  aside := List.pairwise_cons.mpr ⟨fun r _ hlarge _ => absurd hlarge (by show ¬ 1024 < size; omega),
    h.aside⟩
  apart := by
    intro r hr hlarge
    rcases List.mem_cons.mp hr with rfl | hr
    · exact absurd hlarge (by show ¬ 1024 < size; omega)
    · exact h.apart r hr hlarge

/-- A free block is not in use. -/
theorem free_not_live (h : Geometry D F s) (hi : i < DESC_COUNT) (hb : b ∈ F i) :
    ∀ r ∈ s.live, r.1 ≠ b := by
  rintro r hr rfl
  obtain ⟨p, hp, hblock⟩ := h.free i hi _ hb
  rcases h.live r hr with ⟨-, j, hj, q, hq, hblock', -, hno⟩ | ⟨hlarge, -⟩
  · obtain ⟨-, rfl⟩ := h.same_block hp hq hblock hblock'
    exact hno hb
  · obtain ⟨a, ha, -, hapart⟩ := h.large hr hlarge
    have hsep := hapart _ hp
    have hpages : PAGE_SIZE ≤ pagesOf r.2 * PAGE_SIZE := Nat.le_mul_of_pos_left _ (pagesOf_pos r.2)
    have hP : PAGE_SIZE = 4096 := rfl
    have hA : ARENA_SIZE = 16 := rfl
    obtain ⟨hlo, hhi⟩ := hblock.bounds
    have hbytes := bytes_ge i
    rw [Separate] at hsep
    omega

/-! ## Pages -/

section Taken

variable (h : Geometry D F s) (hfresh : Fresh s p n) (hn : 0 < n)
include h hfresh hn

/-- Pages that were not held are none of an arena. -/
theorem arena_separate (hr : r ∈ s.arenas) : Separate r.1 PAGE_SIZE p (n * PAGE_SIZE) := by
  have hsep := (h.arena r hr).1.separate hfresh Nat.zero_lt_one hn
  rwa [Nat.one_mul] at hsep

/-- Pages that were not held are none of an allocation. -/
theorem large_separate (hr : r ∈ s.live) (hlarge : 1024 < r.2) :
    Separate (r.1 - ARENA_SIZE) (pagesOf r.2 * PAGE_SIZE) p (n * PAGE_SIZE) := by
  obtain ⟨a, ha, hon, -⟩ := h.large hr hlarge
  rw [ha, Nat.add_sub_cancel]
  exact hon.separate hfresh (pagesOf_pos r.2) hn

/-- No allocation starts on them. -/
theorem live_not_fresh (hr : r ∈ s.live) : ¬ (p ≤ r.1 ∧ r.1 < p + PAGE_SIZE) := by
  rintro ⟨hlo, hhi⟩
  have hP : PAGE_SIZE = 4096 := rfl
  have hA : ARENA_SIZE = 16 := rfl
  have hpages : PAGE_SIZE ≤ n * PAGE_SIZE := Nat.le_mul_of_pos_left _ hn
  rcases h.live r hr with ⟨-, i, -, q, hq, hblock, -, -⟩ | ⟨hlarge, -⟩
  · have hsep : q + PAGE_SIZE ≤ p ∨ _ ≤ q := arena_separate h hfresh hn hq
    obtain ⟨hlo', hhi'⟩ := hblock.bounds
    have hbytes := bytes_ge i
    omega
  · obtain ⟨a, ha, -, -⟩ := h.large hr hlarge
    have hsep := large_separate h hfresh hn hr hlarge
    have hpages' : PAGE_SIZE ≤ pagesOf r.2 * PAGE_SIZE := Nat.le_mul_of_pos_left _ (pagesOf_pos r.2)
    rw [Separate, ha, Nat.add_sub_cancel] at hsep
    omega

end Taken

section Grown

variable (h : Geometry D F s) (hgrow : ∀ j, s.held j = true → held' j = true)
include h hgrow

/-- More pages are held. -/
theorem geometry_grow : Geometry D F { s with held := held' } where
  arena := by
    intro r hr
    obtain ⟨hon, hdesc⟩ := h.arena r hr
    exact ⟨onPages_imp hon fun j hj => hgrow _ (hon.held j hj), hdesc⟩
  once := h.once
  free := h.free
  nodup := h.nodup
  live := by
    intro r hr
    rcases h.live r hr with hsmall | ⟨hlarge, a, ha, hon⟩
    · exact Or.inl hsmall
    · exact Or.inr ⟨hlarge, a, ha, onPages_imp hon fun j hj => hgrow _ (hon.held j hj)⟩
  pointers := h.pointers
  aside := h.aside
  apart := h.apart

/-- A page is taken for blocks. -/
theorem geometry_addArena (hfresh : Fresh s p 1) (hnew : ∀ j < 1, held' (IDX p + j) = true)
    (hi : i < DESC_COUNT) :
    Geometry D F { s with held := held', arenas := (p, descriptor D i) :: s.arenas } := by
  have hgrown := geometry_grow h hgrow
  have hpage := fun {r} => arena_separate (r := r) h hfresh Nat.zero_lt_one
  have hP : PAGE_SIZE = 4096 := rfl
  refine ⟨fun r hr => ?_, ?_, fun j hj b hb => ?_, h.nodup, fun r hr => ?_, h.pointers, h.aside,
    fun r hr hlarge q hq => ?_⟩
  · rcases List.mem_cons.mp hr with rfl | hr
    · exact ⟨⟨hfresh.1, hfresh.2.1, hfresh.2.2.1, hnew⟩, i, hi, rfl⟩
    · exact hgrown.arena r hr
  · refine List.nodup_cons.mpr ⟨fun hin => ?_, h.once⟩
    obtain ⟨r, hr, heq⟩ := List.mem_map.mp hin
    have hsep := hpage hr
    rw [Separate, heq] at hsep
    omega
  · obtain ⟨q, hq, hblock⟩ := h.free j hj b hb
    exact ⟨q, List.mem_cons_of_mem _ hq, hblock⟩
  · rcases hgrown.live r hr with hsmall | hlarge
    · exact Or.inl (isSmall_imp hsmall fun j _ q hq _ hno => ⟨List.mem_cons_of_mem _ hq, hno⟩)
    · exact Or.inr hlarge
  · rcases List.mem_cons.mp hq with rfl | hq
    · have hsep := large_separate h hfresh Nat.zero_lt_one hr hlarge
      rwa [Nat.one_mul] at hsep
    · exact h.apart r hr hlarge q hq

/-- Pages are taken for an allocation. -/
theorem geometry_addLarge (hlarge : 1024 < size) (hfresh : Fresh s p (pagesOf size))
    (hnew : ∀ j < pagesOf size, held' (IDX p + j) = true) :
    Geometry D F { s with held := held', live := (p + ARENA_SIZE, size) :: s.live } := by
  have hgrown := geometry_grow h hgrow
  have hn := pagesOf_pos size
  refine ⟨hgrown.arena, h.once, h.free, h.nodup, fun r hr => ?_, ?_, ?_, fun r hr hrl q hq => ?_⟩
  · rcases List.mem_cons.mp hr with rfl | hr
    · exact Or.inr ⟨hlarge, p, rfl, hfresh.1, hfresh.2.1, hfresh.2.2.1, hnew⟩
    · exact hgrown.live r hr
  · refine List.nodup_cons.mpr ⟨fun hin => ?_, h.pointers⟩
    obtain ⟨r, hr, heq⟩ := List.mem_map.mp hin
    have hP : PAGE_SIZE = 4096 := rfl
    have hA : ARENA_SIZE = 16 := rfl
    exact live_not_fresh h hfresh hn hr ⟨by omega, by omega⟩
  · refine List.pairwise_cons.mpr ⟨fun r hr _ hrl => ?_, h.aside⟩
    obtain ⟨a, ha, -, -⟩ := h.large hr hrl
    have hsep := large_separate h hfresh hn hr hrl
    rw [Separate, ha, Nat.add_sub_cancel] at hsep
    change p + ARENA_SIZE + pagesOf size * PAGE_SIZE ≤ r.1 ∨
      r.1 + pagesOf r.2 * PAGE_SIZE ≤ p + ARENA_SIZE
    omega
  · rcases List.mem_cons.mp hr with rfl | hr
    · rw [Nat.add_sub_cancel]
      exact (arena_separate h hfresh hn hq).symm
    · exact h.apart r hr hrl q hq

end Grown

/-! ## Pages given back -/

section Given

variable (h : Geometry D F s) (hp : p % PAGE_SIZE = 0)
  (hkeep : ∀ j, s.held j = true → ¬ (IDX p ≤ j ∧ j < IDX p + n) → held' j = true)
include hkeep hp

/-- Other pages are still held. -/
theorem onPages_keep (hon : OnPages s.held q k)
    (hsep : Separate p (n * PAGE_SIZE) q (k * PAGE_SIZE)) :
    OnPages held' q k := by
  refine onPages_imp hon fun j hj => hkeep _ (hon.held j hj) ?_
  have hq : q % 4096 = 0 := hon.aligned
  change p % 4096 = 0 at hp
  change p + n * 4096 ≤ q ∨ q + k * 4096 ≤ p at hsep
  show ¬ (p / 4096 ≤ q / 4096 + j ∧ q / 4096 + j < p / 4096 + n)
  omega

include h

/-- Pages are given back that are of no arena and no allocation. -/
theorem geometry_give (hpages : ∀ q ∈ s.arenas, Separate p (n * PAGE_SIZE) q.1 PAGE_SIZE)
    (hlarge : ∀ r ∈ s.live, 1024 < r.2 →
      Separate p (n * PAGE_SIZE) (r.1 - ARENA_SIZE) (pagesOf r.2 * PAGE_SIZE)) :
    Geometry D F { s with held := held' } where
  arena := by
    intro r hr
    obtain ⟨hon, hdesc⟩ := h.arena r hr
    refine ⟨onPages_keep hp hkeep hon ?_, hdesc⟩
    rw [Nat.one_mul]
    exact hpages r hr
  once := h.once
  free := h.free
  nodup := h.nodup
  live := by
    intro r hr
    rcases h.live r hr with hsmall | ⟨hrl, a, ha, hon⟩
    · exact Or.inl hsmall
    · refine Or.inr ⟨hrl, a, ha, onPages_keep hp hkeep hon ?_⟩
      have hsep := hlarge r hr hrl
      rwa [ha, Nat.add_sub_cancel] at hsep
  pointers := h.pointers
  aside := h.aside
  apart := h.apart

end Given

/-- An arena is forgotten: none of its blocks is free, and none is in use. -/
theorem geometry_dropArena (h : Geometry D F s)
    (hfree : ∀ i < DESC_COUNT, ∀ b ∈ F i, getBlockArena b ≠ p)
    (hlive : ∀ r ∈ s.live, r.2 ≤ 1024 → getBlockArena r.1 ≠ p) :
    Geometry D F { s with arenas := s.arenas.filter fun r => r.1 ≠ p } := by
  have hmem : ∀ {r}, r ∈ s.arenas.filter (fun r => r.1 ≠ p) ↔ r ∈ s.arenas ∧ r.1 ≠ p := by
    intro r
    rw [List.mem_filter, decide_eq_true_iff]
  -- a block that is not on the page is on a page that stays
  have hstays : ∀ {q d j b}, (q, d) ∈ s.arenas → IsBlock q j b → getBlockArena b ≠ p →
      (q, d) ∈ s.arenas.filter (fun r => r.1 ≠ p) := by
    intro q d j b hq hblock hne
    rw [hblock.arena (h.arena _ hq).1.aligned] at hne
    exact hmem.mpr ⟨hq, hne⟩
  refine ⟨fun r hr => h.arena r (hmem.mp hr).1, ?_, fun j hj b hb => ?_, h.nodup, fun r hr => ?_,
    h.pointers, h.aside, fun r hr hlarge q hq => h.apart r hr hlarge q (hmem.mp hq).1⟩
  · exact h.once.sublist (List.filter_sublist.map _)
  · obtain ⟨q, hq, hblock⟩ := h.free j hj b hb
    exact ⟨q, hstays hq hblock (hfree j hj b hb), hblock⟩
  · rcases h.live r hr with hsmall | hlarge
    · refine Or.inl (isSmall_imp hsmall fun j _ q hq hblock hno => ⟨?_, hno⟩)
      exact hstays hq hblock (hlive r hr hsmall.1)
    · exact Or.inr hlarge

end NeonixHeapChanges
