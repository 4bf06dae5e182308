import Neonix.HeapFrees

/-! # Runs of the heap

    From `arena_init` on, whatever is allocated, given back and stored in allocations,
    the words of the heap keep to the books. -/

namespace NeonixHeapRuns

open NeonixMachine NeonixOutcome NeonixRuns NeonixMemoryLists NeonixArenas NeonixHeapShape
open NeonixHeapChanges NeonixHeapCalls NeonixHeapFrees
open NeonixMemory (MEMORY_BASE KERNEL_MEMORY_SIZE PAGE_SIZE IDX pageCount)
open NeonixKernelPages (Separate)

variable {m m' : Words} {s t : Heap} {F : Nat → List Nat} {K : Books} {D i p w : Nat}
  {r r' : Nat × Nat}

/-! ## `arena_init` -/

/-- A descriptor without pages. -/
def Ready (D : Nat) (m : Words) (i : Nat) : Prop :=
  Sizes m (descriptor D i) i 0 ∧ IsList m (freeList (descriptor D i)) []

theorem Ready.congr {j : Nat} (h : Ready D m j)
    (hsame : ∀ w, D + 28 * j ≤ w → w < D + 28 * j + 28 → m' w = m w) : Ready D m' j := by
  refine ⟨h.1.congr fun w hw => hsame _ (Nat.le_add_right _ _) ?_, h.2.congr fun w hw => ?_⟩
  · rw [descriptor]
    omega
  · have hword := mt outside_chain.mpr hw
    refine hsame w ?_ ?_ <;> by_contra hout <;> refine hword ⟨by omega, fun b hb => ?_⟩ <;> cases hb

/-- A turn of the loop. -/
theorem initFrom_ok (left : Nat) : ∀ i m, (∀ j < i, Ready D m j) →
    ∃ m', initFrom D left i (bytes i) m = .ok m' ∧ ∀ j < left + i, Ready D m' j := by
  induction left with
  | zero =>
      intro i m h
      refine ⟨m, rfl, ?_⟩
      rw [Nat.zero_add]
      exact h
  | succ left ih =>
      intro i m h
      obtain ⟨m₁, hm₁⟩ : ∃ m₁, m₁ = ((m.store (descriptor D i + 4) (bytes i)).store (descriptor D i)
          (blocks i)).store (descriptor D i + 8) 0 := ⟨_, rfl⟩
      obtain ⟨m₂, hlist, hempty, hframe⟩ := listInit_list (m := m₁)
        (l := freeList (descriptor D i)) (Nat.succ_ne_zero _)
      have hframe' : ∀ w, w < descriptor D i + 12 ∨ descriptor D i + 28 ≤ w → m₂ w = m₁ w := by
        intro w hw
        refine hframe w fun a ha => ?_
        rcases List.mem_cons.mp ha with rfl | ha
        · rw [freeList]
          omega
        · rw [List.mem_singleton.mp ha, freeList, tailOf]
          omega
      have hsame : ∀ w, w < descriptor D i ∨ descriptor D i + 28 ≤ w → m₂ w = m w := by
        intro w hw
        rw [hframe' w (by omega), hm₁, store_apply, store_apply, store_apply, if_neg (by omega),
          if_neg (by omega), if_neg (by omega)]
      have hsizes : Sizes m₂ (descriptor D i) i 0 := by
        constructor
        · rw [totalBlock, hframe' _ (by omega), hm₁]
          simp [store_apply]
        · rw [blockSize, hframe' _ (by omega), hm₁]
          simp [store_apply]
        · rw [pageCountOf, hframe' _ (by omega), hm₁]
          simp [store_apply]
      have hready : ∀ j < i + 1, Ready D m₂ j := by
        intro j hj
        rcases Nat.lt_succ_iff_lt_or_eq.mp hj with hj | rfl
        · refine (h j hj).congr fun w _ hhi => hsame w (Or.inl ?_)
          rw [descriptor]
          omega
        · exact ⟨hsizes, hempty⟩
      obtain ⟨m', hcall, hall⟩ := ih (i + 1) m₂ hready
      refine ⟨m', ?_, fun j hj => hall j (by omega)⟩
      have hshift : bytes i <<< 1 = bytes (i + 1) := by
        rw [Nat.shiftLeft_eq, pow_one, bytes, bytes, Nat.pow_succ, Nat.mul_assoc]
      rw [initFrom, hshift]
      rw [hm₁] at hlist
      exact next_call (orStop_some hlist) hcall

theorem arenaInit_ok (m : Words) :
    ∃ m', arenaInit D m = .ok m' ∧ ∀ i < DESC_COUNT, Ready D m' i :=
  initFrom_ok DESC_COUNT 0 m fun j hj => absurd hj (Nat.not_lt_zero j)

/-- The books of a heap without pages. -/
def noBooks : Books := ⟨fun _ => [], fun _ => 0, fun _ => 0⟩

theorem inv_init (hs : (system D).init s) : Inv D noBooks s := by
  obtain ⟨m, hinit, -, harenas, hlive⟩ := hs
  obtain ⟨m', hinit', hready⟩ := arenaInit_ok (D := D) m
  rw [hinit'] at hinit
  rw [Except.ok.inj hinit] at hready
  have hnone : ∀ {r : Nat × Nat} {Q : Prop}, r ∈ ([] : List (Nat × Nat)) → Q := fun h => by cases h
  constructor
  · constructor
    · exact fun r hr => hnone (harenas ▸ hr)
    · rw [harenas]
      exact List.nodup_nil
    · exact fun i _ b hb => by cases hb
    · exact fun i _ => List.nodup_nil
    · exact fun r hr => hnone (hlive ▸ hr)
    · rw [hlive]
      exact List.nodup_nil
    · rw [hlive]
      exact List.Pairwise.nil
    · exact fun r hr => hnone (hlive ▸ hr)
  · exact ⟨fun i hi => (hready i hi).1, fun i hi => (hready i hi).2,
      fun r hr => hnone (harenas ▸ hr), fun r hr => hnone (hlive ▸ hr)⟩
  · refine ⟨fun i _ p hp => hnone (harenas ▸ hp), fun i _ => ?_⟩
    rw [harenas]
    rfl

/-! ## Separate allocations -/

section Live

variable (h : Geometry D F s) (hr : r ∈ s.live)
include h hr

/-- Where the bytes of an allocation are. -/
theorem live_place : (∃ i < DESC_COUNT, ∃ p, (p, descriptor D i) ∈ s.arenas ∧ IsBlock p i r.1 ∧
      r.2 ≤ bytes i ∧ r.1 ∉ F i) ∨
    (1024 < r.2 ∧ ∃ p, r.1 = p + ARENA_SIZE ∧ OnPages s.held p (pagesOf r.2) ∧
      r.1 + r.2 ≤ p + pagesOf r.2 * PAGE_SIZE ∧
      ∀ q ∈ s.arenas, Separate p (pagesOf r.2 * PAGE_SIZE) q.1 PAGE_SIZE) := by
  rcases h.live r hr with ⟨-, i, hi, p, hp, hblock, hle, hno⟩ | ⟨hlarge, -⟩
  · exact Or.inl ⟨i, hi, p, hp, hblock, hle, hno⟩
  · obtain ⟨p, hp, hon, hapart⟩ := h.large hr hlarge
    refine Or.inr ⟨hlarge, p, hp, hon, ?_, hapart⟩
    rw [hp]
    show p + 16 + r.2 ≤ p + (r.2 + 16 + 4095) / 4096 * 4096
    omega

/-- No byte of an allocation is one of the header of an arena. -/
theorem live_arena {q : Nat} {d : Nat} (hq : (q, d) ∈ s.arenas) :
    Separate r.1 r.2 q ARENA_SIZE := by
  have hP : PAGE_SIZE = 4096 := rfl
  have hA : ARENA_SIZE = 16 := rfl
  rw [Separate]
  rcases live_place h hr with ⟨i, hi, p, hp, hblock, hle, -⟩ | ⟨-, p, hp, -, hend, hapart⟩
  · obtain ⟨hlo, hhi⟩ := hblock.bounds
    by_cases hpq : p = q
    · omega
    · have hsep := h.pages_separate hp hq hpq
      omega
  · have hsep := hapart _ hq
    rw [Separate] at hsep
    omega

/-- Nor of the header in front of a large allocation. -/
theorem live_header (hr' : r' ∈ s.live) (hlarge : 1024 < r'.2) :
    Separate r.1 r.2 (r'.1 - ARENA_SIZE) ARENA_SIZE := by
  have hP : PAGE_SIZE = 4096 := rfl
  have hA : ARENA_SIZE = 16 := rfl
  obtain ⟨p', hp', hon', hapart'⟩ := h.large hr' hlarge
  have hpages : PAGE_SIZE ≤ pagesOf r'.2 * PAGE_SIZE := Nat.le_mul_of_pos_left _ (pagesOf_pos r'.2)
  rw [Separate, hp', Nat.add_sub_cancel]
  rcases live_place h hr with ⟨i, hi, p, hp, hblock, hle, -⟩ | ⟨hlarge', p, hp, -, hend, -⟩
  · have hsep := hapart' _ hp
    obtain ⟨hlo, hhi⟩ := hblock.bounds
    rw [Separate] at hsep
    omega
  · by_cases heq : r = r'
    · subst heq
      omega
    · have haside : Aside r r' := h.aside.forall hr hr' heq
      have hsep := haside hlarge' hlarge
      rw [Separate] at hsep
      omega

/-- Allocations have no byte in common. -/
theorem live_live (hr' : r' ∈ s.live) (hne : r.1 ≠ r'.1) : Separate r.1 r.2 r'.1 r'.2 := by
  have hP : PAGE_SIZE = 4096 := rfl
  have hA : ARENA_SIZE = 16 := rfl
  rw [Separate]
  rcases live_place h hr with ⟨i, hi, p, hp, hblock, hle, -⟩ | ⟨hlarge, p, hp, -, hend, hapart⟩ <;>
    rcases live_place h hr' with ⟨i', hi', p', hp', hblock', hle', -⟩ |
      ⟨hlarge', p', hp', -, hend', hapart'⟩
  · by_cases hpp : p = p'
    · subst hpp
      obtain rfl : i = i' := descriptor_inj (h.same_arena hp hp')
      have hsep := hblock.separate hblock' hne
      rw [Separate] at hsep
      omega
    · have hsep := h.pages_separate hp hp' hpp
      obtain ⟨hlo, hhi⟩ := hblock.bounds
      obtain ⟨hlo', hhi'⟩ := hblock'.bounds
      omega
  · have hsep := hapart' _ hp
    obtain ⟨hlo, hhi⟩ := hblock.bounds
    rw [Separate] at hsep
    omega
  · have hsep := hapart _ hp'
    obtain ⟨hlo, hhi⟩ := hblock'.bounds
    rw [Separate] at hsep
    omega
  · have haside : Aside r r' := h.aside.forall hr hr' fun heq => hne (congrArg Prod.fst heq)
    have hsep := haside hlarge hlarge'
    rw [Separate] at hsep
    omega

/-- The pages of an allocation are held. -/
theorem live_held {j : Nat} (hj : j < r.2) : s.held (IDX (r.1 + j)) = true := by
  have hP : PAGE_SIZE = 4096 := rfl
  have hA : ARENA_SIZE = 16 := rfl
  rcases live_place h hr with ⟨i, hi, p, hp, hblock, hle, -⟩ | ⟨-, p, hp, hon, hend, -⟩
  · obtain ⟨hlo, hhi⟩ := hblock.bounds
    exact (h.arena _ hp).1.held_at (by show p ≤ _; omega) (by show _ < p + _; omega)
  · exact hon.held_at (by omega) (by omega)

/-- The heap uses no word of an allocation. -/
theorem live_unused (hD : Placed D) (hlo : r.1 ≤ w) (hhi : w < r.1 + r.2) : ¬ Used D F s w := by
  have hP : PAGE_SIZE = 4096 := rfl
  have hA : ARENA_SIZE = 16 := rfl
  have hbase := hD.2
  change D + 28 * 7 ≤ MEMORY_BASE at hbase
  have hlow : MEMORY_BASE + 16 ≤ r.1 := by
    rcases live_place h hr with ⟨i, hi, p, hp, hblock, -, -⟩ | ⟨-, p, hp, hon, -⟩
    · have hstart := hblock.bounds.1
      have hpage : MEMORY_BASE ≤ p := (h.arena _ hp).1.low
      omega
    · have hpage := hon.low
      omega
  intro hw
  cases hw with
  | sizes i o hi ho hw =>
      change i < 7 at hi
      rw [descriptor] at hw
      omega
  | list i hi hw =>
      change i < 7 at hi
      refine hw (outside_chain.mpr ⟨by omega, fun b hb => ?_⟩)
      -- a free block is apart from the allocation
      obtain ⟨q, hq, hfree⟩ := h.free i hi b hb
      obtain ⟨hlo', hhi'⟩ := hfree.bounds
      have hbytes := bytes_ge i
      rcases live_place h hr with ⟨j, hj, p, hp, hblock, hle, hno⟩ | ⟨-, p, hp, -, hend, hapart⟩
      · obtain ⟨hlo'', hhi''⟩ := hblock.bounds
        by_cases hpq : p = q
        · subst hpq
          obtain rfl : j = i := descriptor_inj (h.same_arena hp hq)
          have hsep := hblock.separate hfree fun heq => hno (heq ▸ hb)
          rw [Separate] at hsep
          omega
        · have hsep := h.pages_separate hp hq hpq
          omega
      · have hsep := hapart _ hq
        rw [Separate] at hsep
        omega
  | arena q o hq ho hw =>
      have hsep := live_arena h hr (q := q.1) (d := q.2) hq
      rw [Separate] at hsep
      omega
  | large q o hq hlarge ho hw =>
      have hsep := live_header h hr hq hlarge
      rw [Separate] at hsep
      omega

end Live

/-! ## Correctness -/

theorem foreign_unused (hD : Placed D) (h : Geometry D F s) (hw : Foreign D s w) :
    ¬ Used D F s w := by
  rcases hw with ⟨r, hr, hlo, hhi⟩ | ⟨hheld, hdesc⟩
  · exact live_unused h hr hD hlo hhi
  · intro hused
    rcases hused.place h with hin | ⟨-, hyes⟩
    · exact hdesc hin
    · rw [hheld] at hyes
      cases hyes

/-- What a call that is made does: it returns, or there are no pages for `kmalloc`. -/
theorem exec_ok (hD : Placed D) (hinv : Inv D K s) {e : Event} (he : Enabled D s e) :
    (∃ t K', exec D s e = .ok t ∧ Inv D K' t) ∨ (exec D s e = .error .panic ∧
      ∃ size page, e = .kmalloc size page ∧ ¬ Fresh s page (needed size)) := by
  cases e with
  | kmalloc size page =>
      rcases kmalloc_ok page hD hinv he.2 with ⟨ptr, s', K', hcall, hlive, hinv'⟩ | ⟨hcall, hstale⟩
      · refine Or.inl ⟨_, K', next_call hcall rfl, ?_⟩
        rw [hlive]
        exact hinv'
      · refine Or.inr ⟨?_, size, page, rfl, hstale⟩
        rw [exec, hcall]
        rfl
  | kfree ptr =>
      obtain ⟨r, hr, rfl⟩ := he
      obtain ⟨s', K', hcall, hlive, hinv'⟩ := kfree_ok hD hinv hr
      refine Or.inl ⟨_, K', next_call hcall rfl, ?_⟩
      rw [hlive]
      exact hinv'
  | store addr word =>
      refine Or.inl ⟨_, K, rfl, geometry_words hinv.geometry _, hinv.holds.frame fun w hw => ?_,
        hinv.tallied.count, hinv.tallied.pages⟩
      rw [store_apply, if_neg]
      rintro rfl
      exact foreign_unused hD hinv.geometry he hw

theorem inv_reach (hD : Placed D) (hs : Reach (system D) free s) : ∃ K, Inv D K s := by
  refine Reach.invariant (S := system D) (?_ : ∀ s, _ → ∃ K, Inv D K s) ?_ hs
  · exact fun s hinit => ⟨noBooks, inv_init hinit⟩
  rintro s e t ⟨K, hinv⟩ - ⟨he, hexec⟩
  rcases exec_ok hD hinv he with ⟨t', K', hcall, hinv'⟩ | ⟨hcall, -⟩
  · rw [hexec] at hcall
    rw [Except.ok.inj hcall]
    exact ⟨K', hinv'⟩
  · rw [hexec] at hcall
    cases hcall

/-- What the words of the heap say of its blocks and pages, and what is promised about
    allocations. -/
structure Correct (D : Nat) (s : Heap) : Prop where
  disjoint : s.live.Pairwise fun r r' => Separate r.1 r.2 r'.1 r'.2
  held : ∀ r ∈ s.live, ∀ j < r.2, s.held (IDX (r.1 + j)) = true
  arenas : ∀ r ∈ s.live, ∀ q ∈ s.arenas, Separate r.1 r.2 q.1 ARENA_SIZE
  headers : ∀ r ∈ s.live, ∀ r' ∈ s.live, 1024 < r'.2 →
    Separate r.1 r.2 (r'.1 - ARENA_SIZE) ARENA_SIZE
  once : (s.arenas.map Prod.fst).Nodup
  arena : ∀ q ∈ s.arenas, s.held (IDX q.1) = true ∧ descOf s.mem q.1 = q.2 ∧
    ∃ i < DESC_COUNT, q.2 = descriptor D i
  count : ∀ q ∈ s.arenas, countOf s.mem q.1 = countIn (nodesOf TURNS s.mem (freeList q.2)) q.1
  pages : ∀ i < DESC_COUNT, pageCountOf s.mem (descriptor D i) =
    (s.arenas.filter fun q => q.2 = descriptor D i).length
  free : ∀ i < DESC_COUNT, ∀ b ∈ nodesOf TURNS s.mem (freeList (descriptor D i)),
    s.held (IDX b) = true ∧ (getBlockArena b, descriptor D i) ∈ s.arenas
  calls : ∀ e, Enabled D s e → (∃ t, exec D s e = .ok t) ∨ (exec D s e = .error .panic ∧
    ∃ size page, e = .kmalloc size page ∧ ¬ Fresh s page (needed size))

theorem correct_of_inv (hD : Placed D) (hinv : Inv D K s) : Correct D s where
  disjoint := (List.pairwise_map.mp hinv.geometry.pointers).imp_of_mem fun hr hr' hne =>
    live_live hinv.geometry hr hr' hne
  held := fun r hr j hj => live_held hinv.geometry hr hj
  arenas := fun r hr q hq => live_arena hinv.geometry hr hq
  headers := fun r hr r' hr' hlarge => live_header hinv.geometry hr hr' hlarge
  once := hinv.geometry.once
  arena := by
    intro q hq
    obtain ⟨hon, hdesc⟩ := hinv.geometry.arena q hq
    exact ⟨hon.held 0 Nat.zero_lt_one, (hinv.holds.arena q hq).desc, hdesc⟩
  count := by
    intro q hq
    obtain ⟨-, i, hi, hdesc⟩ := hinv.geometry.arena q hq
    rw [hdesc, nodes_free hinv.geometry hinv.holds hi, ← hinv.tallied.count i hi q.1 (hdesc ▸ hq)]
    exact (hinv.holds.arena q hq).count
  pages := fun i hi => (hinv.holds.sizes i hi).pages.trans (hinv.tallied.pages i hi)
  free := by
    intro i hi b hb
    rw [nodes_free hinv.geometry hinv.holds hi] at hb
    obtain ⟨p, hp, hblock⟩ := hinv.geometry.free i hi b hb
    have hon := (hinv.geometry.arena _ hp).1
    obtain ⟨hlo, hhi⟩ := hblock.bounds
    have hbytes := bytes_ge i
    have hP : PAGE_SIZE = 4096 := rfl
    rw [hblock.arena hon.aligned]
    exact ⟨hon.held_at (by show p ≤ b; omega) (by show b < p + _; omega), hp⟩
  calls := by
    intro e he
    rcases exec_ok hD hinv he with ⟨t, K', hcall, -⟩ | hpanic
    · exact Or.inl ⟨t, hcall⟩
    · exact Or.inr hpanic

/-- The heap is correct in every state it reaches. -/
theorem heap_correct (hD : Placed D) (hs : Reach (system D) NeonixRuns.free s) : Correct D s := by
  obtain ⟨K, hinv⟩ := inv_reach hD hs
  exact correct_of_inv hD hinv

/-- After one allocation, with the descriptors at `0x20000`. -/
theorem heap_correct_one : ∃ s ptr, Reach (system 0x20000) NeonixRuns.free s ∧
    s.live = [(ptr, 100)] ∧ Correct 0x20000 s := by
  have hD : Placed 0x20000 := ⟨by decide, by decide⟩
  obtain ⟨m, hinit, -⟩ := arenaInit_ok (D := 0x20000) fun _ => 0
  obtain ⟨s, hs⟩ : ∃ s : Heap, s = ⟨m, fun _ => false, [], []⟩ := ⟨_, rfl⟩
  have hstart : (system 0x20000).init s := by
    rw [hs]
    exact ⟨fun _ => 0, hinit, fun _ => rfl, rfl, rfl⟩
  have hfresh : Fresh s 0x100000 (needed 100) := by
    rw [hs]
    exact ⟨by decide, by decide, by decide, fun _ _ => rfl⟩
  have he : Enabled 0x20000 s (.kmalloc 100 0x100000) := ⟨by decide, by decide⟩
  rcases kmalloc_ok 0x100000 hD (inv_init hstart) he.2 with
    ⟨ptr, s', -, hcall, hlive, -⟩ | ⟨-, hstale⟩
  · have hempty : Reach (system 0x20000) NeonixRuns.free s := Reach.start hstart
    have hreach := hempty.step trivial ⟨he, next_call hcall rfl⟩
    rw [hlive, hs] at hreach
    exact ⟨_, ptr, hreach, rfl, heap_correct hD hreach⟩
  · exact absurd hfresh hstale

end NeonixHeapRuns
