import Neonix.HeapChanges

/-! # `kmalloc` and `kfree`

    Each call is followed with the books: what they say after it, and that its
    assertions hold. -/

namespace NeonixHeapCalls

open NeonixMachine NeonixOutcome NeonixMemoryLists NeonixArenas NeonixHeapShape NeonixHeapChanges
open NeonixMemory (MEMORY_BASE KERNEL_MEMORY_SIZE PAGE_SIZE IDX pageCount)
open NeonixKernelPages (Separate)

variable {m m' : Words} {s : Heap} {F : Nat → List Nat} {K : Books} {X : List Nat}
  {b D i k p : Nat} {r : Nat × Nat}

/-- A call in front that returns. -/
theorem next_call {α β : Type} {x : Res α} {f : α → Res β} {a : α} {y : Res β} (hx : x = .ok a)
    (hf : f a = y) : x >>= f = y := by
  rw [hx]
  exact hf

theorem orStop_some {α : Type} {x : Option α} {a : α} (h : x = some a) : orStop x = .ok a := by
  rw [h]
  rfl

/-- The rule for a loop over words whose body returns. -/
theorem loop_returns {f : Nat → Words → Res Words} {I : Nat → Words → Prop} (n : Nat) (h0 : I 0 m)
    (hf : ∀ k m, k < n → I k m → ∃ m', f k m = .ok m' ∧ I (k + 1) m') :
    ∃ m', forLoop f 0 n m = .ok m' ∧ I n m' := by
  have hends := Ends.forLoop (fun _ => True) f 0 n m I h0 fun k m _ hk hI => by
    obtain ⟨m', hm', hI'⟩ := hf k m (by omega) hI
    rw [hm']
    exact hI'
  rw [Nat.zero_add] at hends
  cases hx : forLoop f 0 n m with
  | error e =>
      rw [hx] at hends
      exact absurd trivial hends
  | ok m' =>
      rw [hx] at hends
      exact ⟨m', rfl, hends⟩

/-- A heap, and what its words say. -/
structure Inv (D : Nat) (K : Books) (s : Heap) : Prop where
  geometry : Geometry D K.free s
  holds : Holds D K s
  tallied : Tallied D K s

/-! ## A new arena -/

section Blocks

variable (hD : Placed D) (h : Geometry D K.free s) (hm : Holds D K s) (hi : i < DESC_COUNT)
  (hp : (p, descriptor D i) ∈ s.arenas) (hk : k < blocks i)
include hm hi hp hk

theorem getArenaBlock_ok : getArenaBlock s.mem p k = .ok (block p i k) := by
  have hdesc : descOf s.mem p = descriptor D i := (hm.arena _ hp).desc
  have hsizes := hm.sizes i hi
  refine next_call (check_pos ?_) ?_
  · rw [hdesc, hsizes.total]
    exact hk
  · show Except.ok (p + ARENA_SIZE + k * blockSize s.mem (descOf s.mem p)) = _
    rw [hdesc, hsizes.size]
    rfl

include hD h

/-- A block is put on the list of the descriptor. -/
theorem pushBlock_ok (hno : block p i k ∉ K.free i) (hlive : ∀ r ∈ s.live, r.1 ≠ block p i k) :
    ∃ m', pushBlock p k s.mem = .ok m' ∧
      Geometry D (Function.update K.free i (block p i k :: K.free i)) s ∧
      Holds D { K with free := Function.update K.free i (block p i k :: K.free i) }
        { s with mem := m' } := by
  have hdesc : descOf s.mem p = descriptor D i := (hm.arena _ hp).desc
  obtain ⟨m', hpush, hm'⟩ := push_free hD h hm hi hp ⟨k, hk, rfl⟩ hno
  have h' := geometry_push h hi hp ⟨k, hk, rfl⟩ hno hlive
  have hdesc' : descOf m' p = descriptor D i := (hm'.arena _ hp).desc
  have hbefore := search_free h hm hi (block p i k)
  have hafter := search_free (geometry_words h' m') hm' hi (block p i k)
  rw [decide_eq_false hno] at hbefore
  rw [decide_eq_true (by simp)] at hafter
  refine ⟨m', ?_, h', hm'⟩
  rw [pushBlock]
  refine next_call (getArenaBlock_ok hm hi hp hk) ?_
  rw [hdesc]
  refine next_call (orStop_some hbefore) (next_call (check_pos rfl) ?_)
  refine next_call (orStop_some hpush) ?_
  rw [hdesc']
  exact next_call (orStop_some hafter) (next_call (check_pos rfl) rfl)

/-- A block is taken off the list of the descriptor. -/
theorem removeBlock_ok (hin : block p i k ∈ K.free i) :
    ∃ m', removeBlock p k s.mem = .ok m' ∧
      Geometry D (Function.update K.free i ((K.free i).erase (block p i k))) s ∧
      Holds D { K with free := Function.update K.free i ((K.free i).erase (block p i k)) }
        { s with mem := m' } := by
  have hdesc : descOf s.mem p = descriptor D i := (hm.arena _ hp).desc
  obtain ⟨m', hremove, hm'⟩ := remove_free hD h hm hi hin
  have h' := geometry_less h hi (List.erase_sublist (a := block p i k) (l := K.free i))
  have hdesc' : descOf m' p = descriptor D i := (hm'.arena _ hp).desc
  have hbefore := search_free h hm hi (block p i k)
  have hafter := search_free (geometry_words h' m') hm' hi (block p i k)
  rw [decide_eq_true hin] at hbefore
  rw [decide_eq_false (by simpa using (h.nodup i hi).not_mem_erase)] at hafter
  refine ⟨m', ?_, h', hm'⟩
  rw [removeBlock]
  refine next_call (getArenaBlock_ok hm hi hp hk) ?_
  rw [hdesc]
  refine next_call (orStop_some hbefore) (next_call (check_pos rfl) ?_)
  refine next_call (orStop_some hremove) ?_
  rw [hdesc']
  exact next_call (orStop_some hafter) (next_call (check_pos rfl) rfl)

end Blocks

/-- The list after so many blocks of an arena. -/
def pushed (p i : Nat) : Nat → List Nat
  | 0 => []
  | k + 1 => block p i k :: pushed p i k

theorem mem_pushed : b ∈ pushed p i k ↔ ∃ j < k, b = block p i j := by
  induction k with
  | zero => simp [pushed]
  | succ k ih =>
      rw [pushed, List.mem_cons, ih]
      constructor
      · rintro (rfl | ⟨j, hj, rfl⟩)
        · exact ⟨k, Nat.lt_succ_self k, rfl⟩
        · exact ⟨j, Nat.lt_succ_of_lt hj, rfl⟩
      · rintro ⟨j, hj, rfl⟩
        rcases Nat.lt_succ_iff_lt_or_eq.mp hj with hj | rfl
        · exact Or.inr ⟨j, hj, rfl⟩
        · exact Or.inl rfl

theorem pushed_length : (pushed p i k).length = k := by
  induction k with
  | zero => rfl
  | succ k ih => rw [pushed, List.length_cons, ih]

/-- All blocks of an arena are counted for its page, and for no other. -/
theorem pushed_counts (hp : p % PAGE_SIZE = 0) (q : Nat) :
    countIn (pushed p i (blocks i)) q = if q = p then blocks i else 0 := by
  have harena : ∀ b ∈ pushed p i (blocks i), getBlockArena b = p := by
    intro b hb
    obtain ⟨k, hk, rfl⟩ := mem_pushed.mp hb
    exact getBlockArena_block hp hk
  rw [countIn]
  by_cases hq : q = p
  · subst hq
    rw [if_pos rfl, List.filter_eq_self.mpr fun b hb => decide_eq_true (harena b hb), pushed_length]
  · rw [if_neg hq, List.filter_eq_nil_iff.mpr]
    · rfl
    · intro b hb
      rw [harena b hb, decide_eq_true_eq]
      exact Ne.symm hq

section NewArena

variable (hD : Placed D) (hi : i < DESC_COUNT)
include hD hi

/-- All blocks of an arena are put on an empty list. -/
theorem pushBlocks_ok (h : Geometry D K.free s) (hm : Holds D K s)
    (hp : (p, descriptor D i) ∈ s.arenas) (hnil : K.free i = [])
    (hlive : ∀ r ∈ s.live, ∀ k < blocks i, r.1 ≠ block p i k) :
    ∃ m', forLoop (pushBlock p) 0 (blocks i) s.mem = .ok m' ∧
      Geometry D (Function.update K.free i (pushed p i (blocks i))) s ∧
      Holds D { K with free := Function.update K.free i (pushed p i (blocks i)) }
        { s with mem := m' } := by
  refine loop_returns (I := fun k m => Geometry D (Function.update K.free i (pushed p i k)) s ∧
    Holds D { K with free := Function.update K.free i (pushed p i k) } { s with mem := m })
    (blocks i) ?_ ?_
  · rw [pushed, ← hnil, Function.update_eq_self]
    exact ⟨h, hm⟩
  · rintro k m hk ⟨hk1, hk2⟩
    have hno : block p i k ∉ (Function.update K.free i (pushed p i k)) i := by
      rw [Function.update_self, mem_pushed]
      rintro ⟨j, hj, heq⟩
      exact absurd (block_inj heq) (by omega)
    obtain ⟨m', hpush, hg, hw⟩ := pushBlock_ok hD (geometry_words hk1 m) hk2 hi hp hk hno
      fun r hr => hlive r hr k hk
    simp only [Function.update_self, Function.update_idem] at hg hw
    exact ⟨m', hpush, geometry_words hg s.mem, hw⟩

end NewArena

/-! ## Words of new pages -/

theorem setArena_other {arena desc large count w : Nat} (hw : ¬ (arena ≤ w ∧ w < arena + 16)) :
    setArena m arena desc large count w = m w := by
  simp only [setArena, store_apply]
  rw [if_neg (by omega), if_neg (by omega), if_neg (by omega), if_neg (by omega)]

section Words

variable {c d l n page : Nat}

/-- Pages that were not held are cleared. -/
theorem holds_clear (hD : Placed D) (hm : Holds D K s) (h : Geometry D K.free s)
    (hfresh : Fresh s page n) :
    Holds D K { s with mem := clear s.mem page (n * PAGE_SIZE) } := by
  refine hm.frame fun w hw => ?_
  rw [clear, if_neg (hw.not_fresh hD h hfresh)]

/-- Such a page gets a header. -/
theorem holds_setArena (hD : Placed D) (hm : Holds D K s) (h : Geometry D K.free s)
    (hfresh : Fresh s page n) (hn : 0 < n) :
    Holds D K { s with mem := setArena s.mem page d l c } := by
  refine hm.frame fun w hw => setArena_other fun hin => ?_
  have hpages : PAGE_SIZE ≤ n * PAGE_SIZE := Nat.le_mul_of_pos_left _ hn
  have hP : PAGE_SIZE = 4096 := rfl
  exact hw.not_fresh hD h hfresh ⟨hin.1, by omega⟩

/-- A page that is not an arena's is counted. -/
theorem holds_count (hm : Holds D K s) (hno : page ∉ s.arenas.map Prod.fst) :
    Holds D { K with count := Function.update K.count page c } s := by
  refine ⟨hm.sizes, hm.list, fun r hr => ?_, hm.large⟩
  show Header _ _ _ _ (Function.update K.count page c r.1)
  rw [Function.update_of_ne]
  · exact hm.arena r hr
  · rintro rfl
    exact hno (List.mem_map_of_mem hr)

end Words

theorem fresh_not_arena (h : Geometry D F s) (hfresh : Fresh s p 1) :
    p ∉ s.arenas.map Prod.fst := by
  intro hin
  obtain ⟨r, hr, rfl⟩ := List.mem_map.mp hin
  have hsep := arena_separate h hfresh Nat.zero_lt_one hr
  have hP : PAGE_SIZE = 4096 := rfl
  rw [Separate] at hsep
  omega

theorem blocks_pos (hi : i < DESC_COUNT) : 0 < blocks i := by
  have hall : ∀ i < 7, 0 < blocks i := by decide
  exact hall i hi

/-- `alloc_kpage` of fresh pages. -/
theorem allocKpage_fresh {count : Nat} (hcount : 0 < count) (hfresh : Fresh s p count) :
    allocKpage s p count =
      .ok { s with held := fun j => decide (IDX p ≤ j ∧ j < IDX p + count) || s.held j } := by
  refine next_call (check_pos hcount) ?_
  rw [if_pos hfresh]
  rfl

/-- A descriptor whose list is empty gets the blocks of a page. -/
theorem newArena_ok (hD : Placed D) (hinv : Inv D K s) (hi : i < DESC_COUNT) (hnil : K.free i = [])
    (hfresh : Fresh s p 1) : ∃ K' s', newArena s (descriptor D i) p = .ok s' ∧ Inv D K' s' ∧
      K'.free i ≠ [] ∧ s'.live = s.live := by
  obtain ⟨h, hm, ht⟩ := hinv
  have hno := fresh_not_arena h hfresh
  -- the words before the loop
  obtain ⟨m₁, hm₁⟩ : ∃ m₁, m₁ = clear s.mem p PAGE_SIZE := ⟨_, rfl⟩
  have hclear : Holds D K { s with mem := m₁ } := by
    have hcleared := holds_clear hD hm h hfresh
    rwa [Nat.one_mul, ← hm₁] at hcleared
  have hpages : pageCountOf m₁ (descriptor D i) = K.pages i := (hclear.sizes i hi).pages
  obtain ⟨m₂, hm₂⟩ : ∃ m₂, m₂ = m₁.store (descriptor D i + 8) (K.pages i + 1) := ⟨_, rfl⟩
  have hpaged : Holds D { K with pages := Function.update K.pages i (K.pages i + 1) }
      { s with mem := m₂ } := by
    rw [hm₂]
    exact holds_repage hD (geometry_words h m₁) hclear hi (K.pages i + 1)
  have htotal : totalBlock m₂ (descriptor D i) = blocks i := (hpaged.sizes i hi).total
  obtain ⟨m₃, hm₃⟩ : ∃ m₃, m₃ = setArena m₂ p (descriptor D i) 0 (blocks i) := ⟨_, rfl⟩
  have hheader : Holds D { K with pages := Function.update K.pages i (K.pages i + 1) }
      { s with mem := m₃ } := by
    rw [hm₃]
    exact holds_setArena hD hpaged (geometry_words h m₂) hfresh Nat.zero_lt_one
  have htotal' : totalBlock m₃ (descriptor D i) = blocks i := (hheader.sizes i hi).total
  obtain ⟨g, hg⟩ : ∃ g : Nat → Bool, g = fun j => decide (IDX p ≤ j ∧ j < IDX p + 1) || s.held j :=
    ⟨_, rfl⟩
  -- the books and the heap with the new arena
  obtain ⟨K₁, hK₁⟩ : ∃ K₁ : Books, K₁ = ⟨K.free, Function.update K.count p (blocks i),
      Function.update K.pages i (K.pages i + 1)⟩ := ⟨_, rfl⟩
  obtain ⟨s₁, hs₁⟩ : ∃ s₁ : Heap, s₁ = ⟨m₃, g, (p, descriptor D i) :: s.arenas, s.live⟩ := ⟨_, rfl⟩
  have hholds : Holds D K₁ s₁ := by
    have hcounted := holds_count (c := blocks i) hheader hno
    have hadded := holds_addArena hcounted (p := p) (d := descriptor D i) (by
      show Header m₃ p _ 0 (Function.update K.count p (blocks i) p)
      rw [Function.update_self, hm₃]
      exact setArena_header ..)
    rw [hK₁]
    exact holds_fewer hadded (by rw [hs₁]) (by rw [hs₁]; exact List.Subset.refl _)
      (by rw [hs₁]; exact List.Subset.refl _)
  have hgeometry : Geometry D K₁.free s₁ := by
    rw [hK₁, hs₁]
    refine geometry_words (geometry_addArena h (fun j hj => ?_) hfresh (fun j hj => ?_) hi) m₃
    · rw [hg]
      simp [hj]
    · rw [hg]
      simp
      omega
  have hp : (p, descriptor D i) ∈ s₁.arenas := by
    rw [hs₁]
    exact List.mem_cons_self
  have hlive : ∀ r ∈ s₁.live, ∀ k < blocks i, r.1 ≠ block p i k := by
    intro r hr k hk heq
    rw [hs₁] at hr
    have hend := block_end (p := p) hk
    have hstart : p + 16 ≤ block p i k := le_block
    have hbytes := bytes_ge i
    have hP : PAGE_SIZE = 4096 := rfl
    exact live_not_fresh h hfresh Nat.zero_lt_one hr (by omega)
  have hnil₁ : K₁.free i = [] := by
    rw [hK₁]
    exact hnil
  obtain ⟨m₄, hloop, hgeometry', hholds'⟩ := pushBlocks_ok hD hi hgeometry hholds hp hnil₁ hlive
  refine ⟨_, { s₁ with mem := m₄ }, ?_, ⟨geometry_words hgeometry' m₄, hholds', ?_, ?_⟩, ?_, ?_⟩
  · have htaken := allocKpage_fresh Nat.zero_lt_one hfresh
    rw [← hg] at htaken
    have hmem : s₁.mem = m₃ := by rw [hs₁]
    rw [hmem] at hloop
    refine next_call htaken ?_
    simp only [← hm₁, hpages, ← hm₂, htotal, ← hm₃, htotal']
    refine next_call hloop ?_
    rw [hs₁]
    rfl
  · intro j hj q hq
    show K₁.count q = countIn (Function.update K₁.free i (pushed p i (blocks i)) j) q
    rw [hK₁]
    show Function.update K.count p (blocks i) q = _
    by_cases hij : j = i
    · subst hij
      rw [Function.update_self, pushed_counts hfresh.1]
      by_cases hqp : q = p
      · rw [if_pos hqp, hqp, Function.update_self]
      · have hold : (q, descriptor D j) ∈ s.arenas := by
          rw [hs₁] at hq
          exact (List.mem_cons.mp hq).resolve_left fun heq => hqp (congrArg Prod.fst heq)
        rw [if_neg hqp, Function.update_of_ne hqp, ht.count j hj q hold, hnil]
        rfl
    · have hold : (q, descriptor D j) ∈ s.arenas := by
        rw [hs₁] at hq
        exact (List.mem_cons.mp hq).resolve_left fun heq =>
          hij (descriptor_inj (congrArg Prod.snd heq))
      have hqp : q ≠ p := by
        rintro rfl
        exact hno (List.mem_map.mpr ⟨_, hold, rfl⟩)
      rw [Function.update_of_ne hqp, Function.update_of_ne hij]
      exact ht.count j hj q hold
  · intro j hj
    rw [hK₁, hs₁]
    show Function.update K.pages i (K.pages i + 1) j =
      (((p, descriptor D i) :: s.arenas).filter _).length
    by_cases hij : j = i
    · subst hij
      rw [Function.update_self, ht.pages j hj]
      simp
    · have hne : descriptor D i ≠ descriptor D j := fun hd => hij (descriptor_inj hd).symm
      rw [Function.update_of_ne hij, ht.pages j hj]
      simp [hne]
  · show Function.update K₁.free i _ i ≠ []
    rw [Function.update_self]
    refine List.ne_nil_of_length_pos ?_
    rw [pushed_length]
    exact blocks_pos hi
  · rw [hs₁]

/-! ## `kmalloc` -/

theorem countIn_cons (b : Nat) (X : List Nat) (p : Nat) :
    countIn (b :: X) p = if getBlockArena b = p then countIn X p + 1 else countIn X p := by
  rw [countIn, countIn]
  by_cases hb : getBlockArena b = p
  · rw [if_pos hb, List.filter_cons_of_pos (by simpa using hb), List.length_cons]
  · rw [if_neg hb, List.filter_cons_of_neg (by simpa using hb)]

theorem countIn_lt (h : Geometry D F s) (hi : i < DESC_COUNT) (p : Nat) :
    countIn (F i) p < 2 ^ 32 - 1 := by
  have hlen := free_short h hi
  have hle := List.length_filter_le (fun b => decide (getBlockArena b = p)) (F i)
  have hturns : TURNS = 2 ^ 20 + 1 := rfl
  rw [countIn]
  omega

section Kmalloc

variable {page size : Nat}

/-- The first descriptor whose blocks are large enough. -/
theorem findDescriptor_ok (hm : Holds D K s) (hsize : size ≤ 1024) :
    ∀ left i desc, 0 < left → left + i = DESC_COUNT → ∃ j < DESC_COUNT,
      findDescriptor D s.mem size left i desc = descriptor D j ∧ size ≤ bytes j := by
  intro left
  induction left with
  | zero => exact fun _ _ hpos => absurd hpos (Nat.lt_irrefl 0)
  | succ left ih =>
      intro i desc _ hi
      have hlt : i < DESC_COUNT := by omega
      have hblock : blockSize s.mem (descriptor D i) = bytes i := (hm.sizes i hlt).size
      show ∃ j < DESC_COUNT, (if blockSize s.mem (descriptor D i) ≥ size then descriptor D i
        else findDescriptor D s.mem size left (i + 1) (descriptor D i)) = _ ∧ _
      rw [hblock]
      by_cases hfits : size ≤ bytes i
      · rw [if_pos hfits]
        exact ⟨i, hlt, rfl, hfits⟩
      · rw [if_neg hfits]
        refine ih (i + 1) _ (Nat.pos_of_ne_zero fun hleft => hfits ?_) (by omega)
        -- the blocks of the last descriptor have 1024 bytes
        subst hleft
        have hlast : i = 6 := by
          change 0 + 1 + i = 7 at hi
          omega
        rw [hlast]
        exact hsize

/-- The end of `kmalloc`, when the list has a block. -/
def popBlock (s : Heap) (desc : Nat) : Res (Nat × Heap) := do
  let (block, m) ← orStop (listPop s.mem (freeList desc))
  let arena := getBlockArena block
  check (magicOf m arena = NEONIX_MAGIC ∧ ¬ largeOf m arena ≠ 0)
  return (block, { s with mem := m.store (arena + 4) ((countOf m arena + (2 ^ 32 - 1)) % 2 ^ 32) })

/-- The first block of a list becomes an allocation. -/
theorem take_ok (hD : Placed D) (hinv : Inv D K s) (hi : i < DESC_COUNT) (hsome : K.free i ≠ [])
    (hsmall : size ≤ 1024) (hsize : size ≤ bytes i) :
    ∃ ptr s' K', popBlock s (descriptor D i) = .ok (ptr, s') ∧ s'.live = s.live ∧
      Inv D K' { s' with live := (ptr, size) :: s.live } := by
  obtain ⟨h, hm, ht⟩ := hinv
  obtain ⟨b, X, hfree⟩ := List.exists_cons_of_ne_nil hsome
  obtain ⟨m', hpop, hm'⟩ := pop_free hD h hm hi hfree
  have hb : b ∈ K.free i := hfree ▸ List.mem_cons_self
  obtain ⟨p, hp, hblock⟩ := h.free i hi b hb
  have harena := hblock.arena (h.arena _ hp).1.aligned
  have hheader : Header m' p (descriptor D i) 0 (K.count p) := hm'.arena _ hp
  have hnodup := h.nodup i hi
  rw [hfree] at hnodup
  have hX : X.Sublist (K.free i) := hfree ▸ List.sublist_cons_self b X
  have hless := geometry_less h hi hX
  -- the block was counted
  have hcount := ht.count i hi p hp
  have hshort := countIn_lt h hi p
  rw [hfree, countIn_cons, if_pos harena] at hcount hshort
  have hnew : (countOf m' p + (2 ^ 32 - 1)) % 2 ^ 32 = countIn X p := by
    rw [hheader.count, hcount]
    omega
  have hrecount := holds_recount hD (geometry_words hless m') hm' hp (countIn X p)
  have hadded := geometry_addSmall hless hi hp hblock (by simpa using (List.nodup_cons.mp hnodup).1)
    (free_not_live h hi hb) hsmall hsize
  have hcall : popBlock s (descriptor D i) =
      .ok (b, { s with mem := m'.store (p + 4) (countIn X p) }) := by
    rw [popBlock, orStop_some hpop, bind_ok]
    simp only [harena, hnew]
    exact next_call (check_pos ⟨hheader.magic, fun hne => hne hheader.large⟩) rfl
  refine ⟨b, _, _, hcall, rfl, geometry_words hadded _, holds_addLive hrecount fun hlarge =>
    absurd hlarge (by show ¬ 1024 < size; omega), ?_, ht.pages⟩
  intro j hj q hq
  show Function.update K.count p (countIn X p) q = countIn (Function.update K.free i X j) q
  by_cases hqp : q = p
  · subst hqp
    rw [Function.update_self, descriptor_inj (h.same_arena hq hp), Function.update_self]
  · rw [Function.update_of_ne hqp]
    rw [ht.count j hj q hq]
    by_cases hij : j = i
    · subst hij
      rw [Function.update_self, hfree, countIn_cons, if_neg fun heq => hqp (heq.symm.trans harena)]
    · rw [Function.update_of_ne hij]

/-- The pages that an allocation may need. -/
def needed (size : Nat) : Nat := if size > 1024 then pagesOf size else 1

/-- No addition wraps for a size of the kernel's memory. -/
theorem pageCount_eq (hsize : size ≤ KERNEL_MEMORY_SIZE) :
    pageCount ((size + ARENA_SIZE) % 2 ^ 32) = pagesOf size := by
  change size ≤ 0x1000000 at hsize
  show ((size + 16) % 2 ^ 32 + 4096 - 1) % 2 ^ 32 / 4096 = (size + 16 + 4095) / 4096
  omega

theorem kmallocLarge_ok (hD : Placed D) (hinv : Inv D K s) (hlarge : 1024 < size)
    (hsize : size ≤ KERNEL_MEMORY_SIZE) (hfresh : Fresh s page (pagesOf size)) :
    ∃ ptr s', kmallocLarge s size page = .ok (ptr, s') ∧ s'.live = s.live ∧
      Inv D K { s' with live := (ptr, size) :: s.live } := by
  obtain ⟨h, hm, ht⟩ := hinv
  have hpos := pagesOf_pos size
  obtain ⟨g, hg⟩ : ∃ g : Nat → Bool,
      g = fun j => decide (IDX page ≤ j ∧ j < IDX page + pagesOf size) || s.held j := ⟨_, rfl⟩
  have htaken := allocKpage_fresh hpos hfresh
  rw [← hg] at htaken
  have hclear := holds_clear hD hm h hfresh
  have hheader := holds_setArena (d := 0) (l := 1) (c := pagesOf size) hD hclear
    (geometry_words h _) hfresh hpos
  refine ⟨page + ARENA_SIZE, { s with
    mem := setArena (clear s.mem page (pagesOf size * PAGE_SIZE)) page 0 1 (pagesOf size), held := g },
    ?_, rfl, ?_, ?_, ⟨ht.count, ht.pages⟩⟩
  · rw [kmallocLarge, pageCount_eq hsize]
    exact next_call htaken rfl
  · refine geometry_words (geometry_addLarge h (fun j hj => ?_) hlarge hfresh fun j hj => ?_) _
    · rw [hg]
      simp [hj]
    · rw [hg]
      simp
      omega
  · have hadded := holds_addLive (r := (page + ARENA_SIZE, size)) hheader fun _ => by
      rw [Nat.add_sub_cancel]
      exact setArena_header ..
    exact holds_fewer hadded rfl (List.Subset.refl _) (List.Subset.refl _)

theorem allocKpage_stale {count : Nat} (hcount : 0 < count) (hstale : ¬ Fresh s page count) :
    allocKpage s page count = .error .panic := by
  refine next_call (check_pos hcount) ?_
  rw [if_neg hstale]

/-- `kmalloc` returns, or there are no pages for it. -/
theorem kmalloc_ok (page : Nat) (hD : Placed D) (hinv : Inv D K s)
    (hhi : size ≤ KERNEL_MEMORY_SIZE) :
    (∃ ptr s' K', kmalloc D s size page = .ok (ptr, s') ∧ s'.live = s.live ∧
      Inv D K' { s' with live := (ptr, size) :: s.live }) ∨
    (kmalloc D s size page = .error .panic ∧ ¬ Fresh s page (needed size)) := by
  by_cases hlarge : size > 1024
  · rw [kmalloc, if_pos hlarge, needed, if_pos hlarge]
    by_cases hfresh : Fresh s page (pagesOf size)
    · obtain ⟨ptr, s', hcall, hlive, hinv'⟩ := kmallocLarge_ok hD hinv hlarge hhi hfresh
      exact Or.inl ⟨ptr, s', K, hcall, hlive, hinv'⟩
    · refine Or.inr ⟨?_, hfresh⟩
      rw [kmallocLarge, pageCount_eq hhi, allocKpage_stale (pagesOf_pos size) hfresh]
      rfl
  · have hsmall : size ≤ 1024 := Nat.le_of_not_lt hlarge
    obtain ⟨i, hi, hfind, hsize⟩ := findDescriptor_ok hinv.holds hsmall DESC_COUNT 0 0 (by decide) rfl
    have hdesc : descriptor D i ≠ 0 := by
      have hpos := hD.1
      rw [descriptor]
      omega
    rw [kmalloc, if_neg hlarge, needed, if_neg hlarge, hfind]
    simp only [check_pos hdesc, bind_ok, (hinv.holds.list i hi).empty_iff, decide_eq_true_eq]
    by_cases hnil : K.free i = []
    · rw [if_pos hnil]
      by_cases hfresh : Fresh s page 1
      · obtain ⟨K₁, s₁, hcall, hinv₁, hsome, hlive⟩ := newArena_ok hD hinv hi hnil hfresh
        rw [hcall, ← hlive]
        exact Or.inl (take_ok hD hinv₁ hi hsome hsmall hsize)
      · refine Or.inr ⟨?_, hfresh⟩
        rw [newArena, allocKpage_stale Nat.zero_lt_one hfresh]
        rfl
    · rw [if_neg hnil]
      exact Or.inl (take_ok hD hinv hi hnil hsmall hsize)

end Kmalloc

end NeonixHeapCalls
