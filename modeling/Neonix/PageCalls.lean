import Neonix.PageSteps

/-! # The calls that change one mapping

    One lemma for each function of `memory.c` up to `page_fault`: it stops for
    no reference count, and it keeps, for a task on directory `x`, exact counts,
    the copy-on-write discipline, and what every other directory shows
    (`Kept`).  Callers use these and never look into the function again. -/

namespace NeonixPageCalls

open NeonixMachine NeonixOutcome NeonixMemory NeonixPageRefs NeonixPageSteps

/-- The copy-on-write discipline: a page that is not shared and that an entry
    lets the user write has one reference, and the entries of a page agree on
    whether it is shared. -/
structure Private (m : Memory) : Prop where
  alone : ∀ x d t e, Maps m.toPaging x d t e → e.shared = false → e.write = true →
    m.memory_map e.index = 1
  agree : ∀ x d t e y d' t' e', Maps m.toPaging x d t e → Maps m.toPaging y d' t' e' →
    e'.index = e.index → e'.shared = e.shared

/-- What directory `y` shows did not change. -/
structure Unseen (y : Space) (m m' : Memory) : Prop where
  slot : m'.slot y = m.slot y
  table : ∀ d, Counts d → (m.slot y d).present = true →
    m'.table (m.slot y d).index = m.table (m.slot y d).index
  data : ∀ p, p < KERNEL_PAGES ∨ 0 < spaceRefs m.toPaging y p → m'.data p = m.data p

/-- What every call of a task on directory `x` keeps. -/
structure Held (x : Space) (m m' : Memory) : Prop where
  sound : Sound m'
  dirs : ∀ y, (m'.dirs y).isSome = (m.dirs y).isSome
  unseen : ∀ y, y ≠ x → Unseen y m m'

/-- What a call keeps that respects the discipline. -/
structure Kept (x : Space) (m m' : Memory) : Prop extends Held x m m' where
  cow : Private m → Private m'

variable {m m' : Memory} {x : Space}

/-! ## Rules -/

theorem Unseen.refl (y : Space) (m : Memory) : Unseen y m m :=
  ⟨rfl, fun _ _ _ => rfl, fun _ _ => rfl⟩

theorem Unseen.spaceRefs {y : Space} (h : Unseen y m m') (p : Nat) :
    spaceRefs m'.toPaging y p = spaceRefs m.toPaging y p := by
  refine congrFun (rangeRefs_congr (fun d _ _ => congrFun h.slot d) fun d h1 h2 hp => ?_) p
  exact h.table d ⟨h1, h2⟩ hp

theorem Unseen.trans {y : Space} {m'' : Memory} (h : Unseen y m m') (h' : Unseen y m' m'') :
    Unseen y m m'' where
  slot := h'.slot.trans h.slot
  table := fun d hd hp => by
    have h2 := h'.table d hd (by rw [h.slot]; exact hp)
    rw [h.slot] at h2
    exact h2.trans (h.table d hd hp)
  data := fun p hp => (h'.data p (by rw [h.spaceRefs]; exact hp)).trans (h.data p hp)

/-- Equal parts show the same. -/
theorem Unseen.of_eq {y : Space} (hp : m'.toPaging = m.toPaging) (hd : m'.data = m.data) :
    Unseen y m m' where
  slot := by
    show m'.toPaging.slot y = m.toPaging.slot y
    rw [hp]
  table := fun _ _ _ => by rw [hp]
  data := fun _ _ => by rw [hd]

/-- A load below the window finds the same byte. -/
theorem Unseen.read {y : Space} (h : Unseen y m m') {vaddr : Nat} (hv : vaddr < PDE_MASK) :
    m'.read y vaddr = m.read y vaddr := by
  by_cases hk : vaddr < USER_EXEC_ADDR
  · have hp : IDX vaddr < KERNEL_PAGES := Nat.div_lt_of_lt_mul hk
    simp only [Memory.read, if_pos hk, h.data _ (Or.inl hp)]
  · have hd : Counts (DIDX vaddr) := by
      simp only [Counts, DIDX, FIRST_SLOT, SELF_SLOT, PDE_MASK, USER_EXEC_ADDR,
        KERNEL_MEMORY_SIZE] at *
      omega
    simp only [Memory.read, if_neg hk, Paging.walk, h.slot]
    by_cases hs : (m.slot y (DIDX vaddr)).present = true
    · rw [h.table _ hd hs]
      by_cases he : (m.table (m.slot y (DIDX vaddr)).index (TIDX vaddr)).present = true
      · have hm : Maps m.toPaging y (DIDX vaddr) (TIDX vaddr) _ :=
          ⟨hd, Nat.mod_lt _ (by decide), hs, rfl, he⟩
        rw [if_pos ⟨hs, he⟩, Option.map_some, Option.map_some, h.data _ (Or.inr hm.referenced)]
      · rw [if_neg (fun hn => he hn.2)]
        rfl
    · rw [if_neg (fun hn => hs hn.1), if_neg (fun hn => hs hn.1)]
      rfl

theorem Held.refl (h : Sound m) : Held x m m := ⟨h, fun _ => rfl, fun y _ => Unseen.refl y m⟩

theorem Held.trans {m'' : Memory} (h : Held x m m') (h' : Held x m' m'') : Held x m m'' where
  sound := h'.sound
  dirs := fun y => (h'.dirs y).trans (h.dirs y)
  unseen := fun y hy => (h.unseen y hy).trans (h'.unseen y hy)

theorem Kept.refl (h : Sound m) : Kept x m m := ⟨Held.refl h, id⟩

theorem Kept.trans {m'' : Memory} (h : Kept x m m') (h' : Kept x m' m'') : Kept x m m'' :=
  ⟨h.toHeld.trans h'.toHeld, h'.cow ∘ h.cow⟩

theorem Held.live (h : Held x m m') (hl : (m.dirs x).isSome) : (m'.dirs x).isSome := by
  rw [h.dirs]
  exact hl

/-- Fewer mappings, and the counts of the pages the user may write unchanged. -/
theorem Private.mono (h : Private m)
    (hm : ∀ x d t e, Maps m'.toPaging x d t e → Maps m.toPaging x d t e)
    (hc : ∀ x d t e, Maps m.toPaging x d t e → e.shared = false → e.write = true →
      m'.memory_map e.index = m.memory_map e.index) : Private m' where
  alone := fun x d t e he hs hw => by
    rw [hc x d t e (hm x d t e he) hs hw]
    exact h.alone x d t e (hm x d t e he) hs hw
  agree := fun x d t e y d' t' e' he he' hi =>
    h.agree x d t e y d' t' e' (hm x d t e he) (hm y d' t' e' he') hi

/-! ## Mappings after a change -/

variable {E : Nat → Nat}

/-- The mappings after one entry of the table in slot `d` of `x` changed. -/
theorem maps_setEntry (h : Counted m E) {d t : Nat} (hd : Counts d)
    (hs : (m.slot x d).present = true) {e e' : Entry} {y : Space} {d' t' : Nat}
    (hm : Maps (m.setEntry (m.slot x d).index t e).toPaging y d' t' e') :
    (y = x ∧ d' = d ∧ t' = t ∧ e' = e) ∨
      (¬ (y = x ∧ d' = d ∧ t' = t) ∧ Maps m.toPaging y d' t' e') := by
  obtain ⟨hd', ht', hs', he, hp⟩ := hm
  have hs'' : (m.slot y d').present = true := hs'
  have he' : Function.update m.table (m.slot x d).index
      (Function.update (m.table (m.slot x d).index) t e) (m.slot y d').index t' = e' := he
  by_cases hq : (m.slot y d').index = (m.slot x d).index
  · obtain ⟨rfl, rfl⟩ := h.slot_unique hd hd' hs hs'' hq
    rw [Function.update_self] at he'
    by_cases htt : t' = t
    · subst htt
      rw [Function.update_self] at he'
      exact Or.inl ⟨rfl, rfl, rfl, he'.symm⟩
    · rw [Function.update_of_ne htt] at he'
      exact Or.inr ⟨fun hn => htt hn.2.2, hd', ht', hs'', he', hp⟩
  · rw [Function.update_of_ne hq] at he'
    refine Or.inr ⟨?_, hd', ht', hs'', he', hp⟩
    rintro ⟨rfl, rfl, _⟩
    exact hq rfl

/-- An entry is set to one that respects the discipline. -/
theorem Private.setEntry (hP : Private m) (h : Counted m E) {d t : Nat} (hd : Counts d)
    (hs : (m.slot x d).present = true) {e : Entry}
    (halone : e.present = true → e.shared = false → e.write = true → m.memory_map e.index = 1)
    (hagree : e.present = true → ∀ y d' t' e', Maps m.toPaging y d' t' e' →
      ¬ (y = x ∧ d' = d ∧ t' = t) → e'.index = e.index → e'.shared = e.shared) :
    Private (m.setEntry (m.slot x d).index t e) where
  alone := by
    intro y d' t' e' hm hsh hw
    rcases maps_setEntry h hd hs hm with ⟨rfl, rfl, rfl, rfl⟩ | ⟨_, hold⟩
    · exact halone hm.2.2.2.2 hsh hw
    · exact hP.alone y d' t' e' hold hsh hw
  agree := by
    intro y d₁ t₁ e₁ z d₂ t₂ e₂ h1 h2 hi
    rcases maps_setEntry h hd hs h1 with ⟨rfl, rfl, rfl, rfl⟩ | ⟨hne1, h1'⟩
    · rcases maps_setEntry h hd hs h2 with ⟨rfl, rfl, rfl, rfl⟩ | ⟨hne2, h2'⟩
      · rfl
      · exact hagree h1.2.2.2.2 z d₂ t₂ e₂ h2' hne2 hi
    · rcases maps_setEntry h hd hs h2 with ⟨rfl, rfl, rfl, rfl⟩ | ⟨hne2, h2'⟩
      · exact (hagree h2.2.2.2.2 y d₁ t₁ e₁ h1' hne1 hi.symm).symm
      · exact hP.agree y d₁ t₁ e₁ z d₂ t₂ e₂ h1' h2' hi

/-- A mapped page is referred to. -/
theorem maps_refs {d t : Nat} {e : Entry} (hm : Maps m.toPaging x d t e) :
    0 < refs m.toPaging e.index :=
  lt_of_lt_of_le hm.referenced (space_le_refs x e.index)

/-- The count of a mapped page between calls. -/
theorem sound_mapped (h : Sound m) {d t : Nat} {e : Entry} (hm : Maps m.toPaging x d t e) :
    m.memory_map e.index = refs m.toPaging e.index := by
  have hx : m.memory_map e.index = refs m.toPaging e.index + 0 :=
    h.exact_of_pos (Nat.add_pos_left (maps_refs hm) _)
  rw [hx, Nat.add_zero]

theorem maps_setPage {q : Nat} (hq : refs m.toPaging q = 0) {entries : Nat → Entry}
    {bytes : Nat → NeonixByteBits.Byte} {y : Space} {d t : Nat} {e : Entry}
    (hm : Maps (m.setPage q entries bytes).toPaging y d t e) : Maps m.toPaging y d t e := by
  obtain ⟨hd, ht, hs, he, hp⟩ := hm
  refine ⟨hd, ht, hs, ?_, hp⟩
  have hne : (m.slot y d).index ≠ q := by
    intro hiq
    have hr := table_referenced (P := m.toPaging) hd hs
    have hle := space_le_refs (P := m.toPaging) y (m.slot y d).index
    rw [hiq] at hr hle
    omega
  have he' : Function.update m.table q entries (m.slot y d).index t = e := he
  rw [Function.update_of_ne hne] at he'
  exact he'

/-- A new empty table maps nothing. -/
theorem maps_install {q d : Nat} (hT : ∀ t, t < 1024 → (m.table q t).present = false) {y : Space}
    {d' t : Nat} {e : Entry} (hm : Maps (m.setSlot x d (entryInit q)).toPaging y d' t e) :
    Maps m.toPaging y d' t e := by
  obtain ⟨hd', ht, hs, he, hp⟩ := hm
  by_cases hyd : y = x ∧ d' = d
  · obtain ⟨rfl, rfl⟩ := hyd
    rw [slot_setSlot_self] at he
    have : (m.table q t).present = true := by
      rw [show m.table q t = e from he]
      exact hp
    rw [hT t ht] at this
    cases this
  · rw [slot_setSlot_other m hyd] at hs he
    exact ⟨hd', ht, hs, he, hp⟩

/-! ## `get_page` and `put_page` -/

theorem ends_getPage (m : Memory) : Ends badCount (getPage m) fun r =>
    m.memory_map r.1 = 0 ∧ r.1 < m.total_pages ∧ ∃ f, r.2 = taken m r.1 f := by
  rw [getPage]
  cases hf : freePage m with
  | none =>
      intro hc
      cases hc
  | some i =>
      have hz : m.memory_map i = 0 := by
        have := List.find?_some hf
        exact of_decide_eq_true this
      have hi : i < m.total_pages := by
        obtain ⟨k, hk, rfl⟩ := List.mem_range'.mp (List.mem_of_find?_eq_some hf)
        omega
      exact ⟨hz, hi, _, rfl⟩

theorem ends_checkCount {bad : Stop → Prop} {p : Prop} [Decidable p] (hp : p) :
    Ends bad (checkCount p) fun _ => True := by
  rw [checkCount, if_pos hp]
  trivial

theorem not_bad_assertion : ¬ badCount .assertion := by
  intro h
  cases h

/-- `put_page` of a page with a reference. -/
theorem ends_putPage {p : Nat} (hp : 1 ≤ m.memory_map p) :
    Ends badCount (putPage m p) fun r => ∃ f, r = dropped m p f := by
  refine (ends_check not_bad_assertion fun _ => ?_ : Ends badCount (check _) fun _ => True).bind
    fun _ _ => ?_
  · trivial
  refine (ends_checkCount hp).bind fun _ _ => ?_
  refine (ends_check not_bad_assertion fun _ => ?_ : Ends badCount (check _) fun _ => True).bind
    fun _ _ => ?_
  · trivial
  exact ⟨_, rfl⟩

theorem Private.taken (hP : Private m) (h : Counted m E) {p : Nat} (hp : m.memory_map p = 0)
    (f : UInt32) : Private (taken m p f) := by
  refine hP.mono (fun _ _ _ _ hm => hm) fun x d t e hm _ _ => ?_
  refine Function.update_of_ne ?_ _ _
  intro he
  have hr := maps_refs hm
  rw [he, (h.unused hp).2.1] at hr
  omega

theorem Private.dropped (hP : Private m) {p : Nat} (h : Counted m fun q => E q + one p q)
    (f : UInt32) : Private (dropped m p f) := by
  refine hP.mono (fun _ _ _ _ hm => hm) fun x d t e hm hs hw => ?_
  refine Function.update_of_ne ?_ _ _
  intro he
  -- the entry and the dropped reference are two
  have h1 := hP.alone x d t e hm hs hw
  have hr := maps_refs hm
  rw [h.exact_of_pos (by omega), he, one_self] at h1
  rw [he] at hr
  omega

/-! ## What other directories show -/

/-- A page the directory does not refer to is filled. -/
theorem unseen_setPage {q : Nat} (hk : KERNEL_PAGES ≤ q) (hq : refs m.toPaging q = 0)
    (entries : Nat → Entry) (bytes : Nat → NeonixByteBits.Byte) (y : Space) :
    Unseen y m (m.setPage q entries bytes) := by
  have hy := space_le_refs (P := m.toPaging) y q
  refine ⟨rfl, fun d hd hs => ?_, fun p hp => ?_⟩
  · refine Function.update_of_ne ?_ _ _
    intro he
    have := table_referenced (P := m.toPaging) hd hs
    rw [he] at this
    omega
  · refine Function.update_of_ne ?_ _ _
    rintro rfl
    rcases hp with hlt | hpos
    · omega
    · omega

/-- Another directory changes. -/
theorem unseen_setDir {y : Space} (hy : y ≠ x) (dir : Option (Nat → Entry)) :
    Unseen y m (m.setDir x dir) :=
  ⟨slot_setDir_other hy dir, fun _ _ _ => rfl, fun _ _ => rfl⟩

/-- An entry of a table of directory `x` changes. -/
theorem unseen_setEntry (h : Counted m E) {d : Nat} (hd : Counts d)
    (hs : (m.slot x d).present = true) (t : Nat) (e : Entry) {y : Space} (hy : y ≠ x) :
    Unseen y m (m.setEntry (m.slot x d).index t e) := by
  refine ⟨rfl, fun d' hd' hs' => ?_, fun _ _ => rfl⟩
  refine Function.update_of_ne ?_ _ _
  intro hq
  exact hy (h.slot_unique hd hd' hs hs' hq).1

/-! ## `get_pte` -/

/-- What `get_pte` returns and leaves. -/
structure TableOf (x : Space) (vaddr : Nat) (m : Memory) (q : Nat) (m' : Memory) : Prop where
  kept : Kept x m m'
  present : (m'.slot x (DIDX vaddr)).present = true
  index : (m'.slot x (DIDX vaddr)).index = q
  maps : ∀ d t e, Maps m'.toPaging x d t e →
    Maps m.toPaging x d t e ∧ m'.memory_map e.index = m.memory_map e.index

/-- A table that is there. -/
theorem getPte_present {vaddr : Nat} (hs : (m.slot x (DIDX vaddr)).present = true)
    (create : Bool) : getPte m x vaddr create = .ok ((m.slot x (DIDX vaddr)).index, m) := by
  rw [getPte, check_pos (Or.inr hs), bind_ok, if_pos hs]
  rfl

/-- A call that may not make a table finds one. -/
theorem ends_getPte_false (m : Memory) (x : Space) (vaddr : Nat) :
    Ends badCount (getPte m x vaddr false) fun r =>
      (m.slot x (DIDX vaddr)).present = true ∧ r = ((m.slot x (DIDX vaddr)).index, m) := by
  by_cases hs : (m.slot x (DIDX vaddr)).present = true
  · rw [getPte_present hs]
    exact ⟨hs, rfl⟩
  · rw [getPte, check_neg (fun h => h.elim (fun hf => by cases hf) hs), bind_error]
    exact not_bad_assertion

/-- What a new table leaves. -/
def tabled (m : Memory) (x : Space) (d p : Nat) (f : UInt32) : Memory :=
  ((taken m p f).setPage p (fun _ => .clear) (fun _ => 0)).setSlot x d (entryInit p)

theorem counted_tabled (h : Counted m E) {p d : Nat} (hd : Counts d)
    (ha : (m.slot x d).present = false) (hp : m.memory_map p = 0) (ht : p < m.total_pages)
    (f : UInt32) : Counted (tabled m x d p f) E := by
  obtain ⟨_, hr, _⟩ := h.unused hp
  refine ((h.take hp ht f).setPage hr _ _).install hd ha ?_ fun q => ?_
  · rw [← hr]
    exact congrFun (refs_setTable_of_zero hr _) p
  · rw [show (((taken m p f).setPage p (fun _ => .clear) (fun _ => 0)).table p)
      = fun _ => Entry.clear from Function.update_self ..]
    exact tableRefs_clear q

theorem tabled_kept (h : Sound m) (hl : (m.dirs x).isSome) {p d : Nat} (hd : Counts d)
    (ha : (m.slot x d).present = false) (hp : m.memory_map p = 0) (ht : p < m.total_pages)
    (f : UInt32) : Kept x m (tabled m x d p f) ∧
    ∀ y d' t e, Maps (tabled m x d p f).toPaging y d' t e →
      Maps m.toPaging y d' t e ∧ (tabled m x d p f).memory_map e.index = m.memory_map e.index := by
  obtain ⟨hk, hr, _⟩ := h.unused hp
  have hmaps : ∀ y d' t e, Maps (tabled m x d p f).toPaging y d' t e → Maps m.toPaging y d' t e :=
    fun y d' t e hm => maps_setPage (m := taken m p f) hr (maps_install
      (fun t _ => by
        rw [show (((taken m p f).setPage p (fun _ => .clear) (fun _ => 0)).table p)
          = fun _ => Entry.clear from Function.update_self ..]
        rfl) hm)
  have hcount : ∀ y d' t e, Maps m.toPaging y d' t e →
      (tabled m x d p f).memory_map e.index = m.memory_map e.index := by
    intro y d' t e hm
    refine Function.update_of_ne ?_ _ _
    intro he
    have := maps_refs hm
    rw [he, hr] at this
    omega
  refine ⟨⟨⟨counted_tabled h hd ha hp ht f, fun y => ?_, fun y hy => ?_⟩, fun hP => ?_⟩,
    fun y d' t e hm => ?_⟩
  · show (Function.update m.dirs x _ y).isSome = _
    by_cases hy : y = x
    · subst hy
      rw [Function.update_self, hl]
      rfl
    · rw [Function.update_of_ne hy]
  · have htaken : Unseen y m (taken m p f) := Unseen.of_eq rfl rfl
    exact (htaken.trans (unseen_setPage (m := taken m p f) hk hr _ _ y)).trans (unseen_setDir hy _)
  · exact hP.mono (fun y d' t e hm => hmaps y d' t e hm) fun y d' t e hm _ _ => hcount y d' t e hm
  · exact ⟨hmaps y d' t e hm, hcount y d' t e (hmaps y d' t e hm)⟩

theorem ends_getPte (h : Sound m) (hl : (m.dirs x).isSome) {vaddr : Nat}
    (hd : Counts (DIDX vaddr)) :
    Ends badCount (getPte m x vaddr true) fun r => TableOf x vaddr m r.1 r.2 := by
  by_cases hs : (m.slot x (DIDX vaddr)).present = true
  · rw [getPte_present hs]
    exact ⟨Kept.refl h, hs, rfl, fun d t e hm => ⟨hm, rfl⟩⟩
  · rw [getPte, check_pos (Or.inl rfl), bind_ok, if_neg hs]
    refine (ends_getPage m).bind ?_
    rintro ⟨p, m'⟩ ⟨hp, ht, f, hm'⟩
    obtain rfl : m' = taken m p f := hm'
    obtain ⟨hk, hm⟩ := tabled_kept h hl hd (Bool.eq_false_iff.mpr hs) hp ht f
    have hslot : (tabled m x (DIDX vaddr) p f).slot x (DIDX vaddr) = entryInit p :=
      slot_setSlot_self ((taken m p f).setPage p _ _) x (DIDX vaddr) _
    show TableOf x vaddr m p (tabled m x (DIDX vaddr) p f)
    refine ⟨hk, ?_, ?_, fun d t e => hm x d t e⟩
    · rw [hslot]
      rfl
    · rw [hslot]
      rfl

/-! ## `link_page` and `unlink_page` -/

/-- What `link_page` leaves: the page is mapped, by the entry that was there or
    by a new one with one reference, and no other mapping is new. -/
structure Linked (x : Space) (vaddr : Nat) (m m' : Memory) : Prop where
  kept : Kept x m m'
  slot : (m'.slot x (DIDX vaddr)).present = true
  entry : (m'.table (m'.slot x (DIDX vaddr)).index (TIDX vaddr)).present = true
  maps : ∀ d t e, Maps m'.toPaging x d t e →
    (Maps m.toPaging x d t e ∧ m'.memory_map e.index = m.memory_map e.index) ∨
      (d = DIDX vaddr ∧ t = TIDX vaddr ∧ m'.memory_map e.index = 1)

/-- A claimed page is mapped where nothing was. -/
theorem linked (h : Sound m) {vaddr p : Nat} (hd : Counts (DIDX vaddr))
    (hs : (m.slot x (DIDX vaddr)).present = true)
    (ha : (m.table (m.slot x (DIDX vaddr)).index (TIDX vaddr)).present = false)
    (hp : m.memory_map p = 0) (ht : p < m.total_pages) (f : UInt32) :
    Linked x vaddr m
      ((taken m p f).setEntry (m.slot x (DIDX vaddr)).index (TIDX vaddr) (entryInit p)) := by
  obtain ⟨hk, hr, hE⟩ := h.unused hp
  have hc := h.take hp ht f
  have htidx : TIDX vaddr < 1024 := Nat.mod_lt _ (by decide)
  have hsound := hc.setEntry (x := x) (F := fun _ => 0) (e := entryInit p) hd htidx hs (fun q => by
      show 0 + hit (entryInit p) q
        = 0 + one p q + hit (m.table (m.slot x (DIDX vaddr)).index (TIDX vaddr)) q
      rw [hit_absent ha, one_eq_hit]
      omega) (fun q hq => Or.inr (by
        obtain ⟨_, rfl⟩ := of_hit hq
        exact hr))
  have hone : (taken m p f).memory_map p = 1 := Function.update_self ..
  refine ⟨⟨⟨hsound, fun _ => rfl, fun y hy => ?_⟩, fun hP => ?_⟩, hs, ?_, fun d t e hm => ?_⟩
  · have htaken : Unseen y m (taken m p f) := Unseen.of_eq rfl rfl
    exact htaken.trans (unseen_setEntry hc hd hs (TIDX vaddr) (entryInit p) hy)
  · refine (hP.taken h hp f).setEntry hc hd hs (fun _ _ _ => hone) fun _ y d' t' e' hm _ hi => ?_
    -- nothing maps a free page
    have := maps_refs (m := m) hm
    rw [show e'.index = p from hi, hr] at this
    omega
  · show (Function.update m.table _ (Function.update (m.table _) (TIDX vaddr) (entryInit p))
      (m.slot x (DIDX vaddr)).index (TIDX vaddr)).present = true
    rw [Function.update_self, Function.update_self]
    rfl
  · rcases maps_setEntry hc hd hs hm with ⟨_, rfl, rfl, rfl⟩ | ⟨_, hold⟩
    · exact Or.inr ⟨rfl, rfl, hone⟩
    · refine Or.inl ⟨hold, Function.update_of_ne ?_ _ _⟩
      intro he
      have := maps_refs (m := m) hold
      rw [he, hr] at this
      omega

theorem ends_linkPage (h : Sound m) (hl : (m.dirs x).isSome) {vaddr : Nat}
    (hd : Counts (DIDX vaddr)) :
    Ends badCount (linkPage m x vaddr) (Linked x vaddr m) := by
  refine (ends_check not_bad_assertion fun _ => ?_ : Ends badCount (check _) fun _ => True).bind
    fun _ _ => ?_
  · trivial
  refine (ends_getPte h hl hd).bind ?_
  rintro ⟨q, m₁⟩ ⟨hk, hs, hq, hm⟩
  obtain rfl : (m₁.slot x (DIDX vaddr)).index = q := hq
  refine Ends.ite (fun hp => ?_) fun hp => ?_
  · exact ⟨hk, hs, hp, fun d t e he => Or.inl (hm d t e he)⟩
  · refine (ends_getPage m₁).bind ?_
    rintro ⟨p, m₂⟩ ⟨hz, ht, f, hm₂⟩
    obtain rfl : m₂ = taken m₁ p f := hm₂
    have hL := linked hk.sound hd hs (Bool.eq_false_iff.mpr hp) hz ht f
    refine ⟨hk.trans hL.kept, hL.slot, hL.entry, fun d t e he => ?_⟩
    rcases hL.maps d t e he with ⟨h1, h2⟩ | hnew
    · obtain ⟨h3, h4⟩ := hm d t e h1
      exact Or.inl ⟨h3, h2.trans h4⟩
    · exact Or.inr hnew

theorem ends_unlinkPage (h : Sound m) {vaddr : Nat} (hd : Counts (DIDX vaddr)) :
    Ends badCount (unlinkPage m x vaddr) (Kept x m) := by
  refine (ends_check not_bad_assertion fun _ => ?_ : Ends badCount (check _) fun _ => True).bind
    fun _ _ => ?_
  · trivial
  refine Ends.ite (fun hs => ?_) fun _ => Kept.refl h
  rw [getPte_present hs, bind_ok]
  refine Ends.ite (fun hp => ?_) fun _ => Kept.refl h
  -- the cleared entry's reference is dropped
  have htidx : TIDX vaddr < 1024 := Nat.mod_lt _ (by decide)
  have hmaps : Maps m.toPaging x (DIDX vaddr) (TIDX vaddr) _ := ⟨hd, htidx, hs, rfl, hp⟩
  generalize he : m.table (m.slot x (DIDX vaddr)).index (TIDX vaddr) = e at hmaps hp ⊢
  have hc : Counted (m.setEntry (m.slot x (DIDX vaddr)).index (TIDX vaddr) { e with present := false })
      fun q => 0 + one e.index q := by
    refine h.setEntry hd htidx hs (fun q => ?_) fun q hq => ?_
    · rw [he, hit_absent (e := { e with present := false }) rfl, hit_present hp, Nat.add_zero]
    · rw [hit_absent (e := { e with present := false }) rfl] at hq
      omega
  have hge : 1 ≤ m.memory_map e.index := by
    rw [sound_mapped h hmaps]
    exact maps_refs hmaps
  refine (ends_putPage (m := m.setEntry _ _ _) hge).mono ?_
  rintro _ ⟨f, rfl⟩
  refine ⟨⟨hc.drop f, fun _ => rfl, fun y hy => ?_⟩, fun hP => ?_⟩
  · exact (unseen_setEntry h hd hs (TIDX vaddr) _ hy).trans (Unseen.of_eq rfl rfl)
  · exact (hP.setEntry h hd hs (fun hf => absurd hf Bool.false_ne_true)
      fun hf => absurd hf Bool.false_ne_true).dropped hc f

end NeonixPageCalls
