import Neonix.PageCalls

/-! # `sys_brk`, `sys_mmap`, `sys_munmap`, `load_segment` and `page_fault`

    Each is a loop of `link_page` and `unlink_page`, or one of them with the
    flags of an entry set.  All keep exact counts and what other directories
    show; all but `sys_mmap` keep the copy-on-write discipline.  `sys_mmap`
    keeps it where it gives no right on a page that has more than one reference
    and is not shared (`Clash`). -/

namespace NeonixMappingCalls

open NeonixMachine NeonixOutcome NeonixMemory NeonixBitmap NeonixPageRefs NeonixPageSteps
open NeonixPageCalls

variable {m : Memory} {x : Space}

/-! ## Addresses and bitmaps -/

/-- The slots of the addresses between the kernel's memory and the window. -/
theorem counts_of_range {vaddr : Nat} (h1 : USER_EXEC_ADDR ≤ vaddr) (h2 : vaddr < PDE_MASK) :
    Counts (DIDX vaddr) := by
  simp only [Counts, DIDX, FIRST_SLOT, SELF_SLOT, PDE_MASK, USER_EXEC_ADDR,
    KERNEL_MEMORY_SIZE] at *
  omega

/-- Two pages below 4 GB with the same slot and the same table index are one. -/
theorem page_unique {a b : Nat} (ha : a < 2 ^ 32) (hb : b < 2 ^ 32) (hd : DIDX a = DIDX b)
    (ht : TIDX a = TIDX b) : IDX a = IDX b := by
  simp only [DIDX, TIDX, IDX] at *
  omega

/-- The bits of a bitmap are those of pages up to the end of the memory of a
    process. -/
def InUserMap (map : Bitmap) : Prop :=
  map.offset ≤ IDX USER_MMAP_ADDR ∧ map.offset + map.size * 8 ≤ IDX USER_STACK_TOP

/-- A page whose bit is in the map lies in the memory of the process. -/
theorem InUserMap.page_lt {map : Bitmap} (h : InUserMap map) {addr : Nat}
    (hlt : IDX addr < map.offset + map.size * 8) : addr < USER_STACK_TOP := by
  have hle : IDX addr < IDX USER_STACK_TOP := Nat.lt_of_lt_of_le hlt h.2
  unfold IDX USER_STACK_TOP at hle
  unfold USER_STACK_TOP
  omega

/-- The next page after one that lies below a bound. -/
theorem next_page {vaddr i top : Nat} (h : vaddr + PAGE_SIZE * i < top) :
    vaddr + PAGE_SIZE * (i + 1) ≤ top + PAGE_SIZE := by
  rw [Nat.mul_succ, ← Nat.add_assoc]
  exact Nat.add_le_add_right (Nat.le_of_lt h) _

/-- `bitmap_set` keeps the frame of the map, and the bit is in its buffer. -/
theorem ends_bitmapSet (map : Bitmap) (index : Nat) (v : Bool) :
    Ends badCount (bitmapSet map index v) fun r =>
      r.offset = map.offset ∧ r.size = map.size ∧ index < map.offset + map.size * 8 := by
  by_cases hi : map.offset ≤ index
  · obtain ⟨k, rfl⟩ := Nat.exists_eq_add_of_le hi
    by_cases hs : k / 8 < map.size
    · rw [bitmapSet_eq map hs]
      exact ⟨rfl, rfl, by omega⟩
    · have hk : map.offset + k - map.offset = k := by omega
      simp only [bitmapSet, hk]
      rw [check_pos hi, bind_ok, Bitmap.load, if_neg hs, bind_error]
      intro h
      cases h
  · simp only [bitmapSet]
    rw [check_neg hi, bind_error]
    exact not_bad_assertion

theorem ends_bitmapTest (map : Bitmap) (index : Nat) :
    Ends badCount (bitmapTest map index) fun _ => True := by
  refine (ends_check not_bad_assertion fun _ => trivial : Ends badCount (check _) fun _ => True).bind
    fun _ _ => ?_
  refine (ends_check not_bad_assertion fun _ => trivial : Ends badCount (check _) fun _ => True).bind
    fun _ _ => ?_
  rw [Bitmap.load]
  by_cases hs : (index - map.offset) / 8 < map.size
  · rw [if_pos hs]
    trivial
  · rw [if_neg hs, bind_error]
    intro h
    cases h

theorem ends_setRun (left : Nat) : ∀ (map : Bitmap) (next : Nat),
    Ends badCount (setRun map left next) fun r => r.offset = map.offset ∧ r.size = map.size := by
  induction left with
  | zero => exact fun map next => ⟨rfl, rfl⟩
  | succ left ih =>
      intro map next
      refine (ends_bitmapSet map _ _).bind fun r hr => ?_
      refine (ih r (next + 1)).mono fun r' hr' => ?_
      exact ⟨hr'.1.trans hr.1, hr'.2.trans hr.2.1⟩

theorem ends_scanStart (map : Bitmap) (count left : Nat) : ∀ next counter,
    Ends badCount (scanStart map count left next counter) fun _ => True := by
  induction left with
  | zero => exact fun _ _ => trivial
  | succ left ih =>
      intro next counter
      refine (ends_bitmapTest map _).bind fun used _ => ?_
      exact Ends.ite (fun _ => trivial) fun _ => ih _ _

theorem ends_scanPage (map : Bitmap) (count : Nat) : Ends badCount (scanPage map count) fun r =>
    r.2.offset = map.offset ∧ r.2.size = map.size := by
  refine (ends_check not_bad_assertion fun _ => trivial : Ends badCount (check _) fun _ => True).bind
    fun _ _ => ?_
  have hscan : Ends badCount (bitmapScan map count) fun r =>
      r.2.offset = map.offset ∧ r.2.size = map.size := by
    refine (ends_scanStart map count _ _ _).bind fun start _ => ?_
    cases start with
    | none => exact ⟨rfl, rfl⟩
    | some start =>
        refine (ends_setRun count map start).bind fun r hr => ?_
        exact hr
  refine hscan.bind ?_
  rintro ⟨index, map'⟩ hmap
  cases index with
  | none =>
      intro h
      cases h
  | some index => exact hmap

/-! ## Flags of an entry -/

section Flags

variable {E : Nat → Nat} {d t : Nat} {e : Entry}

/-- An entry changes, but not the page it refers to. -/
theorem counted_flags (h : Counted m E) (hd : Counts d) (ht : t < 1024)
    (hs : (m.slot x d).present = true)
    (hp : e.present = (m.table (m.slot x d).index t).present)
    (hi : e.index = (m.table (m.slot x d).index t).index) :
    Counted (m.setEntry (m.slot x d).index t e) E := by
  have hh := hit_congr hp hi
  refine h.setEntry hd ht hs (fun p => by rw [hh]) fun p hpos => Or.inl ?_
  rw [← hh]
  exact hpos

/-- An entry loses the right to write, or gains it on a page without other
    references. -/
theorem private_flags (hP : Private m) (h : Counted m E) (hd : Counts d) (ht : t < 1024)
    (hs : (m.slot x d).present = true)
    (hp : e.present = (m.table (m.slot x d).index t).present)
    (hi : e.index = (m.table (m.slot x d).index t).index)
    (hsh : e.shared = (m.table (m.slot x d).index t).shared)
    (hw : e.present = true → e.shared = false → e.write = true → m.memory_map e.index = 1) :
    Private (m.setEntry (m.slot x d).index t e) := by
  refine hP.setEntry h hd hs hw fun hpe y d' t' e' hm _ hie => ?_
  rw [hsh]
  have hold : Maps m.toPaging x d t (m.table (m.slot x d).index t) :=
    ⟨hd, ht, hs, rfl, by rw [← hp]; exact hpe⟩
  exact hP.agree x d t _ y d' t' e' hold hm (by rw [hie, hi])

theorem held_flags (h : Sound m) (hd : Counts d) (ht : t < 1024)
    (hs : (m.slot x d).present = true)
    (hp : e.present = (m.table (m.slot x d).index t).present)
    (hi : e.index = (m.table (m.slot x d).index t).index) :
    Held x m (m.setEntry (m.slot x d).index t e) :=
  ⟨counted_flags h hd ht hs hp hi, fun _ => rfl, fun _ hy => unseen_setEntry h hd hs t e hy⟩

theorem kept_flags (h : Sound m) (hd : Counts d) (ht : t < 1024)
    (hs : (m.slot x d).present = true)
    (hp : e.present = (m.table (m.slot x d).index t).present)
    (hi : e.index = (m.table (m.slot x d).index t).index)
    (hsh : e.shared = (m.table (m.slot x d).index t).shared)
    (hw : e.present = true → e.shared = false → e.write = true → m.memory_map e.index = 1) :
    Kept x m (m.setEntry (m.slot x d).index t e) :=
  ⟨held_flags h hd ht hs hp hi, fun hP => private_flags hP h hd ht hs hp hi hsh hw⟩

end Flags

/-! ## Loops -/

/-- A loop of calls that each keep everything. -/
theorem ends_keptLoop {f : Nat → Memory → Res Memory} {lo n : Nat} (h : Sound m)
    (hl : (m.dirs x).isSome)
    (hf : ∀ i m, lo ≤ i → i < lo + n → Sound m → (m.dirs x).isSome →
      Ends badCount (f i m) (Kept x m)) :
    Ends badCount (forLoop f lo n m) (Kept x m) := by
  refine Ends.forLoop badCount f lo n m (fun _ m' => Kept x m m') (Kept.refl h)
    fun i m' hi hin hk => ?_
  exact (hf i m' hi hin hk.sound (hk.live hl)).mono fun m'' hk' => hk.trans hk'

/-- What the calls rely on in a task. -/
structure TaskOk (t : Task) : Prop where
  end_ : USER_EXEC_ADDR ≤ t.end_
  brk : t.brk ≤ USER_MMAP_ADDR
  vmap : InUserMap t.vmap

theorem ends_sysBrk (h : Sound m) {t : Task} (ht : TaskOk t) (hl : (m.dirs t.pde).isSome)
    (brk : Nat) : Ends badCount (sysBrk m t brk) fun r =>
      Kept t.pde m r.2.1 ∧ TaskOk r.2.2 ∧ r.2.2.pde = t.pde := by
  refine (ends_check not_bad_assertion fun _ => trivial : Ends badCount (check _) fun _ => True).bind
    fun _ _ => ?_
  refine (ends_check not_bad_assertion fun _ => trivial : Ends badCount (check _) fun _ => True).bind
    fun _ _ => ?_
  refine (ends_check not_bad_assertion fun hb => hb : Ends badCount (check _) fun _ =>
    t.end_ ≤ brk ∧ brk ≤ USER_MMAP_ADDR).bind fun _ hb => ?_
  have hend := ht.end_
  have hbrk := ht.brk
  refine Ends.ite (fun hlt => ?_) fun _ => Ends.ite (fun _ => ?_) fun _ => ?_
  · refine Ends.bind (ends_keptLoop h hl fun i m' _ hi hs' hl' => ?_) fun m' hk => ?_
    · refine ends_unlinkPage hs' (counts_of_range ?_ ?_)
      · simp only [USER_EXEC_ADDR, KERNEL_MEMORY_SIZE] at *
        omega
      · simp only [USER_EXEC_ADDR, KERNEL_MEMORY_SIZE, USER_MMAP_ADDR, PDE_MASK, PAGE_SIZE] at *
        omega
    · exact ⟨hk, ⟨hend, hb.2, ht.vmap⟩, rfl⟩
  · exact ⟨Kept.refl h, ht, rfl⟩
  · exact ⟨Kept.refl h, ⟨hend, hb.2, ht.vmap⟩, rfl⟩

/-! ## `sys_mmap` -/

/-- The calls of `sys_mmap` that give a right on pages that were there. -/
def Opens (prot flags : Nat) : Prop := prot &&& PROT_WRITE ≠ 0 ∨ flags &&& MAP_SHARED ≠ 0

/-- A page that is mapped, not shared, and referred to more than once. -/
def Clash (m : Memory) (x : Space) (vaddr : Nat) : Prop :=
  ∃ e, Maps m.toPaging x (DIDX vaddr) (TIDX vaddr) e ∧ e.shared = false ∧ 1 < m.memory_map e.index

theorem mmapEntry_present (prot flags : Nat) (e : Entry) :
    (mmapEntry prot flags e).present = e.present := by
  unfold mmapEntry
  split_ifs <;> rfl

theorem mmapEntry_index (prot flags : Nat) (e : Entry) :
    (mmapEntry prot flags e).index = e.index := by
  unfold mmapEntry
  split_ifs <;> rfl

/-- `sys_mmap` marks an entry shared, never the other way. -/
theorem mmapEntry_shared (prot flags : Nat) (e : Entry) :
    (mmapEntry prot flags e).shared = true ↔ e.shared = true ∨ flags &&& MAP_SHARED ≠ 0 := by
  unfold mmapEntry
  split_ifs with _ hs <;> simp [*]

theorem mmapEntry_write {prot flags : Nat} {e : Entry} (h : (mmapEntry prot flags e).write = true) :
    prot &&& PROT_WRITE ≠ 0 := by
  unfold mmapEntry at h
  split_ifs at h <;> simp_all

/-- What one turn of the loop of `sys_mmap` leaves. -/
structure Mapped (prot flags : Nat) (x : Space) (page : Nat) (m m' : Memory) : Prop where
  held : Held x m m'
  cow : (Opens prot flags → ¬ Clash m x page) → Private m → Private m'
  clash : ∀ page', ¬ (DIDX page' = DIDX page ∧ TIDX page' = TIDX page) →
    Clash m' x page' → Clash m x page'

/-- The flags `sys_mmap` sets on a page `link_page` left. -/
theorem mapped {prot flags page : Nat} {m' : Memory} (hL : Linked x page m m')
    (hd : Counts (DIDX page)) :
    Mapped prot flags x page m (m'.setEntry (m'.slot x (DIDX page)).index (TIDX page)
      (mmapEntry prot flags (m'.table (m'.slot x (DIDX page)).index (TIDX page)))) := by
  have ht : TIDX page < 1024 := Nat.mod_lt _ (by decide)
  have hm : Maps m'.toPaging x (DIDX page) (TIDX page) _ := ⟨hd, ht, hL.slot, rfl, hL.entry⟩
  have hsound := hL.kept.sound
  generalize he : m'.table (m'.slot x (DIDX page)).index (TIDX page) = e at hm ⊢
  have hheld := held_flags hsound hd ht hL.slot (e := mmapEntry prot flags e)
    (by rw [mmapEntry_present, he]) (by rw [mmapEntry_index, he])
  refine ⟨hL.kept.toHeld.trans hheld, fun hcl hP => ?_, fun page' hne hc => ?_⟩
  · have hP' := hL.kept.cow hP
    -- a page whose rights grow has no other reference
    have hone : Opens prot flags → e.shared = false → m'.memory_map e.index = 1 := by
      intro ho hsh
      rcases hL.maps _ _ _ hm with ⟨hold, hcount⟩ | ⟨_, _, h1⟩
      · have hnc := hcl ho
        have hle : ¬ 1 < m.memory_map e.index := fun hgt => hnc ⟨e, hold, hsh, hgt⟩
        have hge := maps_refs hm
        rw [← sound_mapped hsound hm] at hge
        omega
      · exact h1
    refine hP'.setEntry hsound hd hL.slot ?_ ?_
    · intro _ hsh hw
      rw [mmapEntry_index]
      refine hone (Or.inl (mmapEntry_write hw)) ?_
      by_contra hs
      have := (mmapEntry_shared prot flags e).mpr (Or.inl (by simpa using hs))
      rw [hsh] at this
      cases this
    · intro _ y d' t' e' hm' hne hi
      rw [mmapEntry_index] at hi
      have hag := hP'.agree _ _ _ _ _ _ _ _ hm hm' hi
      rw [hag]
      by_cases hsh : e.shared = true
      · rw [hsh, (mmapEntry_shared prot flags e).mpr (Or.inl hsh)]
      · by_cases hf : flags &&& MAP_SHARED ≠ 0
        · have h1 := hone (Or.inr hf) (Bool.eq_false_iff.mpr hsh)
          rw [sound_mapped hsound hm] at h1
          exact absurd (hsound.maps_unique hm hm' hi (Nat.le_of_eq h1)) hne
        · have hns : ¬ (mmapEntry prot flags e).shared = true := fun hs =>
            ((mmapEntry_shared prot flags e).mp hs).elim hsh hf
          rw [Bool.eq_false_iff.mpr hsh, Bool.eq_false_iff.mpr hns]
  · obtain ⟨e', hm', hsh, hgt⟩ := hc
    rcases maps_setEntry hsound hd hL.slot hm' with ⟨_, h1, h2, _⟩ | ⟨_, hold⟩
    · exact absurd ⟨h1, h2⟩ hne
    · rcases hL.maps _ _ _ hold with ⟨hold', hcount⟩ | ⟨h1, h2, _⟩
      · refine ⟨e', hold', hsh, ?_⟩
        rw [← hcount]
        exact hgt
      · exact absurd ⟨h1, h2⟩ hne

theorem ends_mmapPage (h : Sound m) (hl : (m.dirs x).isSome) (vmap : Bitmap)
    (vaddr prot flags i : Nat) (hd : Counts (DIDX (vaddr + PAGE_SIZE * i))) :
    Ends badCount (mmapPage x vaddr prot flags i (m, vmap)) fun r =>
      Mapped prot flags x (vaddr + PAGE_SIZE * i) m r.1 ∧ r.2.offset = vmap.offset ∧
        r.2.size = vmap.size ∧ IDX (vaddr + PAGE_SIZE * i) < vmap.offset + vmap.size * 8 := by
  refine (ends_linkPage h hl hd).bind fun m' hL => ?_
  refine (ends_bitmapSet vmap _ _).bind fun vmap' hv => ?_
  rw [getPte_present hL.slot, bind_ok]
  exact ⟨mapped hL hd, hv⟩

/-- The loop of `sys_mmap`. -/
theorem ends_mmapLoop (h : Sound m) (hl : (m.dirs x).isSome) {vmap : Bitmap} (hv : InUserMap vmap)
    {vaddr : Nat} (prot flags : Nat) {count : Nat} (hva : USER_MMAP_ADDR ≤ vaddr)
    (hvb : vaddr < USER_STACK_BOTTOM) :
    Ends badCount (forLoop (mmapPage x vaddr prot flags) 0 count (m, vmap)) fun r =>
      Held x m r.1 ∧ InUserMap r.2 ∧
        ((Opens prot flags → ∀ i, i < count → ¬ Clash m x (vaddr + PAGE_SIZE * i)) →
          Private m → Private r.1) := by
  simp only [USER_MMAP_ADDR, USER_STACK_BOTTOM, USER_STACK_TOP, USER_STACK_SIZE] at hva hvb
  have hloop := Ends.forLoop badCount (mmapPage x vaddr prot flags) 0 count (m, vmap)
    (fun i r => Held x m r.1 ∧ InUserMap r.2 ∧
      vaddr + PAGE_SIZE * i ≤ USER_STACK_TOP + PAGE_SIZE ∧
      ((Opens prot flags → ∀ j, j < count → ¬ Clash m x (vaddr + PAGE_SIZE * j)) → Private m →
        Private r.1 ∧ (Opens prot flags → ∀ j, i ≤ j → j < count →
          vaddr + PAGE_SIZE * j < 2 ^ 32 → ¬ Clash r.1 x (vaddr + PAGE_SIZE * j)))) ?_ ?_
  · refine hloop.mono fun r hr => ⟨hr.1, hr.2.1, fun hc hP => (hr.2.2.2 hc hP).1⟩
  · refine ⟨Held.refl h, hv, ?_, fun hc hP => ⟨hP, fun ho j _ hj _ => hc ho j hj⟩⟩
    simp only [USER_STACK_TOP, PAGE_SIZE]
    omega
  · rintro i ⟨m', vmap'⟩ _ hi ⟨hh, hv', hle, hcow⟩
    simp only at hh hv' hcow
    have hd : Counts (DIDX (vaddr + PAGE_SIZE * i)) := by
      refine counts_of_range ?_ ?_
      · simp only [USER_EXEC_ADDR, KERNEL_MEMORY_SIZE]
        omega
      · simp only [USER_STACK_TOP, PAGE_SIZE, PDE_MASK] at hle ⊢
        omega
    refine (ends_mmapPage hh.sound (hh.live hl) vmap' vaddr prot flags i hd).mono ?_
    rintro ⟨m'', vmap''⟩ ⟨hM, ho, hs, hlt⟩
    simp only at ho hs hlt hM
    refine ⟨hh.trans hM.held, ?_, ?_, fun hc hP => ?_⟩
    · simp only [InUserMap, ho, hs]
      exact hv'
    · exact next_page (hv'.page_lt hlt)
    · obtain ⟨hP', hrest⟩ := hcow hc hP
      refine ⟨hM.cow (fun hop => hrest hop i (le_refl i) (by omega) ?_) hP', ?_⟩
      · simp only [USER_STACK_TOP, PAGE_SIZE] at hle ⊢
        omega
      · intro hop j hij hj hj32 hcl
        refine hrest hop j (by omega) hj hj32 (hM.clash _ ?_ hcl)
        rintro ⟨h1, h2⟩
        have hi32 : vaddr + PAGE_SIZE * i < 2 ^ 32 := by
          simp only [USER_STACK_TOP, PAGE_SIZE] at hle ⊢
          omega
        have := page_unique hj32 hi32 h1 h2
        simp only [IDX, PAGE_SIZE] at this
        omega

/-- The pages a `sys_mmap` covers give it no right on a page another mapping
    refers to. -/
def MmapFair (m : Memory) (t : Task) (addr length prot flags : Nat) : Prop :=
  Opens prot flags → ∀ vaddr vmap, mmapAddr t addr (pageCount length) = .ok (vaddr, vmap) →
    ∀ i, i < pageCount length → ¬ Clash m t.pde (vaddr + PAGE_SIZE * i)

theorem ends_sysMmap (h : Sound m) {t : Task} (ht : TaskOk t) (hl : (m.dirs t.pde).isSome)
    (addr length prot flags : Nat) : Ends badCount (sysMmap m t addr length prot flags) fun r =>
      Held t.pde m r.2.1 ∧ TaskOk r.2.2 ∧ r.2.2.pde = t.pde ∧
        (MmapFair m t addr length prot flags → Private m → Private r.2.1) := by
  refine (ends_check not_bad_assertion fun _ => trivial : Ends badCount (check _) fun _ => True).bind
    fun _ _ => ?_
  have haddr : Ends badCount (mmapAddr t addr (pageCount length)) fun r =>
      mmapAddr t addr (pageCount length) = .ok r ∧ InUserMap r.2 := by
    rw [mmapAddr]
    refine Ends.ite (fun h0 => ?_) fun h0 => ⟨if_neg h0, ht.vmap⟩
    cases hs : scanPage t.vmap (pageCount length) with
    | ok r =>
        obtain ⟨ho, hz⟩ := (ends_scanPage t.vmap (pageCount length)).of_ok hs
        refine ⟨if_pos h0, ?_⟩
        simp only [InUserMap, ho, hz]
        exact ht.vmap
    | error e =>
        intro hb
        exact (ends_scanPage t.vmap (pageCount length)).not_bad hb hs
  refine haddr.bind ?_
  rintro ⟨vaddr, vmap⟩ ⟨hva, hv⟩
  refine (ends_check not_bad_assertion fun hb => hb : Ends badCount (check _) fun _ =>
    USER_MMAP_ADDR ≤ vaddr ∧ vaddr < USER_STACK_BOTTOM).bind fun _ hb => ?_
  refine (ends_mmapLoop h hl hv prot flags hb.1 hb.2).bind ?_
  rintro ⟨m', vmap'⟩ ⟨hh, hv', hcow⟩
  exact ⟨hh, ⟨ht.end_, ht.brk, hv'⟩, rfl,
    fun hfair => hcow fun ho i hi => hfair ho vaddr vmap hva i hi⟩

/-! ## `sys_munmap` -/

theorem ends_munmapPage (h : Sound m) (vmap : Bitmap) {vaddr i : Nat}
    (hd : Counts (DIDX (vaddr + PAGE_SIZE * i))) :
    Ends badCount (munmapPage x vaddr i (m, vmap)) fun r =>
      Kept x m r.1 ∧ r.2.offset = vmap.offset ∧ r.2.size = vmap.size ∧
        IDX (vaddr + PAGE_SIZE * i) < vmap.offset + vmap.size * 8 := by
  refine (ends_unlinkPage h hd).bind fun m' hk => ?_
  refine (ends_bitmapTest vmap _).bind fun b _ => ?_
  refine (ends_check not_bad_assertion fun _ => trivial : Ends badCount (check _) fun _ => True).bind
    fun _ _ => ?_
  refine (ends_bitmapSet vmap _ _).bind fun vmap' hv => ?_
  exact ⟨hk, hv⟩

theorem ends_sysMunmap (h : Sound m) {t : Task} (ht : TaskOk t) (vaddr length : Nat) :
    Ends badCount (sysMunmap m t vaddr length) fun r =>
      Kept t.pde m r.1 ∧ TaskOk r.2 ∧ r.2.pde = t.pde := by
  refine (ends_check not_bad_assertion fun hb => hb : Ends badCount (check _) fun _ =>
    USER_MMAP_ADDR ≤ vaddr ∧ vaddr < USER_STACK_BOTTOM).bind fun _ hb => ?_
  refine (ends_check not_bad_assertion fun _ => trivial : Ends badCount (check _) fun _ => True).bind
    fun _ _ => ?_
  obtain ⟨hva, hvb⟩ := hb
  simp only [USER_MMAP_ADDR, USER_STACK_BOTTOM, USER_STACK_TOP, USER_STACK_SIZE] at hva hvb
  have hloop := Ends.forLoop badCount (munmapPage t.pde vaddr) 0 (pageCount length) (m, t.vmap)
    (fun i r => Kept t.pde m r.1 ∧ InUserMap r.2 ∧
      vaddr + PAGE_SIZE * i ≤ USER_STACK_TOP + PAGE_SIZE) ?_ ?_
  · refine hloop.bind ?_
    rintro ⟨m', vmap'⟩ ⟨hk, hv', _⟩
    exact ⟨hk, ⟨ht.end_, ht.brk, hv'⟩, rfl⟩
  · refine ⟨Kept.refl h, ht.vmap, ?_⟩
    simp only [USER_STACK_TOP, PAGE_SIZE]
    omega
  · rintro i ⟨m', vmap'⟩ _ hi ⟨hk, hv', hle⟩
    simp only at hk hv'
    have hd : Counts (DIDX (vaddr + PAGE_SIZE * i)) := by
      refine counts_of_range ?_ ?_
      · simp only [USER_EXEC_ADDR, KERNEL_MEMORY_SIZE]
        omega
      · simp only [USER_STACK_TOP, PAGE_SIZE, PDE_MASK] at hle ⊢
        omega
    refine (ends_munmapPage hk.sound vmap' hd).mono ?_
    rintro ⟨m'', vmap''⟩ ⟨hk', ho, hs, hlt⟩
    simp only at ho hs hlt hk'
    refine ⟨hk.trans hk', ?_, ?_⟩
    · simp only [InUserMap, ho, hs]
      exact hv'
    · exact next_page (hv'.page_lt hlt)

/-! ## `load_segment` -/

theorem ends_sealAddr (h : Sound m) {vaddr i : Nat} (hd : Counts (DIDX (vaddr + i * PAGE_SIZE))) :
    Ends badCount (sealAddr x vaddr i m) (Kept x m) := by
  refine (ends_getPte_false m x _).bind ?_
  rintro ⟨q, m'⟩ ⟨hs, hr⟩
  obtain ⟨rfl, rfl⟩ := Prod.mk.inj hr
  exact kept_flags h hd (Nat.mod_lt _ (by decide)) hs rfl rfl rfl fun _ _ hw =>
    absurd hw Bool.false_ne_true

theorem ends_loadSegment (h : Sound m) {t : Task} (ht : TaskOk t) (hl : (m.dirs t.pde).isSome)
    (vaddr count : Nat) (writable : Bool) : Ends badCount (loadSegment m t vaddr count writable)
      fun r => Kept t.pde m r.1 ∧ TaskOk r.2 ∧ r.2.pde = t.pde := by
  refine (ends_check not_bad_assertion fun _ => trivial : Ends badCount (check _) fun _ => True).bind
    fun _ _ => ?_
  -- the first loop also checks that every page is one of the user's
  have hlink := Ends.forLoop badCount (linkAddr t.pde vaddr) 0 count m
    (fun i m' => Kept t.pde m m' ∧ ∀ j, j < i → Counts (DIDX (vaddr + j * PAGE_SIZE))) ?_ ?_
  · refine hlink.bind ?_
    rintro m₁ ⟨hk₁, hall⟩
    refine Ends.bind (ends_keptLoop hk₁.sound (hk₁.live hl) fun i m' _ hi hs' _ => ?_)
      fun m₂ hk₂ => ?_
    · refine ends_sealAddr hs' (hall i ?_)
      split at hi
      · omega
      · omega
    · exact ⟨hk₁.trans hk₂, ⟨le_trans ht.end_ (Nat.le_max_left _ _), ht.brk, ht.vmap⟩, rfl⟩
  · exact ⟨Kept.refl h, fun j hj => absurd hj (Nat.not_lt_zero j)⟩
  · rintro i m' _ hi ⟨hk, hall⟩
    refine (ends_check not_bad_assertion fun hb => hb : Ends badCount (check _) fun _ =>
      USER_EXEC_ADDR ≤ vaddr + i * PAGE_SIZE ∧ vaddr + i * PAGE_SIZE < USER_MMAP_ADDR).bind
      fun _ hb => ?_
    have hd : Counts (DIDX (vaddr + i * PAGE_SIZE)) := by
      refine counts_of_range hb.1 (lt_of_lt_of_le hb.2 ?_)
      decide
    refine (ends_linkPage hk.sound (hk.live hl) hd).mono fun m'' hL => ⟨hk.trans hL.kept, ?_⟩
    intro j hj
    rcases Nat.lt_succ_iff_lt_or_eq.mp hj with hlt | rfl
    · exact hall j hlt
    · exact hd

/-! ## `page_fault` -/

/-- A page with other references is copied for the writer. -/
theorem kept_copy (h : Sound m) {d t p : Nat} (hd : Counts d) (ht : t < 1024)
    (hs : (m.slot x d).present = true) (hpe : (m.table (m.slot x d).index t).present = true)
    (hp : m.memory_map p = 0) (htot : p < m.total_pages) (f : UInt32)
    (entries : Nat → Entry) (bytes : Nat → NeonixByteBits.Byte) :
    let e := m.table (m.slot x d).index t
    let m₁ := (taken m p f).setPage p entries bytes
    Kept x m ((m₁.setMap e.index (m₁.memory_map e.index - 1)).setEntry (m.slot x d).index t
      (entryInit p)) := by
  intro e m₁
  obtain ⟨hk, hr, _⟩ := h.unused hp
  have hc₁ : Counted m₁ fun q => 0 + one p q := (h.take hp htot f).setPage hr _ _
  have hr₁ : refs m₁.toPaging p = 0 := by
    rw [← hr]
    exact congrFun (refs_setTable_of_zero hr _) p
  have hm : Maps m.toPaging x d t e := ⟨hd, ht, hs, rfl, hpe⟩
  -- the table is not the new page
  have hne : (m.slot x d).index ≠ p := by
    intro he
    have h1 := h.tables x d hd hs
    rw [he, hr] at h1
    omega
  have hold : m₁.table (m₁.slot x d).index t = e := by
    show Function.update m.table p entries (m.slot x d).index t = e
    rw [Function.update_of_ne hne]
  have hc₂ : Counted (m₁.setEntry (m₁.slot x d).index t (entryInit p)) fun q =>
      0 + one e.index q := by
    refine hc₁.setEntry hd ht hs (fun q => ?_) fun q hq => ?_
    · rw [hold, hit_present (e := e) hpe, ← one_eq_hit]
      omega
    · obtain ⟨_, rfl⟩ := of_hit hq
      exact Or.inr hr₁
  have hone : m₁.memory_map p = 1 := Function.update_self ..
  refine ⟨⟨hc₂.drop m₁.free_pages, fun _ => rfl, fun y hy => ?_⟩, fun hP => ?_⟩
  · have h1 : Unseen y m (taken m p f) := Unseen.of_eq rfl rfl
    have h2 : Unseen y (taken m p f) m₁ := unseen_setPage (m := taken m p f) hk hr entries bytes y
    have h3 : Unseen y m₁ (m₁.setEntry (m₁.slot x d).index t (entryInit p)) :=
      unseen_setEntry hc₁ hd hs t (entryInit p) hy
    exact ((h1.trans h2).trans h3).trans (Unseen.of_eq rfl rfl)
  · have hP₁ : Private m₁ := (hP.taken h hp f).mono
      (fun y d' t' e' hm' => maps_setPage (m := taken m p f) hr hm') fun _ _ _ _ _ _ _ => rfl
    refine (hP₁.setEntry hc₁ hd hs (fun _ _ _ => hone) fun _ y d' t' e' hm' _ hi => ?_).dropped
      hc₂ m₁.free_pages
    have := maps_refs (m := m₁) hm'
    rw [show e'.index = p from hi, hr₁] at this
    omega

theorem ends_copyPage (m : Memory) (page : Nat) : Ends badCount (copyPage m page) fun r =>
    m.memory_map r.1 = 0 ∧ r.1 < m.total_pages ∧
      ∃ f, r.2 = (taken m r.1 f).setPage r.1 (m.table page) (m.data page) := by
  refine (ends_getPage m).bind ?_
  rintro ⟨p, m'⟩ ⟨hp, ht, f, hm'⟩
  obtain rfl : m' = taken m p f := hm'
  exact ⟨hp, ht, f, rfl⟩

theorem ends_pageFault (h : Sound m) {t : Task} (hl : (m.dirs t.pde).isSome) (vaddr : Nat)
    (present write : Bool) : Ends badCount (pageFault m t vaddr present write) fun r =>
      ∀ m', r = .back m' → Kept t.pde m m' := by
  refine Ends.ite (fun _ => ?_) fun hr => ?_
  · refine (ends_check not_bad_assertion fun _ => trivial :
      Ends badCount (check _) fun _ => True).bind fun _ _ => ?_
    intro m' hm'
    cases hm'
  have hd : Counts (DIDX vaddr) := by
    simp only [not_or, Nat.not_lt, Nat.not_le] at hr
    refine counts_of_range hr.1 (lt_of_lt_of_le hr.2 ?_)
    decide
  have htidx : TIDX vaddr < 1024 := Nat.mod_lt _ (by decide)
  refine Ends.ite (fun _ => ?_) fun _ => Ends.ite (fun _ => ?_) fun _ => ?_
  · refine (ends_check not_bad_assertion fun _ => trivial :
      Ends badCount (check _) fun _ => True).bind fun _ _ => ?_
    refine (ends_getPte_false m t.pde vaddr).bind ?_
    rintro ⟨q, m'⟩ ⟨hs, hr⟩
    obtain ⟨rfl, rfl⟩ := Prod.mk.inj hr
    refine (ends_check not_bad_assertion fun hp => hp : Ends badCount (check _) fun _ =>
      (m'.table (m'.slot t.pde (DIDX vaddr)).index (TIDX vaddr)).present = true).bind fun _ hp => ?_
    refine (ends_check not_bad_assertion fun _ => trivial :
      Ends badCount (check _) fun _ => True).bind fun _ _ => ?_
    refine (ends_check not_bad_assertion fun _ => trivial :
      Ends badCount (check _) fun _ => True).bind fun _ _ => ?_
    have hm : Maps m'.toPaging t.pde (DIDX vaddr) (TIDX vaddr) _ := ⟨hd, htidx, hs, rfl, hp⟩
    refine (ends_checkCount ?_).bind fun _ _ => ?_
    · rw [sound_mapped h hm]
      exact maps_refs hm
    refine Ends.ite (fun h1 => ?_) fun h1 => ?_
    · intro m'' hm''
      cases hm''
      exact kept_flags h hd htidx hs rfl rfl rfl fun _ _ _ => h1
    · refine (ends_copyPage m' _).bind ?_
      rintro ⟨p, m₁⟩ ⟨hp0, ht, f, hm₁⟩
      simp only at hp0 ht hm₁
      subst hm₁
      intro m'' hm''
      cases hm''
      exact kept_copy h hd htidx hs hp hp0 ht f _ _
  · have hpage : DIDX (PAGE (IDX vaddr)) = DIDX vaddr := by
      simp only [DIDX, PAGE, IDX]
      omega
    refine (ends_linkPage h hl (by rw [hpage]; exact hd)).bind fun m₁ hL => ?_
    intro m'' hm''
    cases hm''
    exact hL.kept
  · intro hb
    cases hb

end NeonixMappingCalls
