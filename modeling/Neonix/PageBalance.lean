import Neonix.PageCounts

/-! # The counter of free pages and the rights of a mapping

    `free_pages` counts the free pages, and those of the first 16 MB that
    `mapping_init` gave to the kernel without taking them off the counter.  And
    what a directory or a table holds is the user's: no call clears the bit. -/

namespace NeonixPageBalance

open NeonixMachine NeonixOutcome NeonixRuns NeonixMemory NeonixPageRefs NeonixPageSteps NeonixTally
open NeonixPageCalls NeonixMappingCalls NeonixDirectoryCalls NeonixPageCounts

/-- No reason to stop is excluded. -/
def never (_ : Stop) : Prop := False

/-- The pages `get_page` can find. -/
def freeCount (m : Memory) : Nat :=
  ∑ p ∈ Finset.Ico m.start_page m.total_pages, if m.memory_map p = 0 then 1 else 0

/-- An entry the user may go through. -/
def Opened (e : Entry) : Prop := e.present = true → e.user = true

/-- A directory entry never bars a store. -/
def OpenedDir (dir : Nat → Entry) : Prop :=
  ∀ d, (dir d).present = true → (dir d).user = true ∧ (dir d).write = true

structure Tidy (m : Memory) : Prop where
  counter : m.free_pages.toNat + m.start_page = freeCount m + KERNEL_PAGES
  start : 0 < m.start_page ∧ m.start_page < KERNEL_PAGES
  top : m.total_pages ≤ 2 ^ 20
  tables : ∀ q t, Opened (m.table q t)
  dirs : ∀ x, OpenedDir (m.slot x)

variable {m m' : Memory} {x : Space} {s : State} {i : TaskId} {t : Task}

/-! ## Stores -/

/-- The counter is about the counts alone. -/
theorem Tidy.paging (h : Tidy m) (hfree : m'.free_pages = m.free_pages)
    (hmap : m'.memory_map = m.memory_map) (hstart : m'.start_page = m.start_page)
    (htotal : m'.total_pages = m.total_pages) (htables : ∀ q t, Opened (m'.table q t))
    (hdirs : ∀ x, OpenedDir (m'.slot x)) : Tidy m' := by
  refine ⟨?_, by rw [hstart]; exact h.start, by rw [htotal]; exact h.top, htables, hdirs⟩
  have hc := h.counter
  rw [freeCount] at hc ⊢
  rw [hfree, hmap, hstart, htotal]
  exact hc

/-- A count changes, from a page that is free to one that is not or the other
    way round, and the counter with it. -/
theorem Tidy.count (h : Tidy m) {p n : Nat} {f : UInt32} (hlo : m.start_page ≤ p)
    (hhi : p < m.total_pages)
    (hf : f.toNat + (if m.memory_map p = 0 then 1 else 0) =
      m.free_pages.toNat + if n = 0 then 1 else 0) :
    Tidy { m.setMap p n with free_pages := f } := by
  refine ⟨?_, h.start, h.top, h.tables, h.dirs⟩
  have hsum := sum_change (s := Finset.Ico m.start_page m.total_pages)
    (f := fun q => if m.memory_map q = 0 then 1 else 0)
    (g := fun q => if (m.setMap p n).memory_map q = 0 then 1 else 0)
    (Finset.mem_Ico.mpr ⟨hlo, hhi⟩) fun q _ hq => by
      show (if Function.update m.memory_map p n q = 0 then 1 else 0) = _
      rw [Function.update_of_ne hq]
  have hself : (m.setMap p n).memory_map p = n := Function.update_self ..
  simp only [hself] at hsum
  have hc := h.counter
  rw [freeCount] at hc
  show f.toNat + m.start_page = (∑ q ∈ Finset.Ico m.start_page m.total_pages,
    if (m.setMap p n).memory_map q = 0 then 1 else 0) + KERNEL_PAGES
  omega

/-- A count that stays above zero. -/
theorem Tidy.setMap (h : Tidy m) {p n : Nat} (hp : m.memory_map p ≠ 0) (hn : n ≠ 0) :
    Tidy (m.setMap p n) := by
  refine ⟨?_, h.start, h.top, h.tables, h.dirs⟩
  have hc := h.counter
  rw [freeCount] at hc
  have hsame : ∀ q, (if (m.setMap p n).memory_map q = 0 then 1 else 0) =
      if m.memory_map q = 0 then 1 else 0 := by
    intro q
    by_cases hq : q = p
    · rw [hq, if_neg hp, if_neg]
      show Function.update m.memory_map p n p ≠ 0
      rw [Function.update_self]
      exact hn
    · show (if Function.update m.memory_map p n q = 0 then 1 else 0) = _
      rw [Function.update_of_ne hq]
  show m.free_pages.toNat + m.start_page = (∑ q ∈ Finset.Ico m.start_page m.total_pages,
    if (m.setMap p n).memory_map q = 0 then 1 else 0) + KERNEL_PAGES
  rw [Finset.sum_congr rfl fun q _ => hsame q]
  exact hc

theorem Tidy.setEntry (h : Tidy m) {q k : Nat} {e : Entry} (he : Opened e) :
    Tidy (m.setEntry q k e) := by
  refine h.paging rfl rfl rfl rfl (fun r j => ?_) h.dirs
  show Opened (Function.update m.table q (Function.update (m.table q) k e) r j)
  by_cases hr : r = q
  · rw [hr, Function.update_self]
    by_cases hj : j = k
    · rw [hj, Function.update_self]
      exact he
    · rw [Function.update_of_ne hj]
      exact h.tables q j
  · rw [Function.update_of_ne hr]
    exact h.tables r j

theorem Tidy.setPage (h : Tidy m) {p : Nat} {entries : Nat → Entry}
    {bytes : Nat → NeonixByteBits.Byte}
    (he : ∀ k, Opened (entries k)) : Tidy (m.setPage p entries bytes) := by
  refine h.paging rfl rfl rfl rfl (fun r j => ?_) h.dirs
  show Opened (Function.update m.table p entries r j)
  by_cases hr : r = p
  · rw [hr, Function.update_self]
    exact he j
  · rw [Function.update_of_ne hr]
    exact h.tables r j

theorem Tidy.setDir (h : Tidy m) {dir : Nat → Entry} (hd : OpenedDir dir) :
    Tidy (m.setDir x (some dir)) := by
  refine h.paging rfl rfl rfl rfl h.tables fun y => ?_
  by_cases hy : y = x
  · rw [hy, show (m.setDir x (some dir)).slot x = dir from slot_setDir_self x dir]
    exact hd
  · rw [show (m.setDir x (some dir)).slot y = m.slot y from slot_setDir_other hy _]
    exact h.dirs y

theorem Tidy.removeDir (h : Tidy m) : Tidy (m.setDir x none) := by
  refine h.paging rfl rfl rfl rfl h.tables fun y d hp => ?_
  by_cases hy : y = x
  · rw [hy, show (m.setDir x none).slot x d = .clear from slot_setDir_none x d] at hp
    cases hp
  · rw [show (m.setDir x none).slot y = m.slot y from slot_setDir_other hy _] at hp ⊢
    exact h.dirs y d hp

theorem opened_init (p : Nat) : Opened (entryInit p) := fun _ => rfl

theorem opened_absent {e : Entry} (h : e.present = false) : Opened e := by
  intro hp
  rw [h] at hp
  cases hp

/-! ## Pages -/

/-- The page `get_page` finds is free and among those counted. -/
theorem getPage_ok {p : Nat} (hx : getPage m = .ok (p, m')) :
    m.memory_map p = 0 ∧ m.start_page ≤ p ∧ p < m.total_pages ∧
      m' = taken m p (m.free_pages - 1) := by
  rw [getPage] at hx
  cases hf : freePage m with
  | none =>
      rw [hf] at hx
      cases hx
  | some i =>
      rw [hf] at hx
      obtain ⟨rfl, rfl⟩ := Prod.mk.inj (Except.ok.inj hx)
      rw [freePage] at hf
      have hzero := List.find?_some hf
      have hmem := List.mem_range'_1.mp (List.mem_of_find?_eq_some hf)
      exact ⟨of_decide_eq_true hzero, hmem.1, by omega, rfl⟩

theorem tidy_getPage (h : Tidy m) : Ends never (getPage m) fun r => Tidy r.2 := by
  cases hx : getPage m with
  | error e => exact id
  | ok r =>
      obtain ⟨p, m'⟩ := r
      obtain ⟨hzero, hlo, hhi, rfl⟩ := getPage_ok hx
      -- the page counts, so the counter is not zero
      have hpos := term_le (f := fun q => if m.memory_map q = 0 then 1 else 0)
        (Finset.mem_Ico.mpr ⟨hlo, hhi⟩)
      simp only [hzero, if_true] at hpos
      have hc := h.counter
      have hstart := h.start
      rw [freeCount] at hc
      have hle : (1 : UInt32) ≤ m.free_pages := UInt32.le_iff_toNat_le.mpr (by
        show 1 ≤ m.free_pages.toNat
        omega)
      have hsub : (m.free_pages - 1).toNat = m.free_pages.toNat - 1 :=
        UInt32.toNat_sub_of_le _ _ hle
      have hnext := h.count (p := p) (n := 1) (f := m.free_pages - 1) hlo hhi (by
        rw [if_pos hzero, if_neg Nat.one_ne_zero, hsub]
        omega)
      exact hnext.paging rfl rfl rfl rfl hnext.tables hnext.dirs

theorem freeCount_le (m : Memory) : freeCount m ≤ m.total_pages - m.start_page := by
  calc freeCount m
      ≤ ∑ _p ∈ Finset.Ico m.start_page m.total_pages, 1 := by
        refine Finset.sum_le_sum fun p _ => ?_
        by_cases hp : m.memory_map p = 0
        · rw [if_pos hp]
        · rw [if_neg hp]
          exact Nat.zero_le 1
    _ = (Finset.Ico m.start_page m.total_pages).card := (Finset.card_eq_sum_ones _).symm
    _ = m.total_pages - m.start_page := Nat.card_Ico ..

/-- The counter is far from wrapping around. -/
theorem Tidy.free_le (h : Tidy m) : m.free_pages.toNat ≤ 2 ^ 21 := by
  have hc := h.counter
  have hle := freeCount_le m
  have htop := h.top
  have hk : KERNEL_PAGES = 4096 := rfl
  omega

/-- What `put_page` leaves. -/
def putCount (m : Memory) (p : Nat) : UInt32 :=
  if m.memory_map p - 1 = 0 then m.free_pages + 1 else m.free_pages

theorem Tidy.dropped (h : Tidy m) {p : Nat} (hlo : m.start_page ≤ p) (hhi : p < m.total_pages)
    (hp : 1 ≤ m.memory_map p) : Tidy (dropped m p (putCount m p)) := by
  refine h.count (n := m.memory_map p - 1) hlo hhi ?_
  rw [if_neg (by omega), putCount]
  by_cases hz : m.memory_map p - 1 = 0
  · have hfree := h.free_le
    have hadd : (m.free_pages + 1).toNat = m.free_pages.toNat + 1 := by
      rw [UInt32.toNat_add]
      exact Nat.mod_eq_of_lt (by
        show m.free_pages.toNat + 1 < 2 ^ 32
        omega)
    rw [if_pos hz, if_pos hz, hadd]
  · rw [if_neg hz, if_neg hz]

theorem tidy_putPage (h : Tidy m) (p : Nat) : Ends never (putPage m p) Tidy := by
  refine (ends_check id fun hr => hr : Ends never (check _) fun _ =>
    m.start_page ≤ p ∧ p < m.total_pages).bind fun _ hr => ?_
  refine Ends.bind (Q := fun _ => 1 ≤ m.memory_map p) ?_ fun _ hp => ?_
  · rw [checkCount]
    exact Ends.ite (fun hp => hp) fun _ => id
  refine (ends_check id fun _ => trivial : Ends never (check _) fun _ => True).bind fun _ _ => ?_
  have hself : (m.setMap p (m.memory_map p - 1)).memory_map p = m.memory_map p - 1 :=
    Function.update_self ..
  have hdrop := h.dropped hr.1 hr.2 hp
  rw [putCount] at hdrop
  show Tidy { m.setMap p (m.memory_map p - 1) with free_pages :=
    if (m.setMap p (m.memory_map p - 1)).memory_map p = 0 then m.free_pages + 1 else m.free_pages }
  rw [hself]
  exact hdrop

/-! ## One mapping -/

theorem tidy_getPte (h : Tidy m) (x : Space) (vaddr : Nat) (create : Bool) :
    Ends never (getPte m x vaddr create) fun r => Tidy r.2 := by
  refine (ends_check id fun _ => trivial : Ends never (check _) fun _ => True).bind fun _ _ => ?_
  refine Ends.ite (fun _ => h) fun _ => (tidy_getPage h).bind fun r hr => ?_
  have hdir : OpenedDir (Function.update (r.2.slot x) (DIDX vaddr) (entryInit r.1)) := by
    intro d hp
    by_cases hd : d = DIDX vaddr
    · rw [hd, Function.update_self]
      exact ⟨rfl, rfl⟩
    · rw [Function.update_of_ne hd] at hp ⊢
      exact hr.dirs x d hp
  exact (hr.setDir hdir).setPage fun _ => opened_absent rfl

theorem tidy_linkPage (h : Tidy m) (x : Space) (vaddr : Nat) :
    Ends never (linkPage m x vaddr) Tidy := by
  refine (ends_check id fun _ => trivial : Ends never (check _) fun _ => True).bind fun _ _ => ?_
  refine (tidy_getPte h x vaddr true).bind fun r hr => Ends.ite (fun _ => hr) fun _ => ?_
  exact (tidy_getPage hr).bind fun q hq => hq.setEntry (opened_init q.1)

theorem tidy_unlinkPage (h : Tidy m) (x : Space) (vaddr : Nat) :
    Ends never (unlinkPage m x vaddr) Tidy := by
  refine (ends_check id fun _ => trivial : Ends never (check _) fun _ => True).bind fun _ _ => ?_
  refine Ends.ite (fun _ => ?_) fun _ => h
  refine (tidy_getPte h x vaddr false).bind fun r hr => Ends.ite (fun _ => ?_) fun _ => hr
  exact tidy_putPage (hr.setEntry (opened_absent rfl)) _

theorem tidy_copyPage (h : Tidy m) (page : Nat) :
    Ends never (copyPage m page) fun r => Tidy r.2 :=
  (tidy_getPage h).bind fun _ hr => hr.setPage fun k => hr.tables page k

/-- A copy takes no page that is in use. -/
theorem copyPage_count (page : Nat) : Ends never (copyPage m page) fun r =>
    ∀ p, m.memory_map p ≠ 0 → r.2.memory_map p = m.memory_map p := by
  cases hx : getPage m with
  | error e =>
      rw [copyPage, hx]
      exact id
  | ok r =>
      obtain ⟨p, m'⟩ := r
      obtain ⟨hzero, -, -, rfl⟩ := getPage_ok hx
      rw [copyPage, hx]
      refine fun q hq => Function.update_of_ne ?_ ..
      rintro rfl
      exact hq hzero

/-! ## Whole directories -/

theorem ends_checkCount_pos {p : Prop} [Decidable p] : Ends never (checkCount p) fun _ => p := by
  rw [checkCount]
  exact Ends.ite (fun hp => hp) fun _ => id

theorem tidy_copyEntry (h : Tidy m) (q k : Nat) : Ends never (copyEntry q k m) Tidy := by
  refine Ends.ite (fun _ => ends_checkCount_pos.bind fun _ hpos => ?_) fun _ => h
  have hm : ∀ m', Tidy m' → m'.memory_map = m.memory_map →
      Tidy (m'.setMap (m.table q k).index (m'.memory_map (m.table q k).index + 1)) := by
    intro m' hm' hmap
    refine hm'.setMap ?_ (Nat.succ_ne_zero _)
    rw [hmap]
    omega
  refine ends_checkCount_pos.bind fun _ _ => ?_
  by_cases hs : (m.table q k).shared = true
  · rw [if_pos hs]
    exact hm m h rfl
  · rw [if_neg hs]
    exact hm _ (h.setEntry fun hp => h.tables q k hp) rfl

theorem tidy_copyPde (h : Tidy m) (x : Space) :
    Ends never (copyPde m x) fun r => OpenedDir r.1 ∧ Tidy r.2 := by
  refine Ends.forLoop never (copySlot x) FIRST_SLOT (SELF_SLOT - FIRST_SLOT) (m.slot x, m)
    (fun _ r => OpenedDir r.1 ∧ Tidy r.2) ⟨h.dirs x, h⟩ ?_
  rintro d ⟨pde, m'⟩ _ _ ⟨hpde, hm⟩
  refine Ends.ite (fun hp => ?_) fun _ => ⟨hpde, hm⟩
  refine (Ends.forLoop never (copyEntry (m'.slot x d).index) 0 1024 m' (fun _ => Tidy) hm
    fun k m'' _ _ hk => tidy_copyEntry hk _ k).bind fun m'' hm'' => ?_
  refine (tidy_copyPage hm'' _).bind fun r hr => ⟨?_, hr⟩
  show OpenedDir (Function.update pde d { pde d with index := r.1 })
  intro d' hd'
  by_cases hd : d' = d
  · rw [hd, Function.update_self]
    exact hpde d hp
  · rw [Function.update_of_ne hd] at hd' ⊢
    exact hpde d' hd'

theorem tidy_freePde (h : Tidy m) (uid : Nat) (x : Space) : Ends never (freePde m uid x) Tidy := by
  refine (ends_check id fun _ => trivial : Ends never (check _) fun _ => True).bind fun _ _ => ?_
  refine (Ends.forLoop never (freeSlot x) FIRST_SLOT (SELF_SLOT - FIRST_SLOT) m (fun _ => Tidy) h
    fun d m' _ _ hm => ?_).bind fun m' hm => ?_
  · refine Ends.ite (fun _ => ?_) fun _ => hm
    refine (Ends.forLoop never (freeEntry (m'.slot x d).index) 0 1024 m' (fun _ => Tidy) hm
      fun k m'' _ _ hk => ?_).bind fun m'' hm'' => tidy_putPage hm'' _
    exact Ends.ite (fun _ => ends_checkCount_pos.bind fun _ _ => tidy_putPage hk _) fun _ => hk
  · exact (ends_check id fun _ => trivial : Ends never (check _) fun _ => True).bind fun _ _ =>
      hm.removeDir

/-- Every reason to stop. -/
def always (_ : Stop) : Prop := True

/-- A `put_page` of `free_pde` returns: its page has a reference, and the counter
    stays between zero and the number of pages. -/
theorem putPage_returns {m₀ : Memory} {E : Nat → Nat} {p : Nat}
    (hF : Freeing x m₀ (fun q => E q + one p q) m) (h : Tidy m) :
    putPage m p = .ok (dropped m p (putCount m p)) := by
  have hpos := hF.pos
  obtain ⟨hlo, hhi⟩ := hF.counted.inside p (by rw [one_self]; omega)
  have hstart := h.start
  have hhi' : p < m.total_pages := hhi
  have hdrop := h.dropped (p := p) (by omega) hhi' hpos
  have hc := hdrop.counter
  -- the pages of the kernel are never free
  have hle : freeCount (dropped m p (putCount m p)) ≤ m.total_pages - KERNEL_PAGES := by
    rw [freeCount]
    show (∑ q ∈ Finset.Ico m.start_page m.total_pages, _) ≤ _
    rw [← Finset.sum_Ico_consecutive _ (Nat.le_of_lt hstart.2) (show KERNEL_PAGES ≤ _ by omega)]
    have hlow : ∀ q ∈ Finset.Ico m.start_page KERNEL_PAGES,
        (if (dropped m p (putCount m p)).memory_map q = 0 then 1 else 0) = 0 := by
      intro q hq
      have hlt := (Finset.mem_Ico.mp hq).2
      have hlow : 1 ≤ m.memory_map q := hF.counted.low q hlt
      refine if_neg ?_
      rw [show (dropped m p (putCount m p)).memory_map q = m.memory_map q from
        Function.update_of_ne (by omega) ..]
      omega
    have hhigh : ∀ q ∈ Finset.Ico KERNEL_PAGES m.total_pages,
        (if (dropped m p (putCount m p)).memory_map q = 0 then 1 else 0) ≤ 1 := by
      intro q _
      split_ifs
      · exact le_rfl
      · exact Nat.zero_le 1
    have hsum := Finset.sum_le_sum hhigh
    rw [← Finset.card_eq_sum_ones, Nat.card_Ico] at hsum
    rw [Finset.sum_eq_zero hlow, Nat.zero_add]
    exact hsum
  have hself : (m.setMap p (m.memory_map p - 1)).memory_map p = m.memory_map p - 1 :=
    Function.update_self ..
  have hcounter : (putCount m p).toNat + m.start_page =
      freeCount (dropped m p (putCount m p)) + KERNEL_PAGES := hc
  have hone : 1 ≤ m.memory_map p := hpos
  rw [putPage, check_pos ⟨by omega, hhi'⟩, bind_ok, checkCount, if_pos hone, bind_ok]
  simp only [hself]
  show (check (0 < (putCount m p).toNat ∧ (putCount m p).toNat < m.total_pages) >>= fun _ => _) = _
  rw [check_pos ⟨by omega, by omega⟩, bind_ok]
  rfl

/-- `free_pde` of a user process returns. -/
theorem freePde_returns (h : Sound m) (ht : Tidy m) {uid : Nat} (huid : uid ≠ KERNEL_USER)
    (hx : x ≠ none) : Ends always (freePde m uid x) fun m' => Sound m' ∧
      m'.dirs = Function.update m.dirs x none ∧ ∀ y, y ≠ x → Unseen y m m' := by
  have hput : Puts always Tidy x m := by
    intro E p m' hF htidy
    have hnext := hF.put
    have hkeep := tidy_putPage htidy p
    rw [putPage_returns hF htidy] at hnext hkeep ⊢
    exact ⟨hnext, hkeep⟩
  refine (ends_freePde_of hput h ht (fun _ => huid) fun _ => hx).mono ?_
  rintro m' ⟨-, hs, hd, hu, -⟩
  exact ⟨hs, hd, hu⟩

/-! ## The calls -/

theorem tidy_sysBrk (h : Tidy m) (t : Task) (brk : Nat) :
    Ends never (sysBrk m t brk) fun r => Tidy r.2.1 := by
  refine (ends_check id fun _ => trivial : Ends never (check _) fun _ => True).bind fun _ _ => ?_
  refine (ends_check id fun _ => trivial : Ends never (check _) fun _ => True).bind fun _ _ => ?_
  refine (ends_check id fun _ => trivial : Ends never (check _) fun _ => True).bind fun _ _ => ?_
  refine Ends.ite (fun _ => ?_) fun _ => Ends.ite (fun _ => h) fun _ => h
  exact (Ends.forLoop never _ 0 _ m (fun _ => Tidy) h fun k m' _ _ hm =>
    tidy_unlinkPage hm _ _).bind fun m' hm => hm

theorem opened_mmap {e : Entry} (prot flags : Nat) : Opened (mmapEntry prot flags e) := by
  intro _
  rw [mmapEntry]
  dsimp only
  split_ifs <;> rfl

theorem tidy_sysMmap (h : Tidy m) (t : Task) (addr length prot flags : Nat) :
    Ends never (sysMmap m t addr length prot flags) fun r => Tidy r.2.1 := by
  refine (Ends.any _).bind fun _ _ => (Ends.any _).bind fun r _ => (Ends.any _).bind fun _ _ => ?_
  refine (Ends.forLoop never _ 0 _ (m, r.2) (fun _ s => Tidy s.1) h ?_).bind fun s hs => hs
  rintro k ⟨m', vmap⟩ _ _ hm
  refine (tidy_linkPage hm _ _).bind fun m'' hm'' => (Ends.any _).bind fun vmap' _ => ?_
  exact (tidy_getPte hm'' _ _ false).bind fun q hq => hq.setEntry (opened_mmap prot flags)

theorem tidy_sysMunmap (h : Tidy m) (t : Task) (vaddr length : Nat) :
    Ends never (sysMunmap m t vaddr length) fun r => Tidy r.1 := by
  refine (Ends.any _).bind fun _ _ => (Ends.any _).bind fun _ _ => ?_
  refine (Ends.forLoop never _ 0 _ (m, t.vmap) (fun _ s => Tidy s.1) h ?_).bind fun s hs => hs
  rintro k ⟨m', vmap⟩ _ _ hm
  exact (tidy_unlinkPage hm _ _).bind fun m'' hm'' => (Ends.any _).bind fun _ _ =>
    (Ends.any _).bind fun _ _ => (Ends.any _).bind fun _ _ => hm''

theorem tidy_pageFault (h : Tidy m) (t : Task) (vaddr : Nat) (present write : Bool) :
    Ends never (pageFault m t vaddr present write) fun r => ∀ m', r = .back m' → Tidy m' := by
  have hback : ∀ {m'}, Tidy m' → ∀ m'', Handled.back m' = .back m'' → Tidy m'' := by
    intro m' hm m'' hb
    cases hb
    exact hm
  refine Ends.ite (fun _ => (Ends.any _).bind fun _ _ => nofun) fun _ => Ends.ite (fun _ => ?_)
    fun _ => Ends.ite (fun _ => ?_) fun _ => id
  · refine (Ends.any _).bind fun _ _ => (tidy_getPte h _ _ false).bind fun r hr => ?_
    refine (Ends.any _).bind fun _ _ => (Ends.any _).bind fun _ _ => (Ends.any _).bind fun _ _ => ?_
    refine ends_checkCount_pos.bind fun _ hpos => Ends.ite (fun _ => ?_) fun hone => ?_
    · exact hback (hr.setEntry fun hp => hr.tables _ _ hp)
    · refine (tidy_copyPage hr _).and (copyPage_count _) |>.bind fun q hq => hback ?_
      refine (hq.1.setMap ?_ ?_).setEntry (opened_init q.1)
      · rw [hq.2 _ (by omega)]
        omega
      · rw [hq.2 _ (by omega)]
        omega
  · exact (tidy_linkPage h _ _).bind fun m' hm => hback hm

theorem tidy_loadSegment (h : Tidy m) (t : Task) (vaddr count : Nat) (writable : Bool) :
    Ends never (loadSegment m t vaddr count writable) fun r => Tidy r.1 := by
  refine (Ends.any _).bind fun _ _ => ?_
  refine (Ends.forLoop never _ 0 count m (fun _ => Tidy) h fun k m' _ _ hm => ?_).bind fun m' hm => ?_
  · exact (Ends.any _).bind fun _ _ => tidy_linkPage hm _ _
  · refine (Ends.forLoop never _ 0 _ m' (fun _ => Tidy) hm fun k m'' _ _ hm => ?_).bind
      fun m'' hm => hm
    exact (tidy_getPte hm _ _ false).bind fun r hr => hr.setEntry fun hp => hr.tables _ _ hp

/-! ## Runs -/

theorem tidy_taskExit (h : Tidy s.mem) : Ends never (taskExit s i t) fun s' => Tidy s'.mem :=
  (tidy_freePde h t.uid t.pde).bind fun _ hm => hm

theorem tidy_exec (h : Tidy s.mem) {e : Event} (hl : Listed s e) :
    Ends never (exec s e) fun s' => Tidy s'.mem := by
  cases e with
  | create i uid => exact h
  | toUserMode i =>
      refine (Ends.any _).bind fun t _ => (tidy_copyPde h t.pde).bind fun r hr => ?_
      exact hr.2.setDir hr.1
  | fork i j =>
      refine (Ends.any _).bind fun t _ => (tidy_copyPde h t.pde).bind fun r hr => ?_
      exact hr.2.setDir hr.1
  | exit i => exact (Ends.any _).bind fun t _ => tidy_taskExit h
  | link i vaddr => exact (Ends.any _).bind fun t _ => (tidy_linkPage h _ _).bind fun m' hm => hm
  | unlink i vaddr => exact (Ends.any _).bind fun t _ => (tidy_unlinkPage h _ _).bind fun m' hm => hm
  | fault i vaddr present write =>
      refine (Ends.any _).bind fun t _ =>
        (tidy_pageFault h t vaddr present write).bind fun r hr => ?_
      cases r with
      | exit => exact tidy_taskExit h
      | back m' => exact hr m' rfl
  | brk i addr => exact (Ends.any _).bind fun t _ => (tidy_sysBrk h t addr).bind fun r hr => hr
  | mmap i addr length prot flags =>
      exact (Ends.any _).bind fun t _ => (tidy_sysMmap h t _ _ _ _).bind fun r hr => hr
  | munmap i addr length =>
      exact (Ends.any _).bind fun t _ => (tidy_sysMunmap h t _ _).bind fun r hr => hr
  | execve i =>
      refine (Ends.any _).bind fun t _ => (tidy_sysBrk h _ _).bind fun r hr => ?_
      exact (tidy_linkPage hr _ _).bind fun m' hm => hm
  | segment i vaddr count writable =>
      exact (Ends.any _).bind fun t _ => (tidy_loadSegment h t _ _ _).bind fun r hr => hr
  | store => exact absurd hl id
  | storeWindow => exact absurd hl id

/-- What `mapping_init` leaves. -/
theorem tidy_boot (h : Boot s) : Tidy s.mem := by
  obtain ⟨size, data, hpages, hmin, hmax, rfl⟩ := h
  simp only [KERNEL_MEMORY_SIZE, MEMORY_BASE, PAGE_SIZE] at hpages hmin hmax
  have hclear : ∀ x d, (mappingInit size data).slot x d = .clear := by
    intro x d
    by_cases hx : x = none
    · subst hx
      rfl
    · simp only [Paging.slot, mappingInit, if_neg hx]
  have hk : KERNEL_PAGES = 4096 := rfl
  have hbase : IDX MEMORY_BASE = 256 := rfl
  have hkernel : IDX KERNEL_MEMORY_SIZE = 4096 := rfl
  have htotal : (mappingInit size data).total_pages = size / 4096 + 256 := rfl
  have hstart : (mappingInit size data).start_page = 256 + (size / 4096 + 256 + 4095) / 4096 := rfl
  have hfree : (mappingInit size data).free_pages.toNat =
      size / 4096 - (size / 4096 + 256 + 4095) / 4096 := by
    show (UInt32.ofNat (size / 4096 - (size / 4096 + 256 + 4095) / 4096)).toNat = _
    rw [UInt32.toNat_ofNat']
    exact Nat.mod_eq_of_lt (by omega)
  have hcount : freeCount (mappingInit size data) =
      (mappingInit size data).total_pages - KERNEL_PAGES := by
    rw [freeCount, ← Finset.sum_Ico_consecutive _ (show _ ≤ KERNEL_PAGES by omega) (by omega)]
    have hlow : ∀ p ∈ Finset.Ico (mappingInit size data).start_page KERNEL_PAGES,
        (if (mappingInit size data).memory_map p = 0 then 1 else 0) = 0 := by
      intro p hp
      have hlt := (Finset.mem_Ico.mp hp).2
      refine if_neg ?_
      rw [show (mappingInit size data).memory_map p = 1 from if_pos (Or.inr hlt)]
      exact Nat.one_ne_zero
    have hhigh : ∀ p ∈ Finset.Ico KERNEL_PAGES (mappingInit size data).total_pages,
        (if (mappingInit size data).memory_map p = 0 then 1 else 0) = 1 := by
      intro p hp
      have hge := (Finset.mem_Ico.mp hp).1
      refine if_pos (if_neg ?_)
      rw [hbase, hkernel]
      simp only [IDX, PAGE_SIZE]
      omega
    rw [Finset.sum_eq_zero hlow, Finset.sum_congr rfl hhigh, Nat.zero_add,
      ← Finset.card_eq_sum_ones,
      Nat.card_Ico]
  suffices htidy : Tidy (mappingInit size data) from htidy
  refine ⟨?_, by omega, by omega, fun _ _ => opened_absent rfl, fun x d hp => ?_⟩
  · rw [hcount, hfree, hstart, htotal]
    omega
  · rw [hclear x d] at hp
    cases hp

/-- The run lemma. -/
theorem reach_tidy (h : Reach system Listed s) : Tidy s.mem := by
  suffices hinv : (fun s : State => Tidy s.mem) s from hinv
  refine h.invariant (fun s₀ (hs : Boot s₀) => tidy_boot hs) fun s₀ e s₁ ht hl hstep => ?_
  exact (tidy_exec ht hl).of_ok hstep.2

end NeonixPageBalance
