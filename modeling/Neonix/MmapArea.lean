import Neonix.PageBalance

/-! # The area of `sys_mmap`

    The bitmap of a process has a bit for each page from the first `sys_mmap`
    admits up to the top of the stack.  `sys_mmap` compares the first page of a
    range with the bottom of the stack, and no other; `bitmap_set` compares
    nothing.  A trace keeps the pages of the calls next to the state. -/

namespace NeonixMmapArea

open NeonixMachine NeonixOutcome NeonixRuns NeonixByteBits NeonixBitmap NeonixMemory NeonixPageCounts
open NeonixPageBalance (never)

variable {m : Memory} {map : Bitmap} {x : Space} {vaddr count prot flags : Nat}

/-- A load or store outside an object. -/
def wild (e : Stop) : Prop := e = .outOfBounds

/-! ## The calls of a loop -/

theorem wild_check (p : Prop) [Decidable p] : Ends wild (check p) fun _ => p :=
  ends_check (fun he => nomatch he) id

theorem wild_getPage (m : Memory) : Ends wild (getPage m) fun _ => True := by
  rw [getPage]
  cases freePage m with
  | none => rintro ⟨⟩
  | some i => trivial

theorem wild_getPte (m : Memory) (x : Space) (vaddr : Nat) (create : Bool) :
    Ends wild (getPte m x vaddr create) fun _ => True := by
  refine (wild_check _).bind fun _ _ => Ends.ite (fun _ => trivial) fun _ => ?_
  exact (wild_getPage m).bind fun r _ => trivial

theorem wild_linkPage (m : Memory) (x : Space) (vaddr : Nat) :
    Ends wild (linkPage m x vaddr) fun _ => True := by
  refine (wild_check _).bind fun _ _ => (wild_getPte m x vaddr true).bind fun r _ => ?_
  refine Ends.ite (fun _ => trivial) fun _ => ?_
  exact (wild_getPage r.2).bind fun r' _ => trivial

theorem idx_page (vaddr i : Nat) : IDX (vaddr + PAGE_SIZE * i) = IDX vaddr + i :=
  Nat.add_mul_div_left _ _ (by decide)

/-- The loop of `sys_mmap` on pages that have a bit. -/
theorem ends_mmapLoop (hlo : map.offset ≤ IDX vaddr)
    (hhi : IDX vaddr + count ≤ map.offset + 8 * map.size) :
    Ends wild (forLoop (mmapPage x vaddr prot flags) 0 count (m, map)) fun r =>
      ∃ bits, r.2 = { map with bits := bits } ∧
        Stored map.bits bits (IDX vaddr - map.offset) count true := by
  obtain ⟨start, hstart⟩ := Nat.exists_eq_add_of_le hlo
  have hloop := Ends.forLoop wild (mmapPage x vaddr prot flags) 0 count (m, map)
    (fun i r => ∃ bits, r.2 = { map with bits := bits } ∧ Stored map.bits bits start i true) ?_ ?_
  · rw [Nat.zero_add] at hloop
    rw [hstart, Nat.add_sub_cancel_left]
    exact hloop
  · exact ⟨map.bits, rfl, .nil _ _ _⟩
  · rintro i ⟨m', map'⟩ _ hi ⟨bits, hmap, hstored⟩
    refine (wild_linkPage m' x _).bind fun m₁ _ => ?_
    have hset : bitmapSet map' (IDX (vaddr + PAGE_SIZE * i)) true =
        .ok { map with bits := putBit bits (start + i) true } := by
      rw [idx_page, hstart, Nat.add_assoc, show map' = { map with bits := bits } from hmap]
      exact bitmapSet_eq { map with bits := bits }
        (show (start + i) / 8 < map.size by omega) true
    rw [show (m', map').2 = map' from rfl, hset, bind_ok]
    exact (wild_getPte m₁ x _ false).bind fun r _ => ⟨_, rfl, hstored.snoc⟩

theorem never_check (p : Prop) [Decidable p] : Ends never (check p) fun _ => p :=
  ends_check (fun he => he) id

/-- A store of a bit that returns. -/
theorem set_returns (map : Bitmap) (k : Nat) (v : Bool) :
    Ends never (bitmapSet map (map.offset + k) v) fun r =>
      r = { map with bits := putBit map.bits k v } := by
  by_cases hs : k / 8 < map.size
  · rw [bitmapSet_eq map hs]
    rfl
  · refine (never_check _).bind fun _ _ => ?_
    simp only [Nat.add_sub_cancel_left, Bitmap.load, if_neg hs, bind_error]
    exact id

/-- The loop of `sys_munmap`. -/
theorem ends_munmapLoop (hlo : map.offset ≤ IDX vaddr) :
    Ends never (forLoop (munmapPage x vaddr) 0 count (m, map)) fun r =>
      ∃ bits, r.2 = { map with bits := bits } ∧
        Stored map.bits bits (IDX vaddr - map.offset) count false := by
  obtain ⟨start, hstart⟩ := Nat.exists_eq_add_of_le hlo
  have hloop := Ends.forLoop never (munmapPage x vaddr) 0 count (m, map)
    (fun i r => ∃ bits, r.2 = { map with bits := bits } ∧ Stored map.bits bits start i false) ?_ ?_
  · rw [Nat.zero_add] at hloop
    rw [hstart, Nat.add_sub_cancel_left]
    exact hloop
  · exact ⟨map.bits, rfl, .nil _ _ _⟩
  · rintro i ⟨m', map'⟩ _ hi ⟨bits, hmap, hstored⟩
    refine (Ends.any _).bind fun m₁ _ => (Ends.any _).bind fun b _ => ?_
    refine (never_check _).bind fun _ _ => ?_
    -- a test that returned is one of a bit in the buffer, but the store says so itself
    have hset : Ends never (bitmapSet map' (IDX (vaddr + PAGE_SIZE * i)) false) fun r =>
        r = { map with bits := putBit bits (start + i) false } := by
      rw [idx_page, hstart, Nat.add_assoc, show map' = { map with bits := bits } from hmap]
      exact set_returns { map with bits := bits } (start + i) false
    refine hset.bind ?_
    rintro _ rfl
    exact ⟨_, rfl, hstored.snoc⟩

/-! ## Bitmaps of processes -/

/-- The bitmap of a process: a page of bits, from the first page `sys_mmap`
    admits on. -/
structure OfUser (map : Bitmap) : Prop where
  size : map.size = PAGE_SIZE
  length : map.length = PAGE_SIZE
  offset : map.offset = IDX USER_MMAP_ADDR

theorem OfUser.bits (h : OfUser map) (bits : Bytes) : OfUser { map with bits := bits } :=
  ⟨h.size, h.length, h.offset⟩

/-- The bits of the pages below the bottom of the stack. -/
def AREA : Nat := IDX USER_STACK_BOTTOM - IDX USER_MMAP_ADDR

/-- A range lies in the area. -/
def InArea (vaddr count : Nat) : Prop :=
  ∀ i < count, USER_MMAP_ADDR ≤ vaddr + PAGE_SIZE * i ∧ vaddr + PAGE_SIZE * i < USER_STACK_BOTTOM

/-- What is asked of a call of `sys_mmap` that ends: the pages it maps lie in the
    area, and their bits in the bitmap. -/
def Stays (map : Bitmap) (count : Nat) : Res (Nat × Memory × Task) → Prop
  | .ok (vaddr, _, _) => InArea vaddr count ∧
      ∀ i < count, map.offset ≤ IDX vaddr + i ∧ IDX vaddr + i < map.offset + 8 * map.length
  | .error e => e ≠ .outOfBounds

/-- A call no assertion and no `panic` ends. -/
def Goes (r : Res (Nat × Memory × Task)) : Prop := ∀ e, r = .error e → e = .outOfBounds

/-- The range asked for ends at or below the bottom of the stack, or there is room
    for it below. -/
def Fits (t : Task) (addr count : Nat) : Prop :=
  if addr = 0 then ∃ start, start + count ≤ AREA ∧ Clear t.vmap.bits start count
  else addr + PAGE_SIZE * count ≤ USER_STACK_BOTTOM

/-- The addresses of the pages of the bitmap. -/
theorem idx_bounds (hv : vaddr % PAGE_SIZE = 0) (count : Nat) :
    vaddr = PAGE (IDX vaddr) ∧ (USER_MMAP_ADDR ≤ vaddr ↔ IDX USER_MMAP_ADDR ≤ IDX vaddr) ∧
      (vaddr + PAGE_SIZE * count ≤ USER_STACK_BOTTOM ↔ IDX vaddr + count ≤ IDX USER_STACK_BOTTOM) := by
  simp only [PAGE_SIZE, PAGE, IDX, USER_MMAP_ADDR, USER_STACK_BOTTOM, USER_STACK_TOP,
    USER_STACK_SIZE] at hv ⊢
  omega

/-- The last page of a range in the area ends at or below the bottom of the stack. -/
theorem InArea.end_le (h : InArea vaddr count) (hv : vaddr % PAGE_SIZE = 0) (hc : 0 < count) :
    vaddr + PAGE_SIZE * count ≤ USER_STACK_BOTTOM := by
  have hlast := (h (count - 1) (by omega)).2
  simp only [PAGE_SIZE, USER_STACK_BOTTOM, USER_STACK_TOP, USER_STACK_SIZE] at hv hlast ⊢
  omega

theorem inArea_of_le (h : vaddr + PAGE_SIZE * count ≤ USER_STACK_BOTTOM)
    (hlo : USER_MMAP_ADDR ≤ vaddr) : InArea vaddr count := by
  intro i hi
  simp only [PAGE_SIZE] at h ⊢
  omega

/-- Where `sys_mmap` maps at address 0: the first run of clear bits. -/
theorem scanPage_run (h : OfUser map) {r : Nat × Bitmap} (hr : scanPage map count = .ok r) :
    0 < count ∧ ∃ start bits, r = (PAGE (start + map.offset), { map with bits := bits }) ∧
      FirstRun map.bits count (map.length * 8) (some start) ∧
      Stored map.bits bits start count true := by
  obtain ⟨_, hpos, hr⟩ := bind_eq_ok hr
  have hcount := of_check hpos
  refine ⟨hcount, ?_⟩
  rcases bitmapScan_run map (by rw [h.size, h.length]) hcount with
    ⟨start, bits, hscan, hfirst, hstored⟩ | ⟨hscan, _⟩
  · rw [hscan, bind_ok] at hr
    cases hr
    exact ⟨start, bits, rfl, hfirst, hstored⟩
  · rw [hscan, bind_ok] at hr
    cases hr

/-- With room below the bottom of the stack, the search returns and finds it. -/
theorem scanPage_fits (h : OfUser map) (hroom : ∃ start, start + count ≤ AREA ∧ Clear map.bits start count) :
    Ends wild (scanPage map count) fun r => ∃ start bits,
      r = (PAGE (start + map.offset), { map with bits := bits }) ∧ start + count ≤ AREA ∧
        Stored map.bits bits start count true := by
  cases hr : scanPage map count with
  | ok r =>
      obtain ⟨_, start, bits, rfl, hfirst, hstored⟩ := scanPage_run h hr
      obtain ⟨least, hle, hclear⟩ := hroom
      have hmin : start ≤ least := by
        by_contra hlt
        exact hfirst.2.2 least (Nat.not_le.mp hlt) hclear
      exact ⟨start, bits, rfl, by omega, hstored⟩
  | error e =>
      rintro rfl
      rw [scanPage] at hr
      by_cases hcount : 0 < count
      · rw [check_pos hcount, bind_ok] at hr
        rcases bitmapScan_run map (by rw [h.size, h.length]) hcount with
          ⟨start, bits, hscan, _⟩ | ⟨hscan, _⟩
        · rw [hscan, bind_ok] at hr
          cases hr
        · rw [hscan, bind_ok] at hr
          cases hr
      · rw [check_neg hcount, bind_error] at hr
        cases hr

/-! ## `sys_mmap` and `sys_munmap` -/

section Calls

variable {t : Task} {addr length : Nat}

/-- Where `sys_mmap` maps, and which bits the search for it has set. -/
theorem ends_mmapAddr (h : OfUser t.vmap) (haddr : addr % PAGE_SIZE = 0) (hf : Fits t addr count) :
    Ends wild (mmapAddr t addr count) fun r => r.1 % PAGE_SIZE = 0 ∧
      r.1 + PAGE_SIZE * count ≤ USER_STACK_BOTTOM ∧ ∃ bits, r.2 = { t.vmap with bits := bits } ∧
        (bits = t.vmap.bits ∨ Stored t.vmap.bits bits (IDX r.1 - t.vmap.offset) count true) := by
  rw [mmapAddr]
  refine Ends.ite (fun hnull => ?_) fun hnull => ?_
  · rw [Fits, if_pos hnull] at hf
    refine (scanPage_fits h hf).mono ?_
    rintro _ ⟨start, bits, rfl, hle, hstored⟩
    have hoff := h.offset
    have hidx : IDX (PAGE (start + t.vmap.offset)) = start + t.vmap.offset :=
      Nat.mul_div_cancel _ (by decide)
    refine ⟨Nat.mul_mod_left _ _, ?_, bits, rfl, Or.inr ?_⟩
    · simp only [AREA, PAGE, PAGE_SIZE, IDX, USER_MMAP_ADDR, USER_STACK_BOTTOM, USER_STACK_TOP,
        USER_STACK_SIZE] at hle hoff ⊢
      omega
    · rw [hidx, Nat.add_sub_cancel]
      exact hstored
  · rw [Fits, if_neg hnull] at hf
    exact ⟨haddr, hf, t.vmap.bits, rfl, Or.inl rfl⟩

/-- `sys_mmap` of a range that fits: it stays in the area, and sets the bits of its
    pages. -/
theorem ends_sysMmap (h : OfUser t.vmap) (hf : Fits t addr (pageCount length)) :
    Ends wild (sysMmap m t addr length prot flags) fun r =>
      r.1 % PAGE_SIZE = 0 ∧ USER_MMAP_ADDR ≤ r.1 ∧
      r.1 + PAGE_SIZE * pageCount length ≤ USER_STACK_BOTTOM ∧ ∃ bits,
        r.2.2 = { t with vmap := { t.vmap with bits := bits } } ∧
        Stored t.vmap.bits bits (IDX r.1 - t.vmap.offset) (pageCount length) true := by
  refine (wild_check _).bind fun _ haddr => (ends_mmapAddr h haddr hf).bind ?_
  rintro ⟨vaddr, vmap⟩ ⟨hpage, hend, bits, hvmap, hbits⟩
  refine (wild_check _).bind fun _ hrange => ?_
  simp only at hpage hend hvmap hbits
  have hbounds := idx_bounds hpage (pageCount length)
  have hlo := hbounds.2.1.mp hrange.1
  have hhi := hbounds.2.2.mp hend
  have hloop : Ends wild (forLoop (mmapPage t.pde vaddr prot flags) 0 (pageCount length) (m, vmap)) _ :=
    ends_mmapLoop (hvmap ▸ h.offset ▸ hlo) (hvmap ▸ ?_)
  · refine hloop.bind ?_
    rintro ⟨m', vmap'⟩ ⟨bits', hvmap', hstored⟩
    refine ⟨hpage, hrange.1, hend, bits', ?_, ?_⟩
    · show ({ t with vmap := vmap' } : Task) = _
      rw [show vmap' = { vmap with bits := bits' } from hvmap', hvmap]
    · rw [hvmap] at hstored
      rcases hbits with rfl | hbits
      · exact hstored
      · exact hbits.again hstored
  · show _ ≤ t.vmap.offset + 8 * t.vmap.size
    rw [h.offset, h.size]
    refine le_trans hhi ?_
    decide

/-- A call that goes through stays in the area exactly if its range fits. -/
theorem stays_iff (h : OfUser t.vmap) (hgo : Goes (sysMmap m t addr length prot flags)) :
    Stays t.vmap (pageCount length) (sysMmap m t addr length prot flags) ↔
      Fits t addr (pageCount length) := by
  constructor
  · intro hstays
    cases hr : sysMmap m t addr length prot flags with
    | error e =>
        rw [hr] at hstays
        exact absurd (hgo e hr) hstays
    | ok r =>
        rw [hr] at hstays
        obtain ⟨_, haddr, hr⟩ := bind_eq_ok hr
        obtain ⟨⟨vaddr, vmap⟩, hva, hr⟩ := bind_eq_ok hr
        obtain ⟨_, hrange, hr⟩ := bind_eq_ok hr
        obtain ⟨r', _, hr⟩ := bind_eq_ok hr
        cases hr
        have hin : InArea vaddr (pageCount length) := hstays.1
        rw [mmapAddr] at hva
        rw [Fits]
        split_ifs at hva ⊢ with hnull
        · obtain ⟨hcount, start, bits, heq, hfirst, _⟩ := scanPage_run h hva
          obtain ⟨rfl, rfl⟩ := Prod.mk.inj heq
          refine ⟨start, ?_, hfirst.2.1⟩
          have hend := hin.end_le (Nat.mul_mod_left _ _) hcount
          have hoff := h.offset
          simp only [AREA, PAGE, PAGE_SIZE, IDX, USER_MMAP_ADDR, USER_STACK_BOTTOM, USER_STACK_TOP,
            USER_STACK_SIZE] at hend hoff ⊢
          omega
        · cases hva
          rcases Nat.eq_zero_or_pos (pageCount length) with hzero | hpos
          · rw [hzero, Nat.mul_zero, Nat.add_zero]
            exact Nat.le_of_lt (of_check hrange).2
          · exact hin.end_le (of_check haddr) hpos
  · intro hf
    have hends : Ends wild (sysMmap m t addr length prot flags) _ := ends_sysMmap h hf
    cases hr : sysMmap m t addr length prot flags with
    | error e => exact fun he => hends.not_bad he hr
    | ok r =>
        obtain ⟨vaddr, m', t'⟩ := r
        obtain ⟨hpage, hlo, hend, _⟩ := hends.of_ok hr
        have hbounds := idx_bounds hpage (pageCount length)
        refine ⟨inArea_of_le hend hlo, fun i hi => ⟨?_, ?_⟩⟩
        · rw [h.offset]
          exact Nat.le_add_right_of_le (hbounds.2.1.mp hlo)
        · rw [h.offset, h.length]
          refine lt_of_lt_of_le (Nat.add_lt_add_left hi _) (le_trans (hbounds.2.2.mp hend) ?_)
          decide

/-- At address 0 every page of the range had a clear bit. -/
theorem sysMmap_null (h : OfUser t.vmap) {r : Nat × Memory × Task}
    (hr : sysMmap m t 0 length prot flags = .ok r) :
    ∀ i < pageCount length, t.vmap.offset ≤ IDX r.1 + i ∧
      bitAt t.vmap.bits (IDX r.1 + i - t.vmap.offset) = false := by
  obtain ⟨_, _, hr⟩ := bind_eq_ok hr
  obtain ⟨⟨vaddr, vmap⟩, hva, hr⟩ := bind_eq_ok hr
  obtain ⟨_, _, hr⟩ := bind_eq_ok hr
  obtain ⟨r', _, hr⟩ := bind_eq_ok hr
  cases hr
  obtain ⟨_, start, bits, heq, hfirst, _⟩ := scanPage_run h hva
  obtain ⟨rfl, rfl⟩ := Prod.mk.inj heq
  have hidx : IDX (PAGE (start + t.vmap.offset)) = start + t.vmap.offset :=
    Nat.mul_div_cancel _ (by decide)
  intro i hi
  show t.vmap.offset ≤ IDX (PAGE (start + t.vmap.offset)) + i ∧
    bitAt t.vmap.bits (IDX (PAGE (start + t.vmap.offset)) + i - t.vmap.offset) = false
  rw [hidx]
  exact ⟨by omega, hfirst.2.1 _ (by omega) (by omega)⟩

/-- `sys_munmap` clears the bits of its range. -/
theorem ends_sysMunmap (h : OfUser t.vmap) : Ends never
    (sysMunmap m t vaddr length) fun r => USER_MMAP_ADDR ≤ vaddr ∧ ∃ bits,
      r.2 = { t with vmap := { t.vmap with bits := bits } } ∧
      Stored t.vmap.bits bits (IDX vaddr - t.vmap.offset) (pageCount length) false := by
  refine (never_check _).bind fun _ hrange => (never_check _).bind fun _ hpage => ?_
  have hlo := (idx_bounds hpage 0).2.1.mp hrange.1
  rw [← h.offset] at hlo
  refine (ends_munmapLoop hlo).bind ?_
  rintro ⟨m', vmap'⟩ ⟨bits, hvmap, hstored⟩
  refine ⟨hrange.1, bits, ?_, hstored⟩
  show ({ t with vmap := vmap' } : Task) = _
  rw [show vmap' = { t.vmap with bits := bits } from hvmap]

end Calls

/-! ## Traces -/

/-- The state, with the pages that `sys_mmap` mapped for a process and `sys_munmap`
    has not unmapped. -/
structure Trace where
  state : State
  mapped : TaskId → Nat → Bool

/-- The pages after a call on `count` of them from `first` on. -/
def setPages (f : Nat → Bool) (first count : Nat) (v : Bool) : Nat → Bool :=
  fun p => if first ≤ p ∧ p < first + count then v else f p

/-- The pages after an event: a new process has none, a child those of its parent. -/
def record (s : Trace) : Event → TaskId → Nat → Bool
  | .toUserMode i => Function.update s.mapped i fun _ => false
  | .fork i j => Function.update s.mapped j (s.mapped i)
  | .mmap i addr length prot flags =>
      match (do
        let t ← running s.state i
        sysMmap s.state.mem t addr length prot flags) with
      | .ok (vaddr, _, _) =>
          Function.update s.mapped i
            (setPages (s.mapped i) (IDX vaddr) (pageCount length) true)
      | .error _ => s.mapped
  | .munmap i addr length =>
      Function.update s.mapped i (setPages (s.mapped i) (IDX addr) (pageCount length) false)
  | _ => s.mapped

def execTrace (s : Trace) (e : Event) : Res Trace := do
  let state ← exec s.state e
  return { state := state, mapped := record s e }

def traced : System Trace Event :=
  execSystem (fun s => Boot s.state ∧ s.mapped = fun _ _ => false) (fun s e => Enabled s.state e)
    execTrace

/-- The task is a process. -/
def OfProcess (s : State) (i : TaskId) : Prop := ∀ t ∈ s.task i, t.pde ≠ none

instance (s : State) (i : TaskId) : Decidable (OfProcess s i) :=
  inferInstanceAs (Decidable (∀ t ∈ s.task i, t.pde ≠ none))

/-- `sys_mmap`, `sys_munmap` and fork are calls of processes; stores are left out. -/
def ByUser (s : Trace) : Event → Prop
  | .mmap i _ _ _ _ | .munmap i _ _ | .fork i _ => OfProcess s.state i
  | .store .. | .storeWindow .. => False
  | _ => True

/-- The ranges asked for fit. -/
def Fitting (s : Trace) (e : Event) : Prop :=
  ByUser s e ∧ ∀ i addr length prot flags, e = .mmap i addr length prot flags →
    ∀ t ∈ s.state.task i, Fits t addr (pageCount length)

/-- The pages of a process lie in the area, and each has its bit. -/
structure Marked (t : Task) (mapped : Nat → Bool) : Prop where
  map : OfUser t.vmap
  lo : ∀ p, mapped p = true → IDX USER_MMAP_ADDR ≤ p
  hi : ∀ p, mapped p = true → p < IDX USER_STACK_BOTTOM
  bit : ∀ p, mapped p = true → bitAt t.vmap.bits (p - t.vmap.offset) = true

/-- What the events keep. -/
def AllMarked (s : Trace) : Prop :=
  ∀ i t, s.state.task i = some t → t.pde ≠ none → Marked t (s.mapped i)

section Steps

variable {s s' : Trace} {i j : TaskId} {t t' : Task} {f : Nat → Bool} {first : Nat}

/-- A process begins with a clear bitmap. -/
theorem marked_new : Marked { t with vmap := userMap, pde := some i } fun _ => false :=
  ⟨⟨rfl, (by decide : userMap.length = PAGE_SIZE), rfl⟩, nofun, nofun, nofun⟩

/-- `sys_mmap` marks the pages of its range. -/
theorem Marked.mmap (h : Marked t f) {bits : Bytes} (hlo : IDX USER_MMAP_ADDR ≤ first)
    (hhi : first + count ≤ IDX USER_STACK_BOTTOM)
    (hstored : Stored t.vmap.bits bits (first - t.vmap.offset) count true) :
    Marked { t with vmap := { t.vmap with bits := bits } } (setPages f first count true) := by
  have hoff := h.map.offset
  refine ⟨h.map.bits bits, fun p hp => ?_, fun p hp => ?_, fun p hp => ?_⟩
  all_goals
    rw [setPages] at hp
    split_ifs at hp with hin
  · omega
  · exact h.lo p hp
  · omega
  · exact h.hi p hp
  · show bitAt bits (p - t.vmap.offset) = true
    rw [hstored, if_pos (by omega)]
  · show bitAt bits (p - t.vmap.offset) = true
    rw [hstored]
    split_ifs
    · rfl
    · exact h.bit p hp

/-- `sys_munmap` unmarks those of its. -/
theorem Marked.munmap (h : Marked t f) {bits : Bytes} (hlo : IDX USER_MMAP_ADDR ≤ first)
    (hstored : Stored t.vmap.bits bits (first - t.vmap.offset) count false) :
    Marked { t with vmap := { t.vmap with bits := bits } } (setPages f first count false) := by
  have hoff := h.map.offset
  refine ⟨h.map.bits bits, fun p hp => ?_, fun p hp => ?_, fun p hp => ?_⟩
  all_goals
    rw [setPages] at hp
    split_ifs at hp with hin
  · exact h.lo p hp
  · exact h.hi p hp
  · have hp' := h.lo p hp
    show bitAt bits (p - t.vmap.offset) = true
    rw [hstored, if_neg (by omega)]
    exact h.bit p hp

/-- Processes have the bitmaps they had. -/
def Same (s s' : State) : Prop :=
  ∀ j t', s'.task j = some t' → t'.pde ≠ none →
    ∃ t, s.task j = some t ∧ t.pde ≠ none ∧ t'.vmap = t.vmap

variable {a a' : State}

theorem same_tasks (h : a'.task = a.task) : Same a a' := by
  intro j t' ht' hp
  rw [h] at ht'
  exact ⟨t', ht', hp, rfl⟩

theorem same_setTask {m : Memory} {u : Option Task}
    (hu : ∀ t' ∈ u, t'.pde ≠ none → ∃ t, a.task i = some t ∧ t.pde ≠ none ∧ t'.vmap = t.vmap) :
    Same a ({ a with mem := m }.setTask i u) := by
  intro j t' ht' hp
  change Function.update a.task i u j = some t' at ht'
  rw [Function.update_apply] at ht'
  split_ifs at ht' with hj
  · rw [hj]
    exact hu t' ht' hp
  · exact ⟨t', ht', hp, rfl⟩

theorem same_keep {m : Memory} (ht : a.task i = some t) (hv : t'.vmap = t.vmap)
    (hp : t'.pde = t.pde) :
    Same a ({ a with mem := m }.setTask i (some t')) := by
  refine same_setTask fun u hu hpu => ?_
  cases hu
  exact ⟨t, ht, hp ▸ hpu, hv⟩

theorem same_drop {m : Memory} : Same a ({ a with mem := m }.setTask i none) :=
  same_setTask nofun

theorem running_returns (a : State) (i : TaskId) :
    Ends never (running a i) fun t => a.task i = some t := by
  rw [running]
  cases a.task i with
  | none => exact id
  | some t => rfl

theorem sysBrk_returns (m : Memory) (t : Task) (brk : Nat) : Ends never (sysBrk m t brk) fun r =>
    r.2.2.vmap = t.vmap ∧ r.2.2.pde = t.pde := by
  refine (Ends.any _).bind fun _ _ => (Ends.any _).bind fun _ _ => (Ends.any _).bind fun _ _ => ?_
  refine Ends.ite (fun _ => (Ends.any _).bind fun m' _ => ⟨rfl, rfl⟩) fun _ => ?_
  exact Ends.ite (fun _ => ⟨rfl, rfl⟩) fun _ => ⟨rfl, rfl⟩

theorem loadSegment_returns (m : Memory) (t : Task) (vaddr count : Nat) (writable : Bool) :
    Ends never (loadSegment m t vaddr count writable) fun r =>
      r.2.vmap = t.vmap ∧ r.2.pde = t.pde :=
  (Ends.any _).bind fun _ _ => (Ends.any _).bind fun _ _ => (Ends.any _).bind fun _ _ => ⟨rfl, rfl⟩

theorem taskExit_same (a : State) (i : TaskId) (t : Task) :
    Ends never (taskExit a i t) fun a' => Same a a' :=
  (Ends.any _).bind fun _ _ => same_drop

theorem handled_same (a : State) (i : TaskId) (t : Task) (r : Handled) :
    Ends never (handled a i t r) fun a' => Same a a' := by
  cases r with
  | exit => exact taskExit_same a i t
  | back m => exact same_tasks rfl

/-- The calls that change no bitmap of a process. -/
def Plain : Event → Prop
  | .exit _ | .link .. | .unlink .. | .fault .. | .brk .. | .execve _ | .segment .. => True
  | _ => False

theorem exec_same (a : State) {e : Event} (he : Plain e) :
    Ends never (exec a e) fun a' => Same a a' := by
  cases e with
  | exit i => exact (Ends.any _).bind fun t _ => taskExit_same a i t
  | link i vaddr => exact (Ends.any _).bind fun t _ => (Ends.any _).bind fun m _ => same_tasks rfl
  | unlink i vaddr => exact (Ends.any _).bind fun t _ => (Ends.any _).bind fun m _ => same_tasks rfl
  | fault i vaddr present write =>
      exact (Ends.any _).bind fun t _ => (Ends.any _).bind fun r _ => handled_same a i t r
  | brk i addr =>
      refine (running_returns a i).bind fun t ht => ?_
      exact (sysBrk_returns a.mem t addr).bind fun r hr => same_keep ht hr.1 hr.2
  | execve i =>
      refine (running_returns a i).bind fun t ht => ?_
      refine (sysBrk_returns a.mem { t with end_ := USER_EXEC_ADDR } USER_EXEC_ADDR).bind fun r hr => ?_
      exact (Ends.any _).bind fun m _ => same_keep ht hr.1 hr.2
  | segment i vaddr count writable =>
      refine (running_returns a i).bind fun t ht => ?_
      refine (loadSegment_returns a.mem t vaddr count writable).bind fun r hr => ?_
      exact same_keep ht hr.1 hr.2
  | create | toUserMode | fork | mmap | munmap | store | storeWindow => exact absurd he id

theorem Marked.congr (h : Marked t f) (hv : t'.vmap = t.vmap) : Marked t' f :=
  ⟨hv ▸ h.map, h.lo, h.hi, fun p hp => hv ▸ h.bit p hp⟩

theorem AllMarked.same (h : AllMarked s) (hs : Same s.state a') :
    AllMarked { state := a', mapped := s.mapped } := by
  intro i t' ht' hp
  obtain ⟨t, ht, hpt, hv⟩ := hs i t' ht' hp
  exact (h i t ht hpt).congr hv

/-- A task changes, and its pages. -/
theorem AllMarked.put (h : AllMarked s) {m : Memory} (hm : Marked t' f) : AllMarked
    { state := { s.state with mem := m }.setTask i (some t'), mapped := Function.update s.mapped i f } := by
  intro j u hu hp
  change Function.update s.state.task i (some t') j = some u at hu
  show Marked u (Function.update s.mapped i f j)
  by_cases hj : j = i
  · rw [hj, Function.update_self] at hu ⊢
    cases hu
    exact hm
  · rw [Function.update_of_ne hj] at hu ⊢
    exact h j u hu hp

theorem AllMarked.mmap (h : AllMarked s) {addr length prot flags : Nat}
    (hfit : Fitting s (.mmap i addr length prot flags))
    (hs : execTrace s (.mmap i addr length prot flags) = .ok s') : AllMarked s' := by
  obtain ⟨state, hx, hs⟩ := bind_eq_ok hs
  cases hs
  obtain ⟨t, hrun, hx⟩ := bind_eq_ok hx
  obtain ⟨⟨vaddr, m', t'⟩, hcall, hx⟩ := bind_eq_ok hx
  cases hx
  have ht := (running_returns s.state i).of_ok hrun
  have hmarked := h i t ht (hfit.1 t ht)
  obtain ⟨hpage, hlo, hend, bits, ht', hstored⟩ :=
    (ends_sysMmap hmarked.map (hfit.2 i addr length prot flags rfl t ht)).of_ok hcall
  have hrecord : record s (.mmap i addr length prot flags) = Function.update s.mapped i
      (setPages (s.mapped i) (IDX vaddr) (pageCount length) true) := by
    simp only [record, hrun, bind_ok, hcall]
  have hbounds := idx_bounds hpage (pageCount length)
  rw [hrecord, show t' = _ from ht']
  exact h.put (hmarked.mmap (hbounds.2.1.mp hlo) (hbounds.2.2.mp hend) hstored)

theorem AllMarked.munmap (h : AllMarked s) {addr length : Nat}
    (hproc : OfProcess s.state i) (hs : execTrace s (.munmap i addr length) = .ok s') :
    AllMarked s' := by
  obtain ⟨state, hx, hs⟩ := bind_eq_ok hs
  cases hs
  obtain ⟨t, hrun, hx⟩ := bind_eq_ok hx
  obtain ⟨⟨m', t'⟩, hcall, hx⟩ := bind_eq_ok hx
  cases hx
  have ht := (running_returns s.state i).of_ok hrun
  have hmarked := h i t ht (hproc t ht)
  obtain ⟨hlo, bits, ht', hstored⟩ := (ends_sysMunmap hmarked.map).of_ok hcall
  rw [show t' = _ from ht']
  exact h.put (hmarked.munmap (Nat.div_le_div_right hlo) hstored)

theorem AllMarked.fork (h : AllMarked s) (hproc : OfProcess s.state i)
    (hs : execTrace s (.fork i j) = .ok s') : AllMarked s' := by
  obtain ⟨state, hx, hs⟩ := bind_eq_ok hs
  cases hs
  obtain ⟨t, hrun, hx⟩ := bind_eq_ok hx
  obtain ⟨r, _, hx⟩ := bind_eq_ok hx
  cases hx
  have ht := (running_returns s.state i).of_ok hrun
  have hmarked := h i t ht (hproc t ht)
  refine h.put (hmarked.congr ?_)
  -- the child's page of bits has the size the parent's has
  show ({ t.vmap with size := PAGE_SIZE } : Bitmap) = t.vmap
  rw [← hmarked.map.size]

/-- The step lemma. -/
theorem AllMarked.exec {e : Event} (h : AllMarked s) (hfit : Fitting s e)
    (hs : execTrace s e = .ok s') : AllMarked s' := by
  -- the calls that change no bitmap
  have hsame : ∀ {state}, Same s.state state → AllMarked { state := state, mapped := s.mapped } :=
    fun hsame => h.same hsame
  cases e with
  | mmap i addr length prot flags => exact h.mmap hfit hs
  | munmap i addr length => exact h.munmap hfit.1 hs
  | fork i j => exact h.fork hfit.1 hs
  | store => exact absurd hfit.1 id
  | storeWindow => exact absurd hfit.1 id
  | toUserMode i =>
      obtain ⟨state, hx, hs⟩ := bind_eq_ok hs
      cases hs
      obtain ⟨t, _, hx⟩ := bind_eq_ok hx
      obtain ⟨r, _, hx⟩ := bind_eq_ok hx
      cases hx
      exact h.put marked_new
  | create i uid =>
      cases hs
      exact hsame (same_setTask fun t' ht' hp => by cases ht'; exact absurd rfl hp)
  | exit | link | unlink | fault | brk | execve | segment =>
      obtain ⟨state, hx, hs⟩ := bind_eq_ok hs
      cases hs
      exact hsame ((exec_same s.state (by trivial)).of_ok hx)

/-- The run lemma. -/
theorem reach_allMarked (h : Reach traced Fitting s) : AllMarked s := by
  refine h.invariant (fun s₀ hs => ?_) fun s₀ e s₁ hk he hstep => hk.exec he hstep.2
  intro i t ht
  obtain ⟨⟨size, data, _, _, _, hboot⟩, _⟩ := hs
  rw [hboot] at ht
  cases ht

/-- In every run whose `sys_mmap` calls ask for ranges that fit, the pages they map
    lie in the area, and a call at address 0 returns none of the pages that are
    still mapped.  And there a call that no assertion and no `panic` ends stays in
    the area and in the bitmap exactly if its range fits. -/
theorem mmap_contained (h : Reach traced Fitting s) (ht : s.state.task i = some t)
    (hu : t.pde ≠ none) :
    (∀ p, s.mapped i p = true → USER_MMAP_ADDR ≤ PAGE p ∧ PAGE p < USER_STACK_BOTTOM) ∧
    (∀ length prot flags r, sysMmap s.state.mem t 0 length prot flags = .ok r →
      ∀ k < pageCount length, s.mapped i (IDX r.1 + k) = false) ∧
    (∀ addr length prot flags, Goes (sysMmap s.state.mem t addr length prot flags) →
      (Stays t.vmap (pageCount length) (sysMmap s.state.mem t addr length prot flags) ↔
        Fits t addr (pageCount length))) := by
  have hmarked := reach_allMarked h i t ht hu
  refine ⟨fun p hp => ?_, fun length prot flags r hr k hk => ?_, fun addr length prot flags hgo =>
    stays_iff hmarked.map hgo⟩
  · have hlo := hmarked.lo p hp
    have hhi := hmarked.hi p hp
    simp only [PAGE, IDX, USER_MMAP_ADDR, USER_STACK_BOTTOM, USER_STACK_TOP,
      USER_STACK_SIZE] at hlo hhi ⊢
    omega
  · have hclear := sysMmap_null hmarked.map hr k hk
    rw [← Bool.not_eq_true]
    intro hp
    rw [hmarked.bit _ hp] at hclear
    exact absurd hclear.2 (by decide)

end Steps

/-- A process maps two pages, the first of its area. -/
def mapRun : List Event := [.create 0 1000, .toUserMode 0, .mmap 0 USER_MMAP_ADDR 0x2000 2 2]

/-- A process maps two pages, of which the first is the last below the stack. -/
def pastRun : List Event := [.create 0 1000, .toUserMode 0, .mmap 0 0xFDFF000 0x2000 2 2]

instance (s : Trace) : (e : Event) → Decidable (ByUser s e)
  | .mmap i _ _ _ _ | .munmap i _ _ | .fork i _ => inferInstanceAs (Decidable (OfProcess s.state i))
  | .store .. | .storeWindow .. => .isFalse id
  | .create .. | .toUserMode _ | .exit _ | .link .. | .unlink .. | .fault .. | .brk .. | .execve _
  | .segment .. => .isTrue trivial

/-- A range at an address that fits. -/
def Fixed (s : Trace) (e : Event) : Prop :=
  ByUser s e ∧ match e with
    | .mmap _ addr length _ _ =>
        addr ≠ 0 ∧ addr + PAGE_SIZE * pageCount length ≤ USER_STACK_BOTTOM
    | _ => True

instance (s : Trace) (e : Event) : Decidable (Fixed s e) := by
  unfold Fixed
  cases e <;> infer_instance

theorem fitting_of_fixed {s : Trace} {e : Event} (h : Fixed s e) : Fitting s e := by
  refine ⟨h.1, ?_⟩
  rintro i addr length prot flags rfl t _
  rw [Fits, if_neg h.2.1]
  exact h.2.2

/-- The trace of a machine with 16 MB from 1 MB on, before its first task. -/
def bootTrace : Trace := { state := bootState, mapped := fun _ _ => false }

theorem mmap_contained_two : ∃ s t, Reach traced Fitting s ∧ s.state.task 0 = some t ∧
    s.mapped 0 (IDX USER_MMAP_ADDR) = true ∧
    (∀ p, s.mapped 0 p = true → USER_MMAP_ADDR ≤ PAGE p ∧ PAGE p < USER_STACK_BOTTOM) := by
  have hlook : ((follow Fixed (fun s e => Enabled s.state e) execTrace bootTrace mapRun).map fun s =>
      (s.mapped 0 (IDX USER_MMAP_ADDR), (s.state.task 0).map Task.pde)) =
      some (true, some (some 0)) := by decide +kernel
  obtain ⟨s, hs, hlook⟩ := Option.map_eq_some_iff.mp hlook
  rw [Prod.mk.injEq, Option.map_eq_some_iff] at hlook
  obtain ⟨hpage, t, ht, hp⟩ := hlook
  have hstart : Reach traced Fixed bootTrace := Reach.start ⟨boot_bootState, rfl⟩
  have hreach := (hstart.follow mapRun hs).mono fun _ _ => fitting_of_fixed
  exact ⟨s, t, hreach, ht, hpage, (mmap_contained hreach ht (hp ▸ Option.some_ne_none _)).1⟩

/-- The second page is one of the stack. -/
theorem mmap_past : ∃ s, Reach traced ByUser s ∧ s.mapped 0 (IDX USER_STACK_BOTTOM) = true ∧
    ¬ PAGE (IDX USER_STACK_BOTTOM) < USER_STACK_BOTTOM := by
  have hlook : ((follow ByUser (fun s e => Enabled s.state e) execTrace bootTrace pastRun).map fun s =>
      s.mapped 0 (IDX USER_STACK_BOTTOM)) = some true := by decide +kernel
  obtain ⟨s, hs, hpage⟩ := Option.map_eq_some_iff.mp hlook
  have hstart : Reach traced ByUser bootTrace := Reach.start ⟨boot_bootState, rfl⟩
  exact ⟨s, hstart.follow pastRun hs, hpage, by decide⟩

end NeonixMmapArea
