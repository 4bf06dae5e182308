import Neonix.Memory

/-! # `kernel/memory.c`: the pages of the kernel

    `kernel_map` has a bit for every page from `MEMORY_BASE` up to
    `KERNEL_MEMORY_SIZE`.  Only the pages of `memory_map` are marked at the start: the
    buffer cache and the ramdisks lie in pages of the map and are never marked, so a
    range is apart from them only while there is a run of free pages in front of the
    buffer cache. -/

namespace NeonixKernelPages

open NeonixMachine NeonixOutcome NeonixByteBits NeonixBitmap NeonixRuns NeonixMemory

def KERNEL_BUFFER_MEM : Nat := 0x800000
def KERNEL_BUFFER_SIZE : Nat := 0x400000
def KERNEL_RAMDISK_MEM : Nat := KERNEL_BUFFER_MEM + KERNEL_BUFFER_SIZE
def KERNEL_RAMDISK_SIZE : Nat := 0x400000

/-- `kernel_map`, and the ranges handed out and not yet freed: the address and the
    number of pages of each. -/
structure State where
  kernel_map : Bitmap
  live : List (Nat × Nat)

/-- `memory_map_pages`, for `memory_size` bytes of memory. -/
def memoryMapPages (memory_size : Nat) : Nat :=
  let total_pages := IDX memory_size + IDX MEMORY_BASE
  pageCount total_pages

/-- `memory_map_init`, its last two statements. -/
def memoryMapInit (memory_size : Nat) : Res Bitmap := do
  let length := (IDX KERNEL_MEMORY_SIZE - IDX MEMORY_BASE) / 8
  let map := bitmapMake (fun _ => 0) length length (IDX MEMORY_BASE)
  let (_, map) ← bitmapScan map (memoryMapPages memory_size)
  return map

/-- `alloc_kpage`. -/
def allocKpage (map : Bitmap) (count : Nat) : Res (Nat × Bitmap) := do
  check (0 < count)
  scanPage map count

/-- The body of the loop of `reset_page`. -/
def resetBit (index i : Nat) (map : Bitmap) : Res Bitmap := do
  let used ← bitmapTest map (index + i)
  check (used = true)
  bitmapSet map (index + i) false

/-- `reset_page`. -/
def resetPage (map : Bitmap) (addr count : Nat) : Res Bitmap := do
  check (addr % PAGE_SIZE = 0)
  check (0 < count)
  forLoop (resetBit (IDX addr)) 0 count map

/-- `free_kpage`. -/
def freeKpage (map : Bitmap) (vaddr count : Nat) : Res Bitmap := do
  check (vaddr % PAGE_SIZE = 0)
  check (0 < count)
  resetPage map vaddr count

inductive Event where
  | alloc (count : Nat)
  | free (vaddr count : Nat)

/-- A range is freed at most once, with the count it was allocated with. -/
def Enabled (s : State) : Event → Prop
  | .alloc _ => True
  | .free vaddr count => (vaddr, count) ∈ s.live

def exec (s : State) : Event → Res State
  | .alloc count => do
      let (vaddr, map) ← allocKpage s.kernel_map count
      return { kernel_map := map, live := (vaddr, count) :: s.live }
  | .free vaddr count => do
      let map ← freeKpage s.kernel_map vaddr count
      return { kernel_map := map, live := s.live.erase (vaddr, count) }

/-- The kernel from `memory_map_init` on. -/
def system (memory_size : Nat) : System State Event :=
  execSystem (fun s => memoryMapInit memory_size = .ok s.kernel_map ∧ s.live = []) Enabled exec

/-- The sizes `memory_init` admits. -/
structure MemorySize (memory_size : Nat) : Prop where
  word : memory_size < 2 ^ 32
  aligned : memory_size % PAGE_SIZE = 0
  enough : KERNEL_MEMORY_SIZE ≤ memory_size

/-! ## What is to be apart -/

/-- `n` bytes from `a` on and `m` bytes from `b` on have no byte in common. -/
def Separate (a n b m : Nat) : Prop := a + n ≤ b ∨ b + m ≤ a

/-- A range shares nothing with the pages of `memory_map`, the buffer cache and the
    ramdisks. -/
structure Clean (mapPages : Nat) (r : Nat × Nat) : Prop where
  memoryMap : Separate r.1 (r.2 * PAGE_SIZE) MEMORY_BASE (mapPages * PAGE_SIZE)
  buffers : Separate r.1 (r.2 * PAGE_SIZE) KERNEL_BUFFER_MEM KERNEL_BUFFER_SIZE
  ramdisks : Separate r.1 (r.2 * PAGE_SIZE) KERNEL_RAMDISK_MEM KERNEL_RAMDISK_SIZE

/-- The ranges in use are apart from each other and from what is not for allocation. -/
structure Apart (mapPages : Nat) (s : State) : Prop where
  pairwise : s.live.Pairwise fun r r' =>
    Separate r.1 (r.2 * PAGE_SIZE) r'.1 (r'.2 * PAGE_SIZE)
  clean : ∀ r ∈ s.live, Clean mapPages r

/-- There is a run of free pages for the range in front of the buffer cache. -/
def InFront (s : State) : Event → Prop
  | .alloc count => ∃ start, Clear s.kernel_map.bits start count ∧
      PAGE (s.kernel_map.offset + start + count) ≤ KERNEL_BUFFER_MEM
  | .free .. => True

/-! ## The loop of `reset_page` -/

variable {map : Bitmap} {mapPages memory_size : Nat} {s t : State}

theorem resetBits_eq (index count : Nat) : ∀ (map : Bitmap) (lo start : Nat),
    index + lo = map.offset + start → start + count ≤ map.size * 8 →
    start + count ≤ map.length * 8 →
    (∀ j, start ≤ j → j < start + count → bitAt map.bits j = true) →
    ∃ bits, forLoop (resetBit index) lo count map = .ok { map with bits := bits } ∧
      Stored map.bits bits start count false := by
  induction count with
  | zero => exact fun map _ start _ _ _ _ => ⟨map.bits, rfl, .nil _ _ _⟩
  | succ count ih =>
      intro map lo start hindex hsize hlength hset
      obtain ⟨bits, heq, hstored⟩ := ih { map with bits := putBit map.bits start false } (lo + 1)
        (start + 1) (by show index + (lo + 1) = map.offset + (start + 1); omega)
        (by show _ ≤ map.size * 8; omega) (by show _ ≤ map.length * 8; omega) (fun j hj hj' => by
          show bitAt (putBit map.bits start false) j = true
          rw [bitAt_putBit_ne _ _ (by omega)]
          exact hset j (by omega) (by omega))
      refine ⟨bits, ?_, hstored.cons⟩
      have hbit : resetBit index lo map = .ok { map with bits := putBit map.bits start false } := by
        rw [resetBit, hindex, bitmapTest_eq map (by omega) (by omega), bind_ok,
          hset start Nat.le.refl (by omega), check_pos rfl, bind_ok, bitmapSet_eq map (by omega)]
      rw [forLoop, hbit]
      exact heq

/-! ## The invariant -/

/-- Page `j` of the map is in the range. -/
def Holds (r : Nat × Nat) (j : Nat) : Prop :=
  r.1 ≤ PAGE (256 + j) ∧ PAGE (256 + j) < r.1 + r.2 * PAGE_SIZE

/-- The bits of the map are those of the pages of `memory_map` and of the ranges in
    use. -/
structure Inv (mapPages : Nat) (s : State) : Prop where
  offset : s.kernel_map.offset = 256
  length : s.kernel_map.length = 480
  size : s.kernel_map.size = 480
  ranges : ∀ r ∈ s.live, ∃ start, r.1 = PAGE (256 + start) ∧ 0 < r.2 ∧ mapPages ≤ start ∧
    start + r.2 ≤ 3840
  bits : ∀ j < 3840, bitAt s.kernel_map.bits j = true ↔ j < mapPages ∨ ∃ r ∈ s.live, Holds r j
  pairwise : s.live.Pairwise fun r r' => Separate r.1 (r.2 * PAGE_SIZE) r'.1 (r'.2 * PAGE_SIZE)

theorem holds_page {start count j : Nat} :
    Holds (PAGE (256 + start), count) j ↔ start ≤ j ∧ j < start + count := by
  rw [Holds, PAGE, PAGE, PAGE_SIZE]
  omega

theorem separate_pages {start count start' count' : Nat} :
    Separate (PAGE (256 + start)) (count * PAGE_SIZE) (PAGE (256 + start')) (count' * PAGE_SIZE) ↔
      start + count ≤ start' ∨ start' + count' ≤ start := by
  rw [Separate, PAGE, PAGE, PAGE_SIZE]
  omega

theorem Separate.symm {a n b m : Nat} (h : Separate a n b m) : Separate b m a n := Or.symm h

/-- What `scan_page` does to the map. -/
theorem scanPage_run (h : Inv mapPages s) {count vaddr : Nat}
    (heq : allocKpage s.kernel_map count = .ok (vaddr, map)) :
    ∃ start, vaddr = PAGE (256 + start) ∧ 0 < count ∧ mapPages ≤ start ∧ start + count ≤ 3840 ∧
      FirstRun s.kernel_map.bits count 3840 (some start) ∧
      map.offset = 256 ∧ map.length = 480 ∧ map.size = 480 ∧
      Stored s.kernel_map.bits map.bits start count true := by
  obtain ⟨_, hpos, heq⟩ := bind_eq_ok heq
  have hcount := of_check hpos
  rw [scanPage, check_pos hcount, bind_ok] at heq
  rcases bitmapScan_run s.kernel_map (Nat.le_of_eq (h.length.trans h.size.symm)) hcount with
    ⟨start, bits, hscan, hfirst, hstored⟩ | ⟨hscan, -⟩
  · rw [hscan, bind_ok] at heq
    obtain ⟨rfl, rfl⟩ := Prod.mk.inj (Except.ok.inj heq)
    rw [h.length] at hfirst
    refine ⟨start, ?_, hcount, ?_, hfirst.1, hfirst, h.offset, h.length, h.size, hstored⟩
    · rw [h.offset, Nat.add_comm]
    · -- the pages of `memory_map` are marked
      by_contra hlt
      have hle := hfirst.1
      have hbit := (h.bits start (by omega)).mpr (.inl (by omega))
      rw [hfirst.2.1 start Nat.le.refl (by omega)] at hbit
      cases hbit
  · rw [hscan, bind_ok] at heq
    cases heq

theorem Inv.alloc (h : Inv mapPages s) {count start : Nat} (hpos : 0 < count)
    (hlo : mapPages ≤ start) (hhi : start + count ≤ 3840)
    (hclear : Clear s.kernel_map.bits start count) (hoffset : map.offset = 256)
    (hlength : map.length = 480) (hsize : map.size = 480)
    (hstored : Stored s.kernel_map.bits map.bits start count true) :
    Inv mapPages { kernel_map := map, live := (PAGE (256 + start), count) :: s.live } where
  offset := hoffset
  length := hlength
  size := hsize
  ranges := List.forall_mem_cons.mpr ⟨⟨start, rfl, hpos, hlo, hhi⟩, h.ranges⟩
  bits := by
    intro j hj
    show bitAt map.bits j = true ↔ _
    rw [hstored j]
    by_cases hin : start ≤ j ∧ j < start + count
    · rw [if_pos hin]
      exact ⟨fun _ => .inr ⟨_, List.mem_cons_self, holds_page.mpr hin⟩, fun _ => rfl⟩
    · rw [if_neg hin, h.bits j hj]
      refine or_congr_right ⟨fun ⟨r, hr, hold⟩ => ⟨r, List.mem_cons_of_mem _ hr, hold⟩, ?_⟩
      rintro ⟨r, hr, hold⟩
      rcases List.mem_cons.mp hr with rfl | hr
      · exact absurd (holds_page.mp hold) hin
      · exact ⟨r, hr, hold⟩
  pairwise := by
    refine List.pairwise_cons.mpr ⟨fun r hr => ?_, h.pairwise⟩
    obtain ⟨start', heq, hpos', hlo', hhi'⟩ := h.ranges r hr
    show Separate (PAGE (256 + start)) (count * PAGE_SIZE) r.1 (r.2 * PAGE_SIZE)
    rw [heq, separate_pages]
    -- a common page is marked and clear
    by_contra hno
    have hset := (h.bits (max start start') (by omega)).mpr (.inr ⟨r, hr, by
      rw [show r = (PAGE (256 + start'), r.2) from Prod.ext heq rfl, holds_page]
      omega⟩)
    rw [hclear (max start start') (by omega) (by omega)] at hset
    cases hset

/-- Two ranges in use are apart. -/
theorem Inv.apart (h : Inv mapPages s) {r r' : Nat × Nat} (hr : r ∈ s.live) (hr' : r' ∈ s.live)
    (hne : r ≠ r') : Separate r.1 (r.2 * PAGE_SIZE) r'.1 (r'.2 * PAGE_SIZE) := by
  have hsymm : Std.Symm fun r r' : Nat × Nat =>
      Separate r.1 (r.2 * PAGE_SIZE) r'.1 (r'.2 * PAGE_SIZE) := ⟨fun _ _ => Separate.symm⟩
  exact h.pairwise.forall hr hr' hne

theorem Inv.nodup (h : Inv mapPages s) : s.live.Nodup := by
  refine List.Pairwise.imp_of_mem ?_ h.pairwise
  intro r r' hr hr' hsep heq
  obtain ⟨start, hstart, hpos, -, -⟩ := h.ranges r hr
  rw [← heq, hstart, separate_pages] at hsep
  omega

theorem Inv.free (h : Inv mapPages s) {vaddr count : Nat} (hr : (vaddr, count) ∈ s.live) :
    ∃ bits, freeKpage s.kernel_map vaddr count = .ok { s.kernel_map with bits := bits } ∧
      Inv mapPages { kernel_map := { s.kernel_map with bits := bits }, live := s.live.erase (vaddr, count) } := by
  obtain ⟨start, hvaddr, hpos, hlo, hhi⟩ := h.ranges _ hr
  obtain rfl : vaddr = PAGE (256 + start) := hvaddr
  have hpage : PAGE (256 + start) % PAGE_SIZE = 0 := Nat.mul_mod_left ..
  have hindex : IDX (PAGE (256 + start)) = 256 + start := Nat.mul_div_cancel _ (by decide)
  obtain ⟨bits, heq, hstored⟩ := resetBits_eq (256 + start) count s.kernel_map 0 start
    (by rw [h.offset]; rfl) (by rw [h.size]; exact hhi) (by rw [h.length]; exact hhi)
    (fun j hj hj' => (h.bits j (by dsimp only at hhi; omega)).mpr
      (.inr ⟨_, hr, holds_page.mpr ⟨hj, hj'⟩⟩))
  refine ⟨bits, ?_, ?_⟩
  · rw [freeKpage, check_pos hpage, bind_ok, check_pos hpos, bind_ok, resetPage, check_pos hpage,
      bind_ok, check_pos hpos, bind_ok, hindex, heq]
  have hmem : ∀ r, r ∈ s.live.erase (PAGE (256 + start), count) ↔
      r ≠ (PAGE (256 + start), count) ∧ r ∈ s.live := fun r => h.nodup.mem_erase_iff
  refine ⟨h.offset, h.length, h.size, fun r hr => h.ranges r ((hmem r).mp hr).2, fun j hj => ?_,
    h.pairwise.sublist List.erase_sublist⟩
  show bitAt bits j = true ↔ _
  rw [hstored j]
  by_cases hin : start ≤ j ∧ j < start + count
  · -- the page was in no other range
    rw [if_pos hin]
    refine ⟨nofun, ?_⟩
    rintro (hmap | ⟨r, hr', hold⟩)
    · omega
    · obtain ⟨hne, hin'⟩ := (hmem r).mp hr'
      obtain ⟨start', heq', -⟩ := h.ranges r hin'
      have hsep := h.apart hin' hr hne
      rw [show r = (PAGE (256 + start'), r.2) from Prod.ext heq' rfl, holds_page] at hold
      rw [heq', separate_pages] at hsep
      omega
  · rw [if_neg hin, h.bits j hj]
    refine or_congr_right ⟨?_, fun ⟨r, hr', hold⟩ => ⟨r, ((hmem r).mp hr').2, hold⟩⟩
    rintro ⟨r, hr', hold⟩
    refine ⟨r, (hmem r).mpr ⟨?_, hr'⟩, hold⟩
    rintro rfl
    exact hin (holds_page.mp hold)

/-- The pages of `memory_map` fit in the map, in front of the buffer cache. -/
theorem memoryMapPages_le (hsize : MemorySize memory_size) :
    0 < memoryMapPages memory_size ∧ memoryMapPages memory_size ≤ 257 := by
  have hword := hsize.word
  have hbase : IDX MEMORY_BASE = 256 := rfl
  rw [memoryMapPages, hbase, pageCount, IDX, show PAGE_SIZE = 4096 from rfl]
  omega

theorem Inv.init (hsize : MemorySize memory_size)
    (hinit : memoryMapInit memory_size = .ok s.kernel_map)
    (hlive : s.live = []) : Inv (memoryMapPages memory_size) s := by
  obtain ⟨hpos, hle⟩ := memoryMapPages_le hsize
  have hclear : ∀ j, bitAt (fun _ => 0) j = false := fun j => BitVec.getLsbD_zero
  obtain ⟨⟨r, map⟩, hscan, heq⟩ := bind_eq_ok hinit
  obtain rfl : map = s.kernel_map := Except.ok.inj heq
  rcases bitmapScan_run (bitmapMake (fun _ => 0) 480 480 256) Nat.le.refl hpos with
    ⟨start, bits, hrun, hfirst, hstored⟩ | ⟨hrun, hnone⟩
  · -- the first pages of the map
    have hstart : start = 0 := by
      by_contra hne
      exact hfirst.2.2 0 (by omega) fun j _ _ => hclear j
    subst hstart
    change bitmapScan (bitmapMake (fun _ => 0) 480 480 256) _ = _ at hscan
    rw [hrun] at hscan
    obtain ⟨-, hmap⟩ := Prod.mk.inj (Except.ok.inj hscan)
    have hnone : ∀ r ∈ s.live, False := fun r hr => by
      rw [hlive] at hr
      exact List.not_mem_nil hr
    refine ⟨by rw [← hmap]; rfl, by rw [← hmap]; rfl, by rw [← hmap]; rfl,
      fun r hr => (hnone r hr).elim, fun j _ => ?_, by rw [hlive]; exact .nil⟩
    rw [← hmap]
    show bitAt bits j = true ↔ _
    rw [hstored j]
    by_cases hin : 0 ≤ j ∧ j < 0 + memoryMapPages memory_size
    · rw [if_pos hin]
      exact ⟨fun _ => .inl (by omega), fun _ => rfl⟩
    · rw [if_neg hin]
      refine ⟨fun hset => absurd (hset.symm.trans (hclear j)) Bool.false_ne_true.symm, ?_⟩
      rintro (hlt | ⟨r, hr, -⟩)
      · omega
      · exact (hnone r hr).elim
  · exact absurd (fun j _ _ => hclear j) (hnone 0 (by show 0 + _ ≤ 480 * 8; omega))

/-! ## The ranges in use -/

/-- A range of free pages is clean if and only if it ends in front of the buffer
    cache. -/
theorem clean_iff {start count : Nat} (hpos : 0 < count) (hlo : mapPages ≤ start)
    (hhi : start + count ≤ 3840) :
    Clean mapPages (PAGE (256 + start), count) ↔
    PAGE (256 + start + count) ≤ KERNEL_BUFFER_MEM := by
  have hsep : ∀ b m, Separate (PAGE (256 + start)) (count * PAGE_SIZE) (b * 0x1000) (m * 0x1000) ↔
      256 + start + count ≤ b ∨ b + m ≤ 256 + start := by
    intro b m
    rw [Separate, PAGE, show PAGE_SIZE = 0x1000 from rfl]
    omega
  have hend : PAGE (256 + start + count) ≤ KERNEL_BUFFER_MEM ↔ 256 + start + count ≤ 2048 := by
    rw [PAGE, show KERNEL_BUFFER_MEM = 2048 * 0x1000 from rfl]
    omega
  rw [hend]
  constructor
  · rintro ⟨-, hbuffers, hramdisks⟩
    have h1 := (hsep 2048 1024).mp hbuffers
    have h2 := (hsep 3072 1024).mp hramdisks
    omega
  · intro hle
    exact ⟨(hsep 256 mapPages).mpr (by omega), (hsep 2048 1024).mpr (by omega),
      (hsep 3072 1024).mpr (by omega)⟩

theorem Inv.apart_of_clean (h : Inv mapPages s) (hclean : ∀ r ∈ s.live, Clean mapPages r) :
    Apart mapPages s := ⟨h.pairwise, hclean⟩

/-- A step keeps the invariant, and leaves the ranges clean if and only if it meets the
    condition. -/
theorem step_apart {e : Event} (h : Inv mapPages s) (hclean : ∀ r ∈ s.live, Clean mapPages r)
    (hen : Enabled s e) (hstep : exec s e = .ok t) :
    Inv mapPages t ∧ ((∀ r ∈ t.live, Clean mapPages r) ↔ InFront s e) := by
  cases e with
  | alloc count =>
      obtain ⟨⟨vaddr, map⟩, hscan, heq⟩ := bind_eq_ok hstep
      obtain rfl := Except.ok.inj heq
      obtain ⟨start, rfl, hpos, hlo, hhi, hfirst, hoffset, hlength, hsize, hstored⟩ :=
        scanPage_run h hscan
      refine ⟨h.alloc hpos hlo hhi hfirst.2.1 hoffset hlength hsize hstored, ?_⟩
      show (∀ r ∈ (PAGE (256 + start), count) :: s.live, Clean mapPages r) ↔ _
      rw [List.forall_mem_cons, clean_iff hpos hlo hhi]
      constructor
      · rintro ⟨hle, -⟩
        exact ⟨start, hfirst.2.1, by rw [h.offset]; exact hle⟩
      · rintro ⟨start', hclear, hle⟩
        -- the search found the first run
        have hmin : start ≤ start' := by
          by_contra hlt
          exact hfirst.2.2 start' (by omega) hclear
        refine ⟨Nat.le_trans (Nat.mul_le_mul_right _ ?_) hle, hclean⟩
        rw [h.offset]
        omega
  | free vaddr count =>
      obtain ⟨bits, hfree, hinv⟩ := h.free hen
      rw [exec, hfree] at hstep
      obtain rfl := Except.ok.inj hstep
      exact ⟨hinv, ⟨fun _ => trivial, fun _ r hr => hclean r (List.mem_of_mem_erase hr)⟩⟩

/-- A range with a run of free pages for it is handed out. -/
theorem alloc_returns (h : Inv mapPages s) {start count : Nat} (hpos : 0 < count)
    (hclear : Clear s.kernel_map.bits start count) (hle : start + count ≤ 3840) :
    ∃ t, exec s (.alloc count) = .ok t ∧ ∃ vaddr, t.live = (vaddr, count) :: s.live := by
  rcases bitmapScan_run s.kernel_map (Nat.le_of_eq (h.length.trans h.size.symm)) hpos with
    ⟨start', bits, hscan, -, -⟩ | ⟨-, hnone⟩
  · refine ⟨{ kernel_map := { s.kernel_map with bits := bits }
              live := (PAGE (start' + s.kernel_map.offset), count) :: s.live }, ?_, _, rfl⟩
    rw [exec, allocKpage, check_pos hpos, bind_ok, scanPage, check_pos hpos, bind_ok, hscan]
    rfl
  · rw [h.length] at hnone
    exact absurd hclear (hnone start hle)

theorem memoryMapInit_returns (memory_size : Nat) (hsize : MemorySize memory_size) :
    ∃ map, memoryMapInit memory_size = .ok map := by
  have hscan : ∃ r, bitmapScan (bitmapMake (fun _ => 0) 480 480 256) (memoryMapPages memory_size) =
      .ok r := by
    rcases bitmapScan_run (bitmapMake (fun _ => 0) 480 480 256) Nat.le.refl
      (memoryMapPages_le hsize).1 with ⟨start, bits, hrun, -, -⟩ | ⟨hrun, -⟩
    · exact ⟨_, hrun⟩
    · exact ⟨_, hrun⟩
  obtain ⟨r, hr⟩ := hscan
  refine ⟨r.2, ?_⟩
  rw [memoryMapInit]
  change (bitmapScan (bitmapMake (fun _ => 0) 480 480 256) _ >>= _) = _
  rw [hr]
  rfl

/-- In every run of `alloc_kpage` and `free_kpage` with a free run in front of the
    buffer cache for each range, the ranges in use are apart; a step without one breaks
    that. -/
theorem kernel_pages_apart (hsize : MemorySize memory_size)
    (h : Reach (system memory_size) InFront s) :
    Apart (memoryMapPages memory_size) s ∧ ∀ e t, (system memory_size).step s e t →
      (Apart (memoryMapPages memory_size) t ↔ InFront s e) := by
  have hinit : ∀ s, (system memory_size).init s → Inv (memoryMapPages memory_size) s ∧
      ∀ r ∈ s.live, Clean (memoryMapPages memory_size) r := fun s hs =>
    ⟨Inv.init hsize hs.1 hs.2, fun r hr => by
      rw [hs.2] at hr
      exact absurd hr List.not_mem_nil⟩
  have hkeep : ∀ s e t, (Inv (memoryMapPages memory_size) s ∧
      ∀ r ∈ s.live, Clean (memoryMapPages memory_size) r) → InFront s e →
      (system memory_size).step s e t → Inv (memoryMapPages memory_size) t ∧
      ∀ r ∈ t.live, Clean (memoryMapPages memory_size) r := by
    rintro s e t ⟨hinv, hclean⟩ hfront ⟨hen, hstep⟩
    obtain ⟨hinv', hiff⟩ := step_apart hinv hclean hen hstep
    exact ⟨hinv', hiff.mpr hfront⟩
  obtain ⟨hinv, hclean⟩ := h.invariant hinit hkeep
  refine ⟨hinv.apart_of_clean hclean, fun e t ⟨hen, hstep⟩ => ?_⟩
  obtain ⟨hinv', hiff⟩ := step_apart hinv hclean hen hstep
  rw [← hiff]
  exact ⟨Apart.clean, hinv'.apart_of_clean⟩

/-! ## A machine with 16 MB -/

theorem sixteen_size : MemorySize 0x1000000 where
  word := by decide
  aligned := by decide
  enough := by decide

/-- The first state, with two pages of `memory_map`. -/
theorem sixteen_boot : ∃ s, (system 0x1000000).init s ∧ Inv 2 s ∧ s.live = [] ∧
    ∀ count, 2 + count ≤ 3840 → Clear s.kernel_map.bits 2 count := by
  obtain ⟨map, hmap⟩ := memoryMapInit_returns 0x1000000 sixteen_size
  have hinv : Inv 2 { kernel_map := map, live := [] } := Inv.init sixteen_size hmap rfl
  refine ⟨_, ⟨hmap, rfl⟩, hinv, rfl, fun count hcount j hj hj' => ?_⟩
  refine Bool.eq_false_of_not_eq_true fun hset => ?_
  rcases (hinv.bits j (by omega)).mp hset with hlt | ⟨r, hr, -⟩
  · omega
  · exact absurd hr List.not_mem_nil

/-- Three pages are clean. -/
theorem kernel_pages_apart_three : ∃ s vaddr, s.live = [(vaddr, 3)] ∧
    Apart (memoryMapPages 0x1000000) s := by
  obtain ⟨s, hinit, hinv, hlive, hclear⟩ := sixteen_boot
  obtain ⟨t, hstep, vaddr, ht⟩ := alloc_returns hinv (by decide) (hclear 3 (by decide)) (by decide)
  have hfront : InFront s (.alloc 3) := ⟨2, hclear 3 (by decide), by rw [hinv.offset]; decide⟩
  refine ⟨t, vaddr, by rw [ht, hlive], ?_⟩
  exact (kernel_pages_apart sixteen_size ((Reach.start hinit).step hfront ⟨trivial, hstep⟩)).1

/-- 1791 pages reach into the buffer cache. -/
theorem kernel_pages_meet : ∃ s, Reach (system 0x1000000) NeonixRuns.free s ∧
    ¬ Apart (memoryMapPages 0x1000000) s := by
  obtain ⟨s, hinit, hinv, hlive, hclear⟩ := sixteen_boot
  obtain ⟨t, hstep, vaddr, ht⟩ := alloc_returns hinv (by decide) (hclear 1791 (by decide)) (by decide)
  have hen : Enabled s (.alloc 1791) := trivial
  refine ⟨t, (Reach.start hinit).step trivial ⟨hen, hstep⟩, fun hapart => ?_⟩
  have hinv' := (step_apart hinv (by rw [hlive]; exact fun r hr => absurd hr List.not_mem_nil)
    hen hstep).1
  obtain ⟨start, hvaddr, hpos, hlo, hhi⟩ :=
    hinv'.ranges (vaddr, 1791) (by rw [ht]; exact List.mem_cons_self)
  have hclean := hapart.clean (vaddr, 1791) (by rw [ht]; exact List.mem_cons_self)
  obtain rfl : vaddr = PAGE (256 + start) := hvaddr
  have hpages : memoryMapPages 0x1000000 = 2 := by decide
  rw [hpages] at hclean
  have hend := (clean_iff hpos hlo hhi).mp hclean
  rw [PAGE, show KERNEL_BUFFER_MEM = 2048 * 0x1000 from rfl] at hend
  omega

end NeonixKernelPages
