import Neonix.PageBalance

/-! # What the counter of free pages is off by

    `memory_init` counts every page from 1 MB on as free and `memory_map_init`
    takes off those of the reference counts.  `mapping_init` then marks the rest
    of the first 16 MB as used and leaves the counter as it is, and from there on
    the counter follows the counts.  `sys_brk` compares a growth with the
    counter. -/

namespace NeonixFreePages

open NeonixMachine NeonixOutcome NeonixRuns NeonixMemory NeonixPageSteps
open NeonixPageCounts NeonixPageBalance

variable {m : Memory} {s : State} {t : Task} {addr : Nat}

/-- The counter is the number of free pages. -/
def Exact (m : Memory) : Prop := m.free_pages.toNat = freeCount m

/-- Where `sys_brk` lets the memory of a task grow, the pages are free. -/
def Backed (m : Memory) (t : Task) (addr : Nat) : Prop :=
  t.brk ≤ addr → ∀ r, sysBrk m t addr = .ok r → r.1 = 0 → IDX (addr - t.brk) ≤ freeCount m

/-- A request `sys_brk` lets through to the comparison with the counter. -/
def Growth (t : Task) (addr : Nat) : Prop :=
  addr % PAGE_SIZE = 0 ∧ t.uid ≠ KERNEL_USER ∧ t.end_ ≤ addr ∧ addr ≤ USER_MMAP_ADDR ∧ t.brk ≤ addr

/-- The pages of the first 16 MB that are used and counted as free. -/
def overcount (m : Memory) : Nat := KERNEL_PAGES - m.start_page

theorem overcounted (h : Tidy m) :
    m.free_pages.toNat = freeCount m + overcount m ∧ 0 < overcount m := by
  have hcount := h.counter
  have hstart := h.start.2
  rw [overcount]
  omega

/-- A growth succeeds when the counter is no smaller. -/
theorem sysBrk_growth (hg : Growth t addr) :
    ∃ r, sysBrk m t addr = .ok r ∧ (r.1 = 0 ↔ IDX (addr - t.brk) ≤ m.free_pages.toNat) := by
  obtain ⟨hpage, huid, hend, htop, hgrow⟩ := hg
  have hx : sysBrk m t addr = if m.free_pages.toNat < IDX (addr - t.brk) then .ok (-1, m, t)
      else .ok (0, m, { t with brk := addr }) := by
    simp only [sysBrk, check_pos hpage, check_pos huid, check_pos (And.intro hend htop), bind_ok,
      if_neg (Nat.not_lt.mpr hgrow)]
    rfl
  by_cases hlt : m.free_pages.toNat < IDX (addr - t.brk)
  · refine ⟨_, hx.trans (if_pos hlt), iff_of_false (by rintro ⟨⟩) (Nat.not_le.mpr hlt)⟩
  · exact ⟨_, hx.trans (if_neg hlt), iff_of_true rfl (Nat.not_lt.mp hlt)⟩

/-- In every state the memory calls reach, the counter is not the number of
    free pages: it is above it by as many pages as lie between the first one
    `get_page` looks at and the end of the first 16 MB.  So of the growths
    `sys_brk` lets through, those up to the number of free pages are backed by
    free pages, and those past it and up to the counter are not. -/
theorem free_pages_inexact (h : Reach system Listed s) :
    ¬ Exact s.mem ∧ s.mem.free_pages.toNat = freeCount s.mem + overcount s.mem ∧
    ∀ t addr, Growth t addr → (Backed s.mem t addr ↔
      ¬ (freeCount s.mem < IDX (addr - t.brk) ∧
        IDX (addr - t.brk) ≤ freeCount s.mem + overcount s.mem)) := by
  obtain ⟨hcount, hpos⟩ := overcounted (reach_tidy h)
  refine ⟨fun hx => ?_, hcount, fun t addr hg => ?_⟩
  · rw [Exact, hcount] at hx
    omega
  obtain ⟨r, hr, hzero⟩ := sysBrk_growth (m := s.mem) hg
  rw [hcount] at hzero
  constructor
  · rintro hb ⟨hlt, hle⟩
    exact absurd (hb hg.2.2.2.2 r hr (hzero.mpr hle)) (Nat.not_le.mpr hlt)
  · intro hgap _ r' hr' hz
    cases hr.symm.trans hr'
    by_contra hlt
    exact hgap ⟨Nat.not_le.mp hlt, hzero.mp hz⟩

/-- A process of user 1000. -/
def oneProcess : List Event := [.create 0 1000, .toUserMode 0]

theorem reach_oneProcess : ∃ s, follow Plain Enabled exec bootState oneProcess = some s ∧
    Reach system Listed s := by
  have hrun : (follow Plain Enabled exec bootState oneProcess).isSome = true := by decide +kernel
  obtain ⟨s, hs⟩ := Option.isSome_iff_exists.mp hrun
  have hstart : Reach system Plain bootState := Reach.start boot_bootState
  exact ⟨s, hs, (hstart.follow oneProcess hs).mono fun _ _ => listed_of_plain⟩

/-- With 16 MB from 1 MB on, 256 pages are free and the counter says 4094. -/
theorem free_pages_one_process : ∃ s, follow Plain Enabled exec bootState oneProcess = some s ∧
    ¬ Exact s.mem ∧ s.mem.free_pages.toNat = freeCount s.mem + overcount s.mem := by
  obtain ⟨s, hrun, hs⟩ := reach_oneProcess
  exact ⟨s, hrun, (free_pages_inexact hs).1, (free_pages_inexact hs).2.1⟩

/-- The address 257 pages past the first of a program. -/
def grown : Nat := USER_EXEC_ADDR + 257 * PAGE_SIZE

/-- `sys_brk` lets the process grow by 257 pages when 256 are free. -/
theorem free_pages_overdrawn : ∃ s t, follow Plain Enabled exec bootState oneProcess = some s ∧
    Reach system Listed s ∧ s.task 0 = some t ∧ ¬ Exact s.mem ∧ Growth t grown ∧
    ¬ Backed s.mem t grown := by
  obtain ⟨s, hrun, hs⟩ := reach_oneProcess
  have hlook : ((follow Plain Enabled exec bootState oneProcess).map fun s =>
      (s.mem.free_pages, s.mem.start_page, (s.task 0).map fun t => (t.uid, t.brk, t.end_))) =
      some (4094, 258, some (1000, USER_EXEC_ADDR, USER_EXEC_ADDR)) := by decide +kernel
  rw [hrun, Option.map_some, Option.some.injEq, Prod.mk.injEq, Prod.mk.injEq,
    Option.map_eq_some_iff] at hlook
  obtain ⟨hfree, hstart, t, ht, hfields⟩ := hlook
  rw [Prod.mk.injEq, Prod.mk.injEq] at hfields
  obtain ⟨huid, hbrk, hend⟩ := hfields
  obtain ⟨hcount, hpos⟩ := overcounted (reach_tidy hs)
  have hover : overcount s.mem = 3838 := by
    rw [overcount, hstart]
    decide
  rw [hfree, hover, show (4094 : UInt32).toNat = 4094 from rfl] at hcount
  have hg : Growth t grown := by
    rw [Growth, huid, hbrk, hend]
    decide
  refine ⟨s, t, hrun, hs, ht, fun hx => ?_, hg, fun hb => ?_⟩
  · rw [Exact, hfree, show (4094 : UInt32).toNat = 4094 from rfl] at hx
    omega
  obtain ⟨r, hr, hzero⟩ := sysBrk_growth (m := s.mem) hg
  rw [hfree, hbrk, show (4094 : UInt32).toNat = 4094 from rfl] at hzero
  have hsmall := hb hg.2.2.2.2 r hr (hzero.mpr (by decide))
  rw [hbrk, show IDX (grown - USER_EXEC_ADDR) = 257 from by decide] at hsmall
  omega

end NeonixFreePages
