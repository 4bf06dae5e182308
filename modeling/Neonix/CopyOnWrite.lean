import Neonix.PageCounts

/-! # Copy on write

    After a fork a page that is not shared is in several directories, and each
    entry of it is read-only, so that a user's store faults and copies.  The
    kernel's own stores do not look at the entry, and `sys_mmap` makes an entry
    writable without asking how many refer to its page.  Where a run avoids
    both (`Careful`), the discipline `Private` is kept, and from it follows that
    a store of one process changes nothing another one reads. -/

namespace NeonixCopyOnWrite

open NeonixMachine NeonixOutcome NeonixRuns NeonixMemory NeonixPageRefs NeonixPageSteps NeonixTally
open NeonixPageCalls NeonixMappingCalls NeonixDirectoryCalls NeonixPageCounts

variable {s s' : State} {i : TaskId} {t : Task}

/-- Stores go to the memory of processes; those of the kernel to pages that are
    absent, shared or in no other directory; and `sys_mmap` gives no right on a
    page another mapping refers to. -/
def Careful (s : State) : Event → Prop
  | .store i ring vaddr _ => USER_EXEC_ADDR ≤ vaddr ∧
      (ring = .kernel → ∀ t, s.task i = some t → ¬ Clash s.mem t.pde vaddr)
  | .storeWindow .. => False
  | e => FairMap s e

theorem careful_not_window {e : Event} (h : Careful s e) (i : TaskId) (vaddr : Nat)
    (entry : Entry) :
    e ≠ .storeWindow i vaddr entry := by
  rintro rfl
  exact h

theorem careful_fairMap {e : Event} (h : Careful s e) : FairMap s e := by
  cases e with
  | store i ring vaddr b => trivial
  | storeWindow i vaddr entry => exact absurd h id
  | create | toUserMode | fork | exit | link | unlink | fault | brk | mmap | munmap | execve
  | segment => exact h

/-- The run lemma. -/
theorem reach_private (h : Reach system Careful s) : Inv s ∧ Private s.mem := by
  refine @Reach.invariant _ _ _ _ (fun s => Inv s ∧ Private s.mem)
    (fun s₀ hs => inv_boot (s := s₀) hs) ?_ s h
  rintro s₀ e s₁ ⟨hI, hP⟩ hc hstep
  obtain ⟨hI', hcow⟩ := (ends_exec hI hstep.1 (careful_not_window hc)).of_ok hstep.2
  exact ⟨hI', hcow (careful_fairMap hc) hP⟩

/-- A mapping that lets a user write a page that is not shared is its only one. -/
theorem private_refs {m : Memory} (h : Sound m) (hP : Private m) {x : Space} {d k : Nat} {e : Entry}
    (hm : Maps m.toPaging x d k e) (hsh : e.shared = false) (hr : 1 < refs m.toPaging e.index) :
    e.write = false := by
  by_contra hw
  have h1 := hP.alone x d k e hm hsh (by simpa using hw)
  rw [sound_mapped h hm] at h1
  omega

/-- Another directory does not refer to a page with one reference. -/
theorem not_referenced {m : Memory} {x y : Space} {d k : Nat} {e : Entry}
    (hm : Maps m.toPaging x d k e) (hy : y ≠ x) (h1 : refs m.toPaging e.index ≤ 1) :
    spaceRefs m.toPaging y e.index = 0 :=
  no_second (f := fun z => spaceRefs m.toPaging z e.index) h1 (Finset.mem_univ x)
    (Finset.mem_univ y) hy hm.referenced

/-- The mapping a store or load goes through. -/
theorem maps_of_walk {m : Memory} {x : Space} {vaddr : Nat} {dentry entry : Entry}
    (h1 : USER_EXEC_ADDR ≤ vaddr) (h2 : vaddr < PDE_MASK)
    (hw : m.walk x vaddr = some (dentry, entry)) :
    Maps m.toPaging x (DIDX vaddr) (TIDX vaddr) entry := by
  have hk : TIDX vaddr < 1024 := Nat.mod_lt _ (by decide)
  simp only [Paging.walk] at hw
  by_cases hc : (m.slot x (DIDX vaddr)).present = true ∧
      (m.table (m.slot x (DIDX vaddr)).index (TIDX vaddr)).present = true
  · rw [if_pos hc] at hw
    obtain ⟨rfl, rfl⟩ := Prod.mk.inj (Option.some.inj hw)
    exact ⟨counts_of_range h1 h2, hk, hc.1, rfl, hc.2⟩
  · rw [if_neg hc] at hw
    cases hw

/-- A byte of a page with one reference is not seen by others. -/
theorem unseen_setByte {m : Memory} (h : Sound m) {x y : Space} {d k : Nat} {e : Entry}
    (hm : Maps m.toPaging x d k e) (hy : y ≠ x) (h1 : refs m.toPaging e.index ≤ 1) (off : Nat)
    (b : NeonixByteBits.Byte) : Unseen y m (m.setByte e.index off b) := by
  refine ⟨rfl, fun _ _ _ => rfl, fun p hp => Function.update_of_ne ?_ _ _⟩
  rintro rfl
  rcases hp with hlt | hpos
  · have hin : KERNEL_PAGES ≤ e.index := (h.inside e.index (Nat.add_pos_left (maps_refs hm) _)).1
    omega
  · rw [not_referenced hm hy h1] at hpos
    omega

/-- What a reader sees of a store: nothing, or a byte of a page that both map as
    shared. -/
def SeesShared (m m' : Memory) (x : Space) (vaddr : Nat) (y : Space) : Prop :=
  ∀ a, a < PDE_MASK → m'.read y a = m.read y a ∨
    ∃ e e', Maps m.toPaging x (DIDX vaddr) (TIDX vaddr) e ∧
      Maps m.toPaging y (DIDX a) (TIDX a) e' ∧ e'.index = e.index ∧ e.shared = true ∧
      e'.shared = true

theorem seesShared_of_unseen {m m' : Memory} {x y : Space} {vaddr : Nat} (h : Unseen y m m') :
    SeesShared m m' x vaddr y := fun _ ha => Or.inl (h.read ha)

/-- A byte of a shared page. -/
theorem seesShared_setByte {m : Memory} (h : Sound m) (hP : Private m) {x y : Space} {vaddr : Nat}
    {e : Entry} (hm : Maps m.toPaging x (DIDX vaddr) (TIDX vaddr) e) (hsh : e.shared = true)
    (off : Nat) (b : NeonixByteBits.Byte) : SeesShared m (m.setByte e.index off b) x vaddr y := by
  intro a ha
  have hin : KERNEL_PAGES ≤ e.index := (h.inside e.index (Nat.add_pos_left (maps_refs hm) _)).1
  by_cases hk : a < USER_EXEC_ADDR
  · refine Or.inl ?_
    have hp : IDX a ≠ e.index := by
      have : IDX a < KERNEL_PAGES := Nat.div_lt_of_lt_mul hk
      omega
    simp only [Memory.read, if_pos hk, Memory.setByte, Function.update_of_ne hp]
  · cases hw : m.walk y a with
    | none =>
        refine Or.inl ?_
        have hw' : (m.setByte e.index off b).walk y a = none := hw
        simp only [Memory.read, if_neg hk, hw, hw', Option.map_none]
    | some es =>
        obtain ⟨dentry, e'⟩ := es
        have hm' := maps_of_walk (Nat.not_lt.mp hk) ha hw
        by_cases hi : e'.index = e.index
        · refine Or.inr ⟨e, e', hm, hm', hi, hsh, ?_⟩
          rw [hP.agree _ _ _ _ _ _ _ _ hm hm' hi]
          exact hsh
        · refine Or.inl ?_
          simp only [Memory.read, if_neg hk, hw, Option.map_some, Memory.setByte,
            Function.update_of_ne hi]

/-- A store, as far as directory `y` sees it. -/
theorem ends_store_seen (h : Inv s) (hP : Private s.mem) (ht : s.task i = some t) {ring : Ring}
    {vaddr : Nat} (h1 : USER_EXEC_ADDR ≤ vaddr) (h2 : vaddr < PDE_MASK)
    (hc : ring = .kernel → ¬ Clash s.mem t.pde vaddr) (b : NeonixByteBits.Byte) {y : Space}
    (hy : y ≠ t.pde) : Ends badCount (store s.mem t ring vaddr b) fun r =>
      ∀ m', r = .back m' → SeesShared s.mem m' t.pde vaddr y := by
  have hfault : ∀ present write, Ends badCount (pageFault s.mem t vaddr present write) fun r =>
      ∀ m', r = .back m' → SeesShared s.mem m' t.pde vaddr y := by
    intro present write
    refine (ends_pageFault h.sound (h.live ht) vaddr present write).mono fun r hr m' hm' => ?_
    exact seesShared_of_unseen ((hr m' hm').unseen y hy)
  refine Ends.ite (fun hk => absurd h1 (Nat.not_le.mpr hk)) fun _ => ?_
  cases hw : s.mem.walk t.pde vaddr with
  | none => exact hfault _ _
  | some es =>
      obtain ⟨dentry, e⟩ := es
      have hm := maps_of_walk h1 h2 hw
      refine Ends.ite (fun hmay => ?_) fun _ => hfault _ _
      intro m' hm'
      cases hm'
      by_cases hsh : e.shared = true
      · exact seesShared_setByte h.sound hP hm hsh _ b
      · have hns := Bool.eq_false_iff.mpr hsh
        refine seesShared_of_unseen (unseen_setByte h.sound hm hy ?_ _ b)
        rw [← sound_mapped h.sound hm]
        rcases hmay with hk | ⟨_, _, hwr, _⟩
        · -- the kernel's store: the guard rules out a second reference
          by_contra hgt
          exact hc hk ⟨e, hm, hns, by omega⟩
        · exact Nat.le_of_eq (hP.alone _ _ _ _ hm hns hwr)

/-- In every state a careful run reaches: no entry lets its process write a page
    that is not shared and has more than one reference; and a careful store,
    made by a process or by the kernel for it, changes no byte another process
    reads, but for a page that both map as shared. -/
theorem isolation (h : Reach system Careful s) :
    (∀ x d k e, Maps s.mem.toPaging x d k e → e.shared = false → 1 < refs s.mem.toPaging e.index →
      e.write = false) ∧
    (∀ i ring vaddr b s' t, s.task i = some t → Careful s (.store i ring vaddr b) →
      system.step s (.store i ring vaddr b) s' →
      ∀ j u, s.task j = some u → j ≠ i → u.pde ≠ none →
        SeesShared s.mem s'.mem t.pde vaddr u.pde) := by
  obtain ⟨hI, hP⟩ := reach_private h
  refine ⟨fun x d k e hm hsh hr => private_refs hI.sound hP hm hsh hr, ?_⟩
  intro i ring vaddr b s' t ht hc hstep j u hu hji hpde
  have hy : u.pde ≠ t.pde := by
    rw [(hI.own j u hu).resolve_left hpde]
    rcases hI.own i t ht with hn | hi
    · rw [hn]
      exact Option.some_ne_none j
    · rw [hi]
      exact fun he => hji (Option.some.inj he)
  have hexec : Ends badCount (exec s (.store i ring vaddr b)) fun s' =>
      SeesShared s.mem s'.mem t.pde vaddr u.pde := by
    show Ends badCount (running s i >>= fun t => store s.mem t ring vaddr b >>= handled s i t) _
    rw [running, ht]
    refine (ends_store_seen hI hP ht hc.1 hstep.1 (fun hk => hc.2 hk t ht) b hy).bind fun r hr => ?_
    cases r with
    | back m' => exact hr m' rfl
    | exit =>
        refine (ends_freePde hI.sound t.uid t.pde).bind ?_
        rintro m' ⟨_, _, _, hun, _⟩
        exact seesShared_of_unseen (hun _ hy)
  exact hexec.of_ok hstep.2

theorem careful_of_plain {e : Event} (h : Plain s e) : Careful s e := by
  cases e with
  | store | storeWindow | mmap => exact absurd h id
  | create | toUserMode | fork | exit | link | unlink | fault | brk | munmap | execve | segment =>
      trivial

/-- The discipline after a fork and a copy. -/
theorem isolation_forked : ∃ s, follow Plain Enabled exec bootState forkRun = some s ∧
    (∀ x d k e, Maps s.mem.toPaging x d k e → e.shared = false → 1 < refs s.mem.toPaging e.index →
      e.write = false) ∧
    (∀ i ring vaddr b s' t, s.task i = some t → Careful s (.store i ring vaddr b) →
      system.step s (.store i ring vaddr b) s' →
      ∀ j u, s.task j = some u → j ≠ i → u.pde ≠ none →
        SeesShared s.mem s'.mem t.pde vaddr u.pde) := by
  obtain ⟨s, hrun, hs⟩ := reach_forkRun
  exact ⟨s, hrun, isolation (hs.mono fun _ _ => careful_of_plain)⟩

/-- The child of a fork calls `read` with a buffer on a stack page it still
    shares with its parent: the kernel's store goes through the read-only entry,
    and the parent reads it. -/
theorem kernel_store_seen : ∃ s s', Reach system free s ∧
    system.step s (.store 1 .kernel 0xFFFF000 7) s' ∧
    (s.mem.walk (some 1) 0xFFFF000).map (fun e => (e.2.shared, e.2.write)) = some (false, false) ∧
    s.mem.read (some 0) 0xFFFF000 = some 0 ∧ s'.mem.read (some 0) 0xFFFF000 = some 7 := by
  have hrun : ((follow free Enabled exec bootState
      [.create 0 1000, .toUserMode 0, .fault 0 0xFFFF000 false true, .fork 0 1]).bind fun s =>
        (exec s (.store 1 .kernel 0xFFFF000 7)).toOption.map fun s' =>
          ((s.mem.walk (some 1) 0xFFFF000).map (fun e => (e.2.shared, e.2.write)),
            s.mem.read (some 0) 0xFFFF000, s'.mem.read (some 0) 0xFFFF000))
      = some (some (false, false), some 0, some 7) := by decide +kernel
  obtain ⟨s, hs, hrun⟩ := Option.bind_eq_some_iff.mp hrun
  obtain ⟨s', hs', hres⟩ := Option.map_eq_some_iff.mp hrun
  obtain ⟨h1, h2⟩ := Prod.mk.inj hres
  obtain ⟨h2, h3⟩ := Prod.mk.inj h2
  refine ⟨s, s', Reach.follow _ (Reach.start boot_bootState) hs, ⟨?_, ?_⟩, h1, h2, h3⟩
  · show 0xFFFF000 < PDE_MASK
    decide
  cases hx : exec s (.store 1 .kernel 0xFFFF000 7) with
  | ok u =>
      rw [hx] at hs'
      rw [← Option.some.inj hs']
  | error e =>
      rw [hx] at hs'
      cases hs'

end NeonixCopyOnWrite
