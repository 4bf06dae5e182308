import Neonix.DirectoryCalls

/-! # Exact reference counts

    The counts are exact in every state the memory calls reach, so a page is
    handed out only while nothing maps it, and no assertion on a count fails.
    The invariant of a run adds to exact counts which directories exist: the
    kernel's, and that of each task that has left it. -/

namespace NeonixPageCounts

open NeonixMachine NeonixOutcome NeonixRuns NeonixMemory NeonixPageRefs NeonixPageSteps
open NeonixPageCalls NeonixMappingCalls NeonixDirectoryCalls

/-- What holds in every state a run reaches. -/
structure Inv (s : State) : Prop where
  sound : Sound s.mem
  ok : ∀ i t, s.task i = some t → TaskOk t
  own : ∀ i t, s.task i = some t → t.pde = none ∨ t.pde = some i
  dirs : ∀ x, (s.mem.dirs x).isSome = true ↔
    x = none ∨ ∃ i t, s.task i = some t ∧ t.pde = x ∧ x = some i

variable {s : State} {i : TaskId} {t : Task}

/-- The directory of a task exists. -/
theorem Inv.live (h : Inv s) (ht : s.task i = some t) : (s.mem.dirs t.pde).isSome := by
  refine (h.dirs t.pde).mpr ?_
  rcases h.own i t ht with hn | hi
  · exact Or.inl hn
  · exact Or.inr ⟨i, t, ht, rfl, hi⟩

theorem ends_running (s : State) (i : TaskId) :
    Ends badCount (running s i) fun t => s.task i = some t := by
  unfold running
  cases h : s.task i with
  | some t => rfl
  | none =>
      intro hb
      cases hb

/-- The tasks after one changed. -/
theorem task_setTask {j : TaskId} {o : Option Task} {u : Task}
    (hj : (s.setTask i o).task j = some u) :
    (j = i ∧ o = some u) ∨ (j ≠ i ∧ s.task j = some u) := by
  have hj' : Function.update s.task i o j = some u := hj
  by_cases hji : j = i
  · subst hji
    rw [Function.update_self] at hj'
    exact Or.inl ⟨rfl, hj'⟩
  · rw [Function.update_of_ne hji] at hj'
    exact Or.inr ⟨hji, hj'⟩

/-- One task changes, together with its directory. -/
theorem Inv.setTask (h : Inv s) {m' : Memory} {o : Option Task} (hs : Sound m')
    (hok : ∀ u, o = some u → TaskOk u ∧ (u.pde = none ∨ u.pde = some i))
    (hd : ∀ x, x ≠ some i → (m'.dirs x).isSome = (s.mem.dirs x).isSome)
    (hi : (m'.dirs (some i)).isSome = true ↔ ∃ u, o = some u ∧ u.pde = some i) :
    Inv ({ s with mem := m' }.setTask i o) where
  sound := hs
  ok := by
    intro j u hj
    rcases task_setTask hj with ⟨rfl, ho⟩ | ⟨_, hold⟩
    · exact (hok u ho).1
    · exact h.ok j u hold
  own := by
    intro j u hj
    rcases task_setTask hj with ⟨rfl, ho⟩ | ⟨_, hold⟩
    · exact (hok u ho).2
    · exact h.own j u hold
  dirs := by
    intro x
    show (m'.dirs x).isSome = true ↔ _
    by_cases hx : x = some i
    · subst hx
      rw [hi]
      constructor
      · rintro ⟨u, ho, hu⟩
        exact Or.inr ⟨i, u, (Function.update_self ..).trans ho, hu, rfl⟩
      · rintro (hf | ⟨j, u, hj, hu, hij⟩)
        · cases hf
        · obtain rfl := Option.some.inj hij
          rcases task_setTask hj with ⟨_, ho⟩ | ⟨hne, _⟩
          · exact ⟨u, ho, hu⟩
          · exact absurd rfl hne
    · rw [hd x hx, h.dirs]
      refine or_congr_right ?_
      constructor
      · rintro ⟨j, u, hj, hu, rfl⟩
        have hji : j ≠ i := fun hji => hx (congrArg some hji)
        exact ⟨j, u, (Function.update_of_ne hji _ _).trans hj, hu, rfl⟩
      · rintro ⟨j, u, hj, hu, rfl⟩
        rcases task_setTask hj with ⟨rfl, _⟩ | ⟨_, hold⟩
        · exact absurd rfl hx
        · exact ⟨j, u, hold, hu, rfl⟩

/-- A call of task `i` that leaves it on its directory. -/
theorem Inv.call (h : Inv s) (ht : s.task i = some t) {m' : Memory} {t' : Task} (hs : Sound m')
    (hd : ∀ y, (m'.dirs y).isSome = (s.mem.dirs y).isSome) (hok : TaskOk t')
    (hp : t'.pde = t.pde) : Inv ({ s with mem := m' }.setTask i (some t')) := by
  refine h.setTask hs (fun u ho => ?_) (fun x _ => hd x) ?_
  · rw [← Option.some.inj ho, hp]
    exact ⟨hok, h.own i t ht⟩
  · rw [hd, h.dirs]
    constructor
    · rintro (hf | ⟨j, u, hj, hu, hij⟩)
      · cases hf
      · obtain rfl := Option.some.inj hij
        rw [ht] at hj
        rw [← Option.some.inj hj] at hu
        exact ⟨t', rfl, hp.trans hu⟩
    · rintro ⟨u, ho, hu⟩
      rw [← Option.some.inj ho, hp] at hu
      exact Or.inr ⟨i, t, ht, hu, rfl⟩

/-- A call that changes no task. -/
theorem Inv.memory (h : Inv s) {m' : Memory} (hs : Sound m')
    (hd : ∀ y, (m'.dirs y).isSome = (s.mem.dirs y).isSome) : Inv { s with mem := m' } where
  sound := hs
  ok := h.ok
  own := h.own
  dirs := fun x => by
    show (m'.dirs x).isSome = true ↔ _
    rw [hd]
    exact h.dirs x

/-- A task gets a new directory. -/
theorem Inv.place (h : Inv s) {m' : Memory} {t' : Task} {pde : Nat → Entry}
    (hs : Sound (m'.setDir (some i) (some pde))) (hd : m'.dirs = s.mem.dirs) (hok : TaskOk t')
    (hp : t'.pde = some i) :
    Inv ({ s with mem := m'.setDir (some i) (some pde) }.setTask i (some t')) := by
  refine h.setTask hs (fun u ho => ?_) (fun x hx => ?_) ?_
  · rw [← Option.some.inj ho]
    exact ⟨hok, Or.inr hp⟩
  · rw [← hd]
    exact congrArg Option.isSome (Function.update_of_ne hx _ _)
  · refine ⟨fun _ => ⟨t', rfl, hp⟩, fun _ => ?_⟩
    exact congrArg Option.isSome (Function.update_self (some i) (some pde) m'.dirs)

/-- The directory of a task that has none. -/
theorem Inv.no_dir (h : Inv s) (hn : ∀ t, s.task i = some t → t.pde = none) :
    s.mem.dirs (some i) = none := by
  by_contra hne
  rcases (h.dirs (some i)).mp (Option.isSome_iff_ne_none.mpr hne) with hf | ⟨j, u, hj, hu, hij⟩
  · cases hf
  · obtain rfl := Option.some.inj hij
    rw [hn u hj] at hu
    cases hu

/-- What a step keeps: the invariant, and the copy-on-write discipline where
    `fair` holds. -/
def StepOk (fair : Prop) (s s' : State) : Prop :=
  Inv s' ∧ (fair → Private s.mem → Private s'.mem)

theorem taskOk_new (uid : Nat) : TaskOk (newTask uid) := by
  refine ⟨le_refl _, ?_, ?_, ?_⟩
  · show USER_EXEC_ADDR ≤ USER_MMAP_ADDR
    decide
  · show kernelMap.offset ≤ IDX USER_MMAP_ADDR
    decide
  · show kernelMap.offset + kernelMap.size * 8 ≤ IDX USER_STACK_TOP
    decide

theorem inUserMap_userMap : InUserMap userMap := by
  refine ⟨?_, ?_⟩
  · decide
  · decide

theorem ends_taskExit (h : Inv s) (ht : s.task i = some t) (fair : Prop) :
    Ends badCount (taskExit s i t) (StepOk fair s) := by
  refine (ends_freePde h.sound t.uid t.pde).bind ?_
  rintro m' ⟨hx, hs, hd, _, hcow⟩
  have hpde : t.pde = some i := (h.own i t ht).resolve_left hx
  refine ⟨h.setTask hs (by rintro u ⟨⟩) (fun x hx => ?_) ?_, fun _ => hcow⟩
  · rw [hd, hpde, Function.update_of_ne hx]
  · rw [hd, hpde, Function.update_self]
    exact ⟨fun hf => absurd hf Bool.false_ne_true, by rintro ⟨_, ⟨⟩, _⟩⟩

theorem ends_handled (h : Inv s) (ht : s.task i = some t) (fair : Prop) {r : Handled}
    (hr : ∀ m', r = .back m' → Sound m' ∧
      (∀ y, (m'.dirs y).isSome = (s.mem.dirs y).isSome) ∧ (Private s.mem → Private m')) :
    Ends badCount (handled s i t r) (StepOk fair s) := by
  cases r with
  | exit => exact ends_taskExit h ht fair
  | back m' =>
      obtain ⟨hs, hd, hcow⟩ := hr m' rfl
      exact ⟨h.memory hs hd, fun _ => hcow⟩

/-- Storing a byte changes no count. -/
theorem counted_setByte {m : Memory} (h : Sound m) (p off : Nat) (b : NeonixByteBits.Byte) :
    Sound (m.setByte p off b) :=
  ⟨h.exact, h.low, h.inside, h.start, h.once, h.tables, h.fresh⟩

theorem ends_store (h : Inv s) (ht : s.task i = some t) (ring : Ring) (vaddr : Nat)
    (b : NeonixByteBits.Byte) : Ends badCount (store s.mem t ring vaddr b) fun r =>
      ∀ m', r = .back m' → Sound m' ∧
        (∀ y, (m'.dirs y).isSome = (s.mem.dirs y).isSome) ∧ (Private s.mem → Private m') := by
  have hfault : ∀ present write, Ends badCount (pageFault s.mem t vaddr present write) fun r =>
      ∀ m', r = .back m' → Sound m' ∧
        (∀ y, (m'.dirs y).isSome = (s.mem.dirs y).isSome) ∧ (Private s.mem → Private m') := by
    intro present write
    refine (ends_pageFault h.sound (h.live ht) vaddr present write).mono fun r hr m' hm' => ?_
    obtain ⟨hh, hcow⟩ := hr m' hm'
    exact ⟨hh.sound, hh.dirs, hcow⟩
  have hbyte : ∀ p off, ∀ m', (Handled.back (s.mem.setByte p off b)) = .back m' → Sound m' ∧
      (∀ y, (m'.dirs y).isSome = (s.mem.dirs y).isSome) ∧ (Private s.mem → Private m') := by
    intro p off m' hm'
    cases hm'
    refine ⟨counted_setByte h.sound p off b, fun _ => rfl, fun hP => ?_⟩
    exact hP.mono (fun _ _ _ _ hm => hm) fun _ _ _ _ _ _ _ => rfl
  refine Ends.ite (fun _ => Ends.ite (fun _ => hfault _ _) fun _ => hbyte _ _) fun _ => ?_
  cases hw : s.mem.walk t.pde vaddr with
  | some e =>
      refine Ends.ite (fun _ => ?_) fun _ => hfault _ _
      exact hbyte _ _
  | none => exact hfault _ _

/-- Where a step gives no right on a page another mapping refers to. -/
def FairMap (s : State) : Event → Prop
  | .mmap i addr length prot flags =>
      ∀ t, s.task i = some t → MmapFair s.mem t addr length prot flags
  | _ => True

/-- The step lemma: no step stops at a reference count, and every step but a
    store through the window keeps the invariant. -/
theorem ends_exec (h : Inv s) {e : Event} (he : Enabled s e)
    (hw : ∀ i vaddr entry, e ≠ .storeWindow i vaddr entry) :
    Ends badCount (exec s e) (StepOk (FairMap s e) s) := by
  cases e with
  | create i uid =>
      have hfree : s.mem.dirs (some i) = none := h.no_dir fun t ht => by
        rw [show s.task i = none from he] at ht
        cases ht
      refine ⟨h.setTask h.sound (fun u ho => ?_) (fun _ _ => rfl) ?_, fun _ => id⟩
      · rw [← Option.some.inj ho]
        exact ⟨taskOk_new uid, Or.inl rfl⟩
      · rw [hfree]
        refine ⟨fun hf => absurd hf Bool.false_ne_true, ?_⟩
        rintro ⟨u, ho, hu⟩
        rw [← Option.some.inj ho] at hu
        cases hu
  | toUserMode i =>
      refine (ends_running s i).bind fun t ht => ?_
      refine (ends_copyPde h.sound t.pde).bind ?_
      rintro ⟨pde, m'⟩ hC
      have hfree : m'.dirs (some i) = none := by
        rw [hC.dirs]
        exact h.no_dir he
      obtain ⟨hs, hcow⟩ := hC.place hfree
      have hok := h.ok i t ht
      refine ⟨h.place hs hC.dirs ⟨hok.end_, hok.brk, ?_⟩ rfl, fun _ => hcow⟩
      exact inUserMap_userMap
  | fork i j =>
      refine (ends_running s i).bind fun t ht => ?_
      refine (ends_copyPde h.sound t.pde).bind ?_
      rintro ⟨pde, m'⟩ hC
      have hfree : m'.dirs (some j) = none := by
        rw [hC.dirs]
        refine h.no_dir fun u hu => ?_
        rw [show s.task j = none from he] at hu
        cases hu
      obtain ⟨hs, hcow⟩ := hC.place hfree
      have hok := h.ok i t ht
      refine ⟨h.place hs hC.dirs ⟨hok.end_, hok.brk, hok.vmap.1, ?_⟩ rfl, fun _ => hcow⟩
      have := hok.vmap.1
      simp only [IDX, USER_MMAP_ADDR, USER_STACK_TOP, PAGE_SIZE] at this ⊢
      omega
  | exit i =>
      exact (ends_running s i).bind fun t ht => ends_taskExit h ht _
  | link i vaddr =>
      refine (ends_running s i).bind fun t ht => ?_
      refine (ends_linkPage h.sound (h.live ht) (counts_of_range he.1 he.2)).bind fun m' hL => ?_
      exact ⟨h.memory hL.kept.sound hL.kept.dirs, fun _ => hL.kept.cow⟩
  | unlink i vaddr =>
      refine (ends_running s i).bind fun t ht => ?_
      refine (ends_unlinkPage h.sound (counts_of_range he.1 he.2)).bind fun m' hk => ?_
      exact ⟨h.memory hk.sound hk.dirs, fun _ => hk.cow⟩
  | fault i vaddr present write =>
      refine (ends_running s i).bind fun t ht => ?_
      refine (ends_pageFault h.sound (h.live ht) vaddr present write).bind fun r hr => ?_
      exact ends_handled h ht _ fun m' hm' => ⟨(hr m' hm').sound, (hr m' hm').dirs, (hr m' hm').cow⟩
  | brk i addr =>
      refine (ends_running s i).bind fun t ht => ?_
      refine (ends_sysBrk h.sound (h.ok i t ht) (h.live ht) addr).bind ?_
      rintro ⟨_, m', t'⟩ ⟨hk, hok, hp⟩
      exact ⟨h.call ht hk.sound hk.dirs hok hp, fun _ => hk.cow⟩
  | mmap i addr length prot flags =>
      refine (ends_running s i).bind fun t ht => ?_
      refine (ends_sysMmap h.sound (h.ok i t ht) (h.live ht) addr length prot flags).bind ?_
      rintro ⟨_, m', t'⟩ ⟨hh, hok, hp, hcow⟩
      exact ⟨h.call ht hh.sound hh.dirs hok hp, fun hfair => hcow (hfair t ht)⟩
  | munmap i addr length =>
      refine (ends_running s i).bind fun t ht => ?_
      refine (ends_sysMunmap h.sound (h.ok i t ht) addr length).bind ?_
      rintro ⟨m', t'⟩ ⟨hk, hok, hp⟩
      exact ⟨h.call ht hk.sound hk.dirs hok hp, fun _ => hk.cow⟩
  | execve i =>
      refine (ends_running s i).bind fun t ht => ?_
      have hok : TaskOk { t with end_ := USER_EXEC_ADDR } :=
        ⟨le_refl _, (h.ok i t ht).brk, (h.ok i t ht).vmap⟩
      have hl : (s.mem.dirs t.pde).isSome := h.live ht
      refine (ends_sysBrk h.sound hok hl USER_EXEC_ADDR).bind ?_
      rintro ⟨_, m', t'⟩ ⟨hk, hok', hp⟩
      have hlive : (m'.dirs t'.pde).isSome := by
        rw [hp]
        exact hk.live hl
      refine (ends_linkPage hk.sound hlive (counts_of_range (le_refl _) (by decide))).bind
        fun m'' hL => ?_
      refine ⟨h.call ht hL.kept.sound (fun y => (hL.kept.dirs y).trans (hk.dirs y)) hok' hp,
        fun _ hP => hL.kept.cow (hk.cow hP)⟩
  | segment i vaddr count writable =>
      refine (ends_running s i).bind fun t ht => ?_
      refine (ends_loadSegment h.sound (h.ok i t ht) (h.live ht) vaddr count writable).bind ?_
      rintro ⟨m', t'⟩ ⟨hk, hok, hp⟩
      exact ⟨h.call ht hk.sound hk.dirs hok hp, fun _ => hk.cow⟩
  | store i ring vaddr b =>
      refine (ends_running s i).bind fun t ht => ?_
      refine (ends_store h ht ring vaddr b).bind fun r hr => ?_
      exact ends_handled h ht _ hr
  | storeWindow i vaddr entry => exact absurd rfl (hw i vaddr entry)

/-! ## Runs -/

/-- The counts `mapping_init` leaves. -/
theorem inv_boot (h : Boot s) : Inv s ∧ Private s.mem := by
  obtain ⟨size, data, _, hmin, hmax, rfl⟩ := h
  simp only [KERNEL_MEMORY_SIZE, MEMORY_BASE] at hmin hmax
  have hclear : ∀ x d, (mappingInit size data).slot x d = .clear := by
    intro x d
    by_cases hx : x = none
    · subst hx
      rfl
    · simp only [Paging.slot, mappingInit, if_neg hx]
  have hspace : ∀ x p, spaceRefs (mappingInit size data).toPaging x p = 0 :=
    fun x p => spaceRefs_of_clear (hclear x) p
  have hrefs : ∀ p, refs (mappingInit size data).toPaging p = 0 :=
    fun p => Finset.sum_eq_zero fun x _ => hspace x p
  have hstart : (mappingInit size data).start_page ≤ KERNEL_PAGES := by
    simp only [mappingInit, KERNEL_PAGES, IDX, MEMORY_BASE, KERNEL_MEMORY_SIZE, PAGE_SIZE]
    omega
  refine ⟨⟨⟨fun p hp => ?_, fun p hp => ?_, fun p hp => ?_, hstart, fun x p => ?_, fun x d _ hs => ?_,
    fun g hg => ?_⟩, fun i t ht => ?_, fun i t ht => ?_, fun x => ?_⟩, ⟨fun x d t e hm => ?_,
    fun x d t e y d' t' e' hm => ?_⟩⟩
  · show (mappingInit size data).memory_map p = refs (mappingInit size data).toPaging p + 0
    rw [hrefs]
    refine if_neg ?_
    rintro (hlt | hlt)
    · exact absurd (lt_of_lt_of_le hlt hstart) (by omega)
    · exact absurd hlt (Nat.not_lt.mpr hp)
  · exact Nat.le_of_eq (if_pos (Or.inr hp)).symm
  · have hp' : 0 < refs (mappingInit size data).toPaging p + 0 := hp
    rw [hrefs] at hp'
    omega
  · exact le_trans (Nat.le_of_eq (hspace x p)) (Nat.zero_le 1)
  · rw [show (mappingInit size data).slot x d = .clear from hclear x d] at hs
    cases hs
  · cases hg
  · cases ht
  · cases ht
  · by_cases hx : x = none
    · subst hx
      exact ⟨fun _ => Or.inl rfl, fun _ => rfl⟩
    · refine ⟨fun hf => ?_, fun hf => ?_⟩
      · rw [show (mappingInit size data).dirs x = none from if_neg hx] at hf
        cases hf
      · rcases hf with hf | ⟨_, _, hj, _⟩
        · exact absurd hf hx
        · cases hj
  · have hs := hm.2.2.1
    rw [show (mappingInit size data).slot x d = .clear from hclear x d] at hs
    cases hs
  · have hs := hm.2.2.1
    rw [show (mappingInit size data).slot x d = .clear from hclear x d] at hs
    cases hs

/-- The memory calls: everything but stores. -/
def Listed (_ : State) : Event → Prop
  | .store .. | .storeWindow .. => False
  | _ => True

theorem listed_not_window {e : Event} (h : Listed s e) (i : TaskId) (vaddr : Nat) (entry : Entry) :
    e ≠ .storeWindow i vaddr entry := by
  rintro rfl
  exact h

/-- The run lemma. -/
theorem reach_inv (h : Reach system Listed s) : Inv s := by
  refine h.invariant (fun s₀ hs => (inv_boot (s := s₀) hs).1) fun s₀ e s₁ hI hl hstep => ?_
  exact ((ends_exec hI hstep.1 (listed_not_window hl)).of_ok hstep.2).1

/-- A process with one stack page forks, and the child stores to the page. -/
def forkRun : List Event :=
  [.create 0 1000, .toUserMode 0, .fault 0 0xFFFF000 false true, .fork 0 1,
    .fault 1 0xFFFF000 true true]

/-- The state before the first task, with 16 MB from 1 MB on. -/
def bootState : State := { mem := mappingInit 0x1000000 fun _ _ => 0, task := fun _ => none }

theorem boot_bootState : Boot bootState :=
  ⟨0x1000000, fun _ _ => 0, by decide, by decide, by decide, rfl⟩

/-- The steps that need no look at the state to be admitted. -/
def Plain (_ : State) : Event → Prop
  | .store .. | .storeWindow .. | .mmap .. => False
  | _ => True

instance (s : State) : (e : Event) → Decidable (Plain s e)
  | .store .. | .storeWindow .. | .mmap .. => .isFalse id
  | .create .. | .toUserMode _ | .fork .. | .exit _ | .link .. | .unlink .. | .fault .. | .brk ..
  | .munmap .. | .execve _ | .segment .. => .isTrue trivial

theorem listed_of_plain {e : Event} (h : Plain s e) : Listed s e := by
  cases e with
  | store | storeWindow => exact absurd h id
  | create | toUserMode | fork | exit | link | unlink | fault | brk | mmap | munmap | execve
  | segment => trivial

theorem reach_forkRun : ∃ s, follow Plain Enabled exec bootState forkRun = some s ∧
    Reach system Plain s := by
  have hrun : (follow Plain Enabled exec bootState forkRun).isSome = true := by decide +kernel
  obtain ⟨s, hs⟩ := Option.isSome_iff_exists.mp hrun
  have hstart : Reach system Plain bootState := Reach.start boot_bootState
  exact ⟨s, hs, hstart.follow forkRun hs⟩

end NeonixPageCounts
