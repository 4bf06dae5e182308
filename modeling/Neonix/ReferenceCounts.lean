import Neonix.Allocators
import Neonix.DescriptorRefs

/-! # Reference counts over whole runs

    The calls that change the directories of a task, copy it or end it keep the
    counts exact as well.  So in every state that completed calls of any tasks
    lead to, the count of an open file is the number of descriptors that point to
    it, and the count of an in-memory inode the number of pointers to it. -/

namespace NeonixReferenceCounts

open NeonixMachine NeonixCalls NeonixFileSystem NeonixNamei NeonixFiles NeonixFrames NeonixRuns
  NeonixInodeRefs NeonixPathRefs NeonixDescriptorRefs NeonixByteBits NeonixVolume

variable {H G : Nat → Int} {L : List Nat} {s : Kernel} {i k : Nat}

theorem sysStat_holds {filename : Str} :
    Triple never (fun s => Holds [] s ∧ Alive s) (sysStat filename) fun _ => Holds [] := by
  refine Triple.bind namei_holds fun r => ?_
  cases r with
  | none => exact fun _ _ hs => hs
  | some i => exact Triple.bind iput_holds fun _ => fun _ _ hs => hs

/-! ## The directories and the program of a task -/

/-- The running task is a live one, `task`. -/
def RunningLive (task : Task) (s : Kernel) : Prop :=
  s.current < TASK_NR ∧ s.task_table s.current = some task ∧ task.died = false

theorem runningLive_fixed {task : Task} : Fixed (RunningLive task) := by
  intro s t _ htask hcur _ _ h
  rw [RunningLive, hcur, htask]
  exact h

theorem RunningLive.intro {task : Task} (ha : Alive s) (ht : s.task_table s.current = some task) :
    RunningLive task s := by
  obtain ⟨hcur, task', ht', hlive⟩ := ha
  obtain rfl := Option.some.inj (ht.symm.trans ht')
  exact ⟨hcur, ht, hlive⟩

theorem taskHolds_live (task : Task) (hlive : task.died = false) (i : Nat) :
    taskHolds (some task) i =
      points (some task.ipwd) i + points (some task.iroot) i + points task.iexec i := by
  rw [taskHolds, hlive]
  exact if_neg Bool.false_ne_true

/-- The pointers of a live task as a list. -/
theorem held_task {task : Task} (hlive : task.died = false) (i : Nat) :
    held (task.ipwd :: task.iroot :: task.iexec.toList) i = taskHolds (some task) i := by
  have hexec : held task.iexec.toList i = points task.iexec i := by
    cases task.iexec with
    | none => rfl
    | some e => rw [points_some, ← held_one]; rfl
  rw [held_cons, held_cons, taskHolds_live task hlive]
  push_cast
  rw [points_some, points_some, ← hexec]
  show held _ i + one task.iroot i + one task.ipwd i = _
  omega

theorem taskSlots_live (task : Task) (hlive : task.died = false) (j : Nat) :
    taskSlots (some task) j = slots task.files j := by
  rw [taskSlots, hlive]
  exact if_neg Bool.false_ne_true

/-- A walk of a live task. -/
theorem namei_alive {pathname : Str} :
    Triple never (fun s => Holds [] s ∧ Alive s) (namei pathname) fun r s =>
      HoldsFound [] r s ∧ Alive s :=
  (namei_holds.and (keeps_namei alive_fixed.stable)).pre fun _ hs => ⟨hs, hs.2⟩

/-- A pointer of the running task points to an inode in use. -/
theorem RunningLive.dev {task : Task} (hr : RunningLive task s) (h : Holds L s)
    (hi : taskHolds (some task) i ≠ 0) : (s.inode_table i).dev ≠ EOF := by
  have hle := taskHolds_le (s := s) (i := i) hr.1
  rw [hr.2.1] at hle
  exact h.refs (by omega)

/-- The reference behind a pointer of the running task is dropped before the
    pointer is changed. -/
theorem iput_pointer {task : Task} {p : Option Nat}
    (hp : ∀ i, points p i ≤ taskHolds (some task) i) :
    Triple never (fun s => Holds L s ∧ RunningLive task s) (iput p) fun _ s =>
      Ledger (fun i => held L i - points p i) 0 s ∧ RunningLive task s := by
  refine Triple.intro fun s ⟨h, hr⟩ => ?_
  cases p with
  | none =>
      refine From.pure ⟨Ledger.congr h (fun i => ?_) fun _ => rfl, hr⟩
      rw [points_none]
      exact sub_zero _
  | some i =>
      have hcount : 0 < (s.inode_table i).count := by
        refine Ledger.count_pos h ?_
        have hheld := held_nonneg L i
        have htask := taskHolds_le (s := s) (i := i) hr.1
        have hpoint := hp i
        rw [points, if_pos rfl] at hpoint
        rw [hr.2.1] at htask
        omega
      refine ((iput_ledger.and (keeps_iput runningLive_fixed)).start ⟨⟨h, hcount⟩, hr⟩).post ?_
      rintro _ t ⟨ht, hrt⟩
      refine ⟨Ledger.congr ht (fun j => ?_) fun _ => rfl, hrt⟩
      rw [points_some]
      rfl

/-- A pointer of the running task is changed to the inode the call holds. -/
theorem changePointer_holds {task : Task} {p : Option Nat} {f : Task → Task}
    (hp : ∀ i, points p i ≤ taskHolds (some task) i)
    (hf : ∀ i, taskHolds (some (f task)) i + points p i =
      taskHolds (some task) i + points (some k) i)
    (hslots : ∀ j, taskSlots (some (f task)) j = taskSlots (some task) j) :
    Triple never (fun s => Holds [k] s ∧ RunningLive task s)
      (do iput p; modify fun s => s.setTask f; return 0 : Fs Int) fun _ => Holds [] := by
  refine Triple.bind (iput_pointer hp) fun _ => Triple.intro fun s ⟨h, hcur, ht, _⟩ => ?_
  refine From.set (From.pure (Ledger.putTask h hcur ?_ ?_))
  · intro i
    have hi := hf i
    have hone := points_some k i
    rw [ht, held_one]
    show (0 : Int) = one k i - _ + _ - (taskHolds (some (f task)) i : Int)
    omega
  · intro j
    rw [ht]
    show (0 : Int) = 0 + _ - (taskSlots (some (f task)) j : Int)
    rw [hslots j]
    omega

theorem sysChdir_holds {pathname : Str} :
    Triple never (fun s => Holds [] s ∧ Alive s) (sysChdir pathname) fun _ => Holds [] := by
  refine Triple.bind namei_alive fun r => ?_
  cases r with
  | none => exact rollback_holds.pre fun _ hs => hs.1
  | some inode =>
      refine Triple.intro fun s ⟨h, ha⟩ => From.bind runningTask_spec ?_
      rintro task s ⟨rfl, ht⟩
      have hr := RunningLive.intro ha ht
      refine From.get (From.ite (fun _ => rollback_holds.start h) fun _ => ?_)
      refine (changePointer_holds (fun i => ?_) (fun i => ?_) fun _ => rfl).start ⟨h, hr⟩
      · rw [taskHolds_live task hr.2.2]
        omega
      · rw [taskHolds_live task hr.2.2, taskHolds_live { task with ipwd := inode } hr.2.2]
        dsimp only
        omega

theorem sysChroot_holds {pathname : Str} :
    Triple never (fun s => Holds [] s ∧ Alive s) (sysChroot pathname) fun _ => Holds [] := by
  refine Triple.bind namei_alive fun r => ?_
  cases r with
  | none => exact rollback_holds.pre fun _ hs => hs.1
  | some inode =>
      refine Triple.intro fun s ⟨h, ha⟩ => From.bind runningTask_spec ?_
      rintro task s ⟨rfl, ht⟩
      have hr := RunningLive.intro ha ht
      refine From.get (From.ite (fun _ => rollback_holds.start h) fun _ => ?_)
      refine (changePointer_holds (fun i => ?_) (fun i => ?_) fun _ => rfl).start ⟨h, hr⟩
      · rw [taskHolds_live task hr.2.2]
        omega
      · rw [taskHolds_live task hr.2.2, taskHolds_live { task with iroot := inode } hr.2.2]
        dsimp only
        omega

theorem sysExecve_holds {filename : Str} {loaded : Bool} :
    Triple never (fun s => Holds [] s ∧ Alive s) (sysExecve filename loaded) fun _ => Holds [] := by
  refine Triple.bind namei_alive fun r => ?_
  cases r with
  | none => exact rollback_holds.pre fun _ hs => hs.1
  | some inode =>
      have hback : Triple never (fun s => Holds [inode] s ∧ Alive s) (rollback [inode])
          fun _ => Holds [] := rollback_holds.pre fun _ hs => hs.1
      refine Triple.bind Keeps.get fun _ => Triple.ite (fun _ => hback) fun _ => ?_
      refine Triple.bind keeps_permission fun _ => Triple.ite (fun _ => hback) fun _ => ?_
      refine Triple.ite (fun _ => hback) fun _ => Triple.intro fun s ⟨h, ha⟩ => ?_
      refine From.bind runningTask_spec ?_
      rintro task s ⟨rfl, ht⟩
      have hr := RunningLive.intro ha ht
      refine (changePointer_holds (fun i => ?_) (fun i => ?_) fun _ => rfl).start ⟨h, hr⟩
      · rw [taskHolds_live task hr.2.2]
        omega
      · rw [taskHolds_live task hr.2.2,
          taskHolds_live { task with iexec := some inode } hr.2.2]
        dsimp only
        omega

/-! ## `task_fork` -/

theorem shareExec_holds {p : Option Nat} (h : Holds L s)
    (hp : ∀ i, p = some i → (s.inode_table i).dev ≠ EOF) :
    From never s (shareExec p) fun _ => Holds (p.toList ++ L) := by
  cases p with
  | none => exact From.pure h
  | some i => exact From.store (h.hold (hp i rfl))

theorem keeps_shareExec {P : Kernel → Prop} (hP : Fixed P) {p : Option Nat} :
    Keeps P (shareExec p) := by
  cases p with
  | none => exact .pure
  | some i => exact keeps_setInode hP

/-- The descriptors below `n` that point to a file. -/
def slotsBelow (files : Nat → Option Nat) (n k : Nat) : Nat :=
  ∑ fd ∈ Finset.range n, points (files fd) k

theorem slotsBelow_succ (files : Nat → Option Nat) (n k : Nat) :
    slotsBelow files (n + 1) k = slotsBelow files n k + points (files n) k :=
  Finset.sum_range_succ ..

/-- The child's reference to a file of its father. -/
theorem shareFile_ledger {task : Task} {fd : Nat} (hfd : fd < TASK_FILE_NR) :
    Triple never
      (fun s => Ledger H (fun k => slotsBelow task.files fd k) s ∧ RunningLive task s)
      (shareFile task fd) fun _ s =>
        Ledger H (fun k => slotsBelow task.files (fd + 1) k) s ∧ RunningLive task s := by
  refine Triple.intro fun s ⟨h, hr⟩ => ?_
  rw [shareFile]
  cases hk : task.files fd with
  | none =>
      refine From.pure ⟨Ledger.congr h (fun _ => rfl) fun k => ?_, hr⟩
      rw [slotsBelow_succ, hk, points_none]
      rfl
  | some k =>
      have hcount := descriptor_count fd h (Int.natCast_nonneg _) ⟨hr.1, task, hr.2⟩ hr.2.1 hfd hk
      refine From.store ⟨Ledger.congr (Ledger.share h hcount) (fun _ => rfl) fun j => ?_, hr⟩
      rw [slotsBelow_succ, hk]
      push_cast
      rw [points_some]

/-- The child's references to all files of its father. -/
theorem shareFiles_ledger {task : Task} :
    Triple never (fun s => Ledger H 0 s ∧ RunningLive task s)
      (loop (shareFile task) 0 TASK_FILE_NR) fun _ s =>
        Ledger H (fun k => slots task.files k) s ∧ RunningLive task s :=
  Triple.loop (I := fun n s =>
    Ledger H (fun k => slotsBelow task.files n k) s ∧ RunningLive task s) 0 TASK_FILE_NR
    fun _ _ hfd => shareFile_ledger ((Nat.zero_add TASK_FILE_NR).symm ▸ hfd)

theorem keeps_shareFiles {P : Kernel → Prop} {task : Task}
    (hfile : ∀ s k f, P s → P (s.setFile k f)) :
    Keeps P (loop (shareFile task) 0 TASK_FILE_NR) := by
  refine Keeps.loop (fun fd => ?_) _ _
  rw [shareFile]
  cases task.files fd with
  | none => exact .pure
  | some k => exact Triple.modify fun s hs => hfile s _ _ hs

theorem taskFork_holds :
    Triple never (fun s => Holds [] s ∧ Alive s) taskFork fun _ => Holds [] := by
  refine Triple.intro fun s ⟨h, ha⟩ => From.bind runningTask_spec ?_
  rintro task s ⟨rfl, ht⟩
  have hr := RunningLive.intro ha ht
  refine from_assert fun hlive => From.get ?_
  cases hfree : (List.range TASK_NR).find? fun i => (s.task_table i).isNone with
  | none => exact From.stop not_false
  | some child =>
      have hfound := List.find?_some hfree
      have hnone : s.task_table child = none := Option.isNone_iff_eq_none.mp hfound
      have hchild : child < TASK_NR := List.mem_range.mp (List.mem_of_find?_eq_some hfree)
      have hlives := taskHolds_live task hlive
      -- the references of the child to the inodes, then those to the files
      have hpwd := h.hold (hr.dev h (i := task.ipwd) (by rw [hlives, points, if_pos rfl]; omega))
      have hroot := hpwd.hold (RunningLive.dev (s := s.hold task.ipwd) hr hpwd (i := task.iroot)
        (by rw [hlives, points, points, if_pos rfl]; omega))
      refine From.set (From.set ?_)
      have hexec := shareExec_holds hroot (p := task.iexec) fun i hi =>
        RunningLive.dev (s := (s.hold task.ipwd).hold task.iroot) hr hroot
          (by rw [hlives, hi, points, points, points, if_pos rfl]; omega)
      have hfixed : Fixed fun t => RunningLive task t ∧ t.task_table child = none := by
        intro t u hfile htask hcur htime hsuper ht
        exact ⟨runningLive_fixed t u hfile htask hcur htime hsuper ht.1, htask ▸ ht.2⟩
      have hslot : From never ((s.hold task.ipwd).hold task.iroot) (shareExec task.iexec)
          fun _ t => RunningLive task t ∧ t.task_table child = none :=
        (keeps_shareExec hfixed).start ⟨hr, hnone⟩
      refine From.bind (hexec.and hslot) ?_
      rintro _ t ⟨ht, hrt, hnonet⟩
      refine From.bind (((shareFiles_ledger (H := held (task.iexec.toList ++ [task.iroot, task.ipwd]))).and
        (keeps_shareFiles (P := fun t => t.task_table child = none) fun _ _ _ hs => hs)).start
        ⟨⟨ht, hrt⟩, hnonet⟩) ?_
      rintro _ u ⟨⟨hu, -⟩, hnoneu⟩
      have hperm : (task.iexec.toList ++ [task.iroot, task.ipwd]).Perm
          (task.ipwd :: task.iroot :: task.iexec.toList) :=
        List.perm_append_comm.trans (.swap ..)
      refine From.set (From.pure (Ledger.putTask hu hchild ?_ ?_))
      · intro i
        rw [hnoneu, held_perm hperm, held_task hlive]
        show (0 : Int) = taskHolds (some task) i + (0 : Nat) - taskHolds (some task) i
        omega
      · intro j
        rw [hnoneu, taskSlots_live task hlive]
        show (0 : Int) = slots task.files j + (0 : Nat) - slots task.files j
        omega

/-! ## `task_exit` -/

/-- `iput` of a pointer that may be null. -/
theorem iput_toList {p : Option Nat} :
    Triple never (Ledger (held p.toList) G) (iput p) fun _ => Ledger 0 G := by
  cases p with
  | none => exact fun _ _ hs => hs
  | some i => exact iput_held

/-- A dead task with no descriptor below `n`; its descriptors have their
    references. -/
def Dying (n : Nat) (s : Kernel) : Prop :=
  ∃ task : Task, task.died = true ∧ Running task s ∧ ∀ fd < n, task.files fd = none

theorem closeFd_dying {fd : Nat} (hfd : fd < TASK_FILE_NR) :
    Triple never (Dying fd) (closeFd fd) fun _ => Dying (fd + 1) := by
  refine Triple.intro fun s ⟨task, hdead, hrun, hbelow⟩ => From.bind runningTask_spec ?_
  rintro task' s ⟨rfl, ht'⟩
  obtain rfl := Option.some.inj (hrun.2.1.symm.trans ht')
  cases hk : task.files fd with
  | none =>
      refine From.pure ⟨task, hdead, hrun, fun x hx => ?_⟩
      rcases Nat.lt_succ_iff_lt_or_eq.mp hx with hx | rfl
      · exact hbelow x hx
      · exact hk
  | some k =>
      refine (sysClose_running.start hrun).post fun _ t ht => ?_
      refine ⟨{ task with files := Function.update task.files (fd : Int).toNat none }, hdead, ht,
        fun x hx => ?_⟩
      show Function.update task.files (fd : Int).toNat none x = none
      rw [Int.toNat_natCast]
      by_cases hxf : x = fd
      · rw [hxf, Function.update_self]
      · rw [Function.update_of_ne hxf]
        exact hbelow x (by omega)

theorem taskExit_holds :
    Triple never (fun s => Holds [] s ∧ Alive s) taskExit fun _ => Holds [] := by
  refine Triple.intro fun s ⟨h, ha⟩ => From.bind runningTask_spec ?_
  rintro task s ⟨rfl, ht⟩
  obtain ⟨hcur, -, hlive⟩ := RunningLive.intro ha ht
  refine from_assert fun _ => From.set ?_
  -- the references of the task are its own until they are dropped
  have hdead : Ledger (held (task.ipwd :: task.iroot :: task.iexec.toList))
      (unowned { task with died := true })
      (s.setTask fun task => { task with died := true }) := by
    refine Ledger.putTask h hcur ?_ ?_
    · intro i
      rw [ht, held_task hlive]
      show _ = (0 : Int) + _ - (0 : Nat)
      omega
    · intro j
      rw [ht, taskSlots_live task hlive]
      show (slots task.files j : Int) = (0 : Int) + _ - (0 : Nat)
      omega
  have hslot : (s.setTask fun task => { task with died := true }).task_table s.current =
      some { task with died := true } := by
    show Function.update s.task_table s.current _ s.current = _
    rw [Function.update_self, ht]
    rfl
  refine From.bind ((iput_held.and (keeps_iput running_fixed)).start ⟨hdead, rfl, hslot⟩) ?_
  rintro _ t ⟨ht, hcurt⟩
  refine From.bind ((iput_held.and (keeps_iput running_fixed)).start ⟨ht, hcurt⟩) ?_
  rintro _ u ⟨hu, hcuru⟩
  refine From.bind ((iput_toList.and (keeps_iput running_fixed)).start ⟨hu, hcuru⟩) ?_
  rintro _ v ⟨hv, hcurv, hslotv⟩
  have hdying : Dying 0 v := by
    refine ⟨{ task with died := true }, rfl, ⟨?_, ?_, hv⟩,
      fun fd hfd => absurd hfd (Nat.not_lt_zero fd)⟩
    · rw [hcurv]
      exact hcur
    · rw [hcurv]
      exact hslotv
  refine ((Triple.loop (I := Dying) 0 TASK_FILE_NR fun fd _ hfd => ?_).start hdying).post ?_
  · exact closeFd_dying (by omega)
  · rintro _ w ⟨task', hdead', ⟨-, -, hw⟩, hbelow⟩
    refine Ledger.congr hw (fun _ => rfl) fun k => ?_
    rw [unowned, if_pos hdead', slots, Finset.sum_eq_zero]
    · rfl
    · intro fd hfd
      rw [hbelow fd (by rw [Nat.zero_add]; exact Finset.mem_range.mp hfd), points_none]

/-! ## Runs -/

theorem perform_holds (call : Syscall) :
    Triple never (fun s => Holds [] s ∧ Alive s) (perform call) fun _ => Holds [] := by
  cases call with
  | «open» filename flags mode => exact Triple.bind sysOpen_holds fun _ => fun _ _ hs => hs
  | creat filename mode => exact Triple.bind sysCreat_holds fun _ => fun _ _ hs => hs
  | pipe => exact Triple.bind sysPipe_holds fun _ => fun _ _ hs => hs
  | dup oldfd => exact Triple.bind sysDup_holds fun _ => fun _ _ hs => hs
  | dup2 oldfd newfd => exact Triple.bind sysDup2_holds fun _ => fun _ _ hs => hs
  | close fd => exact sysClose_holds.post fun _ _ hs => hs.1
  | fork => exact Triple.bind taskFork_holds fun _ => fun _ _ hs => hs
  | exit => exact taskExit_holds
  | chdir pathname => exact Triple.bind sysChdir_holds fun _ => fun _ _ hs => hs
  | chroot pathname => exact Triple.bind sysChroot_holds fun _ => fun _ _ hs => hs
  | execve filename loaded => exact Triple.bind sysExecve_holds fun _ => fun _ _ hs => hs
  | stat filename => exact Triple.bind sysStat_holds fun _ => fun _ _ hs => hs
  | mkdir pathname mode => exact Triple.bind sysMkdir_holds fun _ => fun _ _ hs => hs
  | rmdir pathname => exact Triple.bind sysRmdir_holds fun _ => fun _ _ hs => hs
  | link oldname newname => exact Triple.bind sysLink_holds fun _ => fun _ _ hs => hs
  | unlink filename => exact Triple.bind sysUnlink_holds fun _ => fun _ _ hs => hs
  | mknod filename mode dev => exact Triple.bind sysMknod_holds fun _ => fun _ _ hs => hs

/-- Any state of the tables whose counts are exact may be the first one. -/
def system : System Kernel Event := execSystem (Ledger 0 0) Enabled exec

/-- A task is in a slot of the task table. -/
theorem slot_lt {c : Nat} {task : Task} (h : Holds L s) (ht : s.task_table c = some task) :
    c < TASK_NR := by
  by_contra hc
  rw [Ledger.taskEnd h c (Nat.le_of_not_lt hc)] at ht
  cases ht

theorem exec_holds {e : Event} {t : Kernel} (h : Holds [] s) (he : Enabled s e)
    (hx : exec s e = .ok t) : Holds [] t := by
  cases e with
  | call c fuel time syscall =>
      obtain ⟨task, htask, hlive⟩ := (Option.any_eq_true ..).mp he
      have hc := slot_lt h htask
      have hstart : Holds [] { s with current := c, time := time } :=
        ⟨h.inodes, h.files, h.free, h.listed, h.nodup, h.mounts, h.fileEnd, h.taskEnd, h.top⟩
      have halive : Alive { s with current := c, time := time } :=
        ⟨hc, task, htask, by simpa using hlive⟩
      have hend := perform_holds syscall fuel _ ⟨hstart, halive⟩
      change (perform syscall fuel { s with current := c, time := time } >>= fun r =>
        Except.ok r.2) = Except.ok t at hx
      cases hr : perform syscall fuel { s with current := c, time := time } with
      | error e =>
          rw [hr] at hx
          cases hx
      | ok r =>
          rw [hr] at hx hend
          rw [← Except.ok.inj hx]
          exact hend
  | reap c =>
      obtain ⟨task, htask, hdead⟩ := (Option.any_eq_true ..).mp he
      rw [← Except.ok.inj hx]
      refine Ledger.putTask h (slot_lt h htask) (fun i => ?_) fun j => ?_
      · rw [htask, show taskHolds (some task) i = 0 from if_pos hdead]
        rfl
      · rw [htask, show taskSlots (some task) j = 0 from if_pos hdead]
        rfl

theorem reach_holds (h : Reach system free s) : Holds [] s := by
  refine h.invariant (fun s₀ hs => hs) fun s₀ e s₁ hs _ hstep => ?_
  exact exec_holds hs hstep.1 hstep.2

/-- In every state that completed calls lead to, the count of an open file is the
    number of descriptors of live tasks that point to it, the count of an
    in-memory inode is the number of pointers to it, and what is pointed to is
    not free. -/
theorem counts_exact (h : Reach system free s) :
    (∀ k, (s.file_table k).count = fileRefs s k) ∧
    (∀ i, (s.inode_table i).count = inodeRefs s i) ∧
    (∀ i, (s.inode_table i).dev = EOF → inodeRefs s i = 0) := by
  have hs := reach_holds h
  have hfile : ∀ k, (s.file_table k).count = fileRefs s k := by
    intro k
    have hk : ((s.file_table k).count : Int) = fileRefs s k + 0 := Ledger.files hs k
    omega
  have hinode : ∀ i, (s.inode_table i).count = inodeRefs s i := by
    intro i
    have hi : ((s.inode_table i).count : Int) = inodeRefs s i + 0 := Ledger.inodes hs i
    omega
  refine ⟨hfile, hinode, fun i hi => ?_⟩
  rw [← hinode i]
  exact (Ledger.free hs i hi).1

/-! ## A file system with an empty root directory -/

def bootDesc : SuperDesc := NeonixAllocators.oneMapDesc

/-- The root directory in inode 1 and block 5. -/
def bootDisk (block : Nat) : Bytes := fun k =>
  match block with
  | 2 | 3 => if k = 0 then 3 else 0
  | 4 => [0xED, 0x41, 0, 0, 32, 0, 0, 0, 0, 0, 0, 0, 0, 2, 5].getD k 0
  | 5 => [1, 0, 0x2E, 0, 0, 0, 0, 0, 0, 0, 0, 0, 0, 0, 0, 0, 1, 0, 0x2E, 0x2E].getD k 0
  | _ => 0

def bootTask : Task where
  uid := 0
  gid := 0
  umask := 0o022
  ipwd := 0
  iroot := 0
  iexec := none
  files := fun _ => none
  died := false

def bootState : Kernel where
  inode_table i :=
    { desc := inodeDesc bootDesc 1 1, dev := if i = 0 then 1 else EOF, nr := 1,
      count := if i = 0 then 4 else 0, mount := if i = 0 then 1 else 0, pipe := false }
  super_table k :=
    { desc := bootDesc, dev := if k = 0 then 1 else EOF, count := 1,
      inode_list := if k = 0 then [0] else [], iroot := if k = 0 then some 0 else none,
      imount := if k = 0 then some 0 else none }
  root := 0
  file_table _ := { inode := none, count := 0, offset := 0, flags := 0, mode := 0 }
  task_table t := if t = 0 then some bootTask else none
  current := 0
  disk _ := bootDisk
  time := 0

/-- Only inode 0 is pointed to, by the task and by the super block. -/
theorem bootState_refs : inodeRefs bootState i = if i = 0 then 4 else 0 := by
  by_cases hi : i = 0
  · subst hi
    decide +kernel
  have hnot : points (some 0) i = 0 := if_neg fun h => hi (Option.some.inj h).symm
  rw [if_neg hi, inodeRefs, Finset.sum_eq_zero, Finset.sum_eq_zero, Finset.sum_eq_zero]
  · rfl
  · intro k _
    show (if (if k = 0 then (1 : Int) else EOF) = EOF then 0
      else points (if k = 0 then some 0 else none) i + points (if k = 0 then some 0 else none) i) = 0
    by_cases hk : k = 0
    · simp only [hk, if_true, hnot, ite_self]
    · simp only [hk, if_false, if_true]
  · intro t _
    show taskHolds (if t = 0 then some bootTask else none) i = 0
    by_cases ht : t = 0
    · rw [if_pos ht, taskHolds_live bootTask rfl]
      show points (some 0) i + points (some 0) i + points none i = 0
      rw [hnot, points_none]
    · rw [if_neg ht]
      rfl
  · intro k _
    rfl

theorem bootState_files : fileRefs bootState k = 0 := by
  refine Finset.sum_eq_zero fun t _ => ?_
  show taskSlots (if t = 0 then some bootTask else none) k = 0
  by_cases ht : t = 0
  · rw [if_pos ht, taskSlots_live bootTask rfl]
    exact Finset.sum_eq_zero fun _ _ => points_none k
  · rw [if_neg ht]
    rfl

theorem bootState_ledger : Ledger 0 0 bootState := by
  constructor
  · intro i
    rw [bootState_refs]
    show ((if i = 0 then 4 else 0 : Nat) : Int) = _ + 0
    omega
  · intro k
    rw [bootState_files]
    rfl
  · intro i hi
    have hne : i ≠ 0 := by
      rintro rfl
      exact absurd hi (by decide)
    exact ⟨if_neg hne, rfl⟩
  · intro k _ i hi
    have hz : i = 0 := by
      by_cases hk : k = 0
      · subst hk
        exact List.mem_singleton.mp hi
      · change i ∈ (if k = 0 then [0] else []) at hi
        rw [if_neg hk] at hi
        exact absurd hi List.not_mem_nil
    subst hz
    decide
  · intro k _
    show (if k = 0 then [0] else []).Nodup
    split_ifs
    · exact List.nodup_singleton 0
    · exact List.nodup_nil
  · intro i
    show (if i = 0 then (1 : Int) else 0) ≠ EOF
    split_ifs
    · decide
    · decide
  · intro k _
    rfl
  · intro t ht
    have h0 : 0 < TASK_NR := by decide
    exact if_neg (by omega)
  · intro k _ _ m hm _ _ k' hk'
    have hz : m = 0 := by
      by_cases hk : k = 0
      · subst hk
        exact (Option.some.inj hm).symm
      · change (if k = 0 then some 0 else none) = some m at hm
        rw [if_neg hk] at hm
        cases hm
    subst hz
    rw [show getSuper bootState (bootState.inode_table 0).dev = some 0 by decide] at hk'
    rw [← Option.some.inj hk']
    rfl

/-- `/a`. -/
def pathA : Str := [0x2F, 0x61]

/-- A task opens `/` and forks; the child makes a pipe, a copy of a descriptor and
    a directory, and ends. -/
def forkRun : List Event :=
  [.call 0 1 0 (.open [0x2F] 0 0), .call 0 1 0 .fork, .call 1 1 0 .pipe, .call 1 1 0 (.dup 3),
    .call 1 4 0 (.mkdir pathA 0o755), .call 1 1 0 .exit, .reap 1, .call 0 4 0 (.chdir pathA)]

theorem counts_exact_forked : ∃ s, follow free Enabled exec bootState forkRun = some s ∧
    (∀ k, (s.file_table k).count = fileRefs s k) ∧
    (∀ i, (s.inode_table i).count = inodeRefs s i) ∧
    (∀ i, (s.inode_table i).dev = EOF → inodeRefs s i = 0) := by
  have hrun : (follow free Enabled exec bootState forkRun).isSome = true := by decide +kernel
  obtain ⟨s, hs⟩ := Option.isSome_iff_exists.mp hrun
  have hstart : Reach system free bootState := Reach.start bootState_ledger
  exact ⟨s, hs, counts_exact (hstart.follow forkRun hs)⟩

end NeonixReferenceCounts
