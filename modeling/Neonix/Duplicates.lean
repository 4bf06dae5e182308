import Neonix.WiredTables

/-! # `dup2`

    `sys_dup2` closes the new descriptor before it looks at the old one.  From any
    tables whose counts are exact the close returns, also where it gives up the last
    reference to a file, so what `sys_dup2` does is known for every table: it keeps
    its promise if the new descriptor is not used, or if the old one is and is another
    one. -/

namespace NeonixDuplicates

open NeonixMachine NeonixOutcome NeonixCalls NeonixFileSystem NeonixNamei NeonixFiles NeonixFrames
  NeonixRuns NeonixTally NeonixInodeRefs NeonixPathRefs NeonixDescriptorRefs NeonixReferenceCounts
  NeonixWiredTables

variable {s t : Kernel} {H G : Nat → Int} {i k fd : Nat} {task : Task}

/-- No reason to stop is good. -/
def always : Halt → Prop := fun _ => True

/-! ## Giving up an inode -/

/-- Past an assertion that holds. -/
theorem past_assert {β : Type} {p : Prop} [Decidable p] {f : Unit → Fs β} {R : β → Kernel → Prop}
    (hp : p) (h : From always s (f ()) R) : From always s (assert p >>= f) R := by
  rw [assert, if_pos hp]
  exact h

/-- The root file system holds the root inode. -/
theorem root_held (h : Linked s) : 1 ≤ inodeRefs s 0 := by
  have hone : (superHolds (s.super_table 0) 0 : Int) ≤ inodeRefs s 0 := by
    exact_mod_cast superHolds_le (by decide)
  rw [superHolds, if_neg h.rooted.1, h.rooted.2.1, points, if_pos rfl] at hone
  push_cast at hone
  omega

theorem putFreeInode_returns (hi : i ≠ 0) (hcount : (s.inode_table i).count = 0) :
    From always s (putFreeInode i) fun _ _ => True :=
  past_assert hi (From.get (past_assert hcount (From.store trivial)))

/-- `iput` of a reference that is there returns. -/
theorem iput_returns (hl : Ledger (one i) G s) (h : Linked s) :
    From always s (iput (some i)) fun _ _ => True := by
  have hcount : ((s.inode_table i).count : Int) = inodeRefs s i + one i i := hl.inodes i
  have hone : one i i = 1 := if_pos rfl
  have hpos : (s.inode_table i).count ≠ 0 := by omega
  have hdecr : decr (s.inode_table i).count = (s.inode_table i).count - 1 := if_neg hpos
  have hself : ((s.setInode i fun inode => { inode with count := decr inode.count }).inode_table i).count =
      (s.inode_table i).count - 1 := by rw [setInode_self]; exact hdecr
  have hroot := hl.listedInUse h.root
  refine From.get (From.ite (fun hp => ?_) fun hp => ?_)
  · -- a pipe is not the root inode
    refine From.set (From.get (From.ite (fun _ => From.pure trivial) fun hz => From.set ?_))
    refine putFreeInode_returns ?_ ?_
    · rintro rfl
      rw [hroot.2] at hp
      cases hp
    · rw [setInode_self]
      exact not_not.mp hz
  · refine From.set (From.get (From.ite (fun _ => From.pure trivial) fun hz => ?_))
    have hlisted : Listed s i := h.listed i (hl.used (Nat.pos_of_ne_zero hpos)) (Bool.eq_false_iff.mpr hp)
    refine From.bind (Q := fun _ t => t.inode_table =
      (s.setInode i fun inode => { inode with count := decr inode.count }).inode_table) ?_ fun _ t ht => ?_
    · exact From.get (past_assert hlisted (From.store rfl))
    · refine putFreeInode_returns ?_ ?_
      · -- the root inode keeps the reference of the root file system
        rintro rfl
        have hmount := root_held h
        rw [hself] at hz
        omega
      · rw [ht]
        exact not_not.mp hz

/-! ## Closing -/

/-- The tables of open files and of tasks as a call leaves them. -/
def TablesAre (c : Nat) (tasks : Nat → Option Task) (s : Kernel) : Prop :=
  s.current = c ∧ s.task_table = tasks

theorem tablesAre_fixed {c : Nat} {tasks : Nat → Option Task} : Fixed (TablesAre c tasks) := by
  intro s t _ htask hcur _ _ h
  rw [TablesAre, hcur, htask]
  exact h

/-- `put_file` of the file of a descriptor returns. -/
theorem putFile_returns (hl : Ledger 0 0 s) (h : Wired s) (hcount : (s.file_table k).count ≠ 0)
    (hinode : (s.file_table k).inode.isSome) : From always s (putFile k) fun _ _ => True := by
  obtain ⟨i, hi⟩ := Option.isSome_iff_exists.mp hinode
  have hpos := Nat.pos_of_ne_zero hcount
  have hk : k < FILE_NR := by
    by_contra hk
    exact hcount (hl.fileEnd k (Nat.le_of_not_lt hk))
  refine From.get (past_assert hpos (From.set (From.get ?_)))
  have hself : (s.setFile k fun file => { file with count := file.count - 1 }).file_table k =
      { s.file_table k with count := (s.file_table k).count - 1 } := Function.update_self ..
  rw [hself]
  refine From.ite (fun hlast => ?_) fun _ => From.pure trivial
  have hlast' : (s.file_table k).count - 1 = 0 := hlast
  -- the reference of the file to its inode is now that of the call
  have hset : Ledger (one i) (0 - one k) (s.setFile k fun file => { file with count := file.count - 1 }) := by
    refine Ledger.setFile hl hk (fun j => ?_) fun j => ?_
    · rw [fileHolds, fileHolds, if_neg hcount]
      show one i j = (0 : Int) + _ - ((if (s.file_table k).count - 1 = 0 then 0 else _ : Nat) : Int)
      rw [if_pos hlast', hi, points_some]
      omega
    · show (0 : Int) - one k j = 0 + if j = k then (((s.file_table k).count - 1 : Nat) : Int) - _ else 0
      rw [one]
      split_ifs
      · omega
      · omega
  show From always _ (iput (s.file_table k).inode) _
  rw [hi]
  exact iput_returns hset ⟨h.1.listed, h.1.placed, h.1.root, h.1.rooted⟩

/-- `sys_close` leaves all descriptors alone but the one it closes. -/
theorem sysClose_tables (ht : s.task_table s.current = some task) :
    From never s (sysClose fd) fun _ t =>
    TablesAre s.current (Function.update s.task_table s.current
      (some { task with files := Function.update task.files fd none })) t := by
  refine from_assert fun _ => From.bind getFd_spec ?_
  rintro file s ⟨rfl, -, task', ht', hfile⟩
  obtain rfl := Option.some.inj (ht.symm.trans ht')
  rw [Int.toNat_natCast] at hfile
  cases file with
  | none =>
      refine From.pure ⟨rfl, ?_⟩
      rw [← hfile, Function.update_eq_self, ← ht, Function.update_eq_self]
  | some k =>
      refine From.get (from_assert fun _ => ?_)
      refine From.bind ((keeps_putFile tablesAre_fixed fun _ _ _ hs => hs).start
        (P := TablesAre s.current s.task_table) ⟨rfl, rfl⟩) ?_
      rintro _ t ⟨hcur, htable⟩
      refine From.store ⟨hcur, ?_⟩
      show Function.update t.task_table t.current ((t.task_table t.current).map _) = _
      rw [hcur, htable, ht, Int.toNat_natCast]
      rfl

theorem getFd_returns (ht : s.task_table s.current = some task) :
    From always s (getFd fd) fun file t => t = s ∧ file = task.files fd := by
  have hfd : ¬ (fd : Int) < 0 := by omega
  rw [getFd, if_neg hfd]
  refine From.bind (Q := fun a t => t = s ∧ a = task) (From.get ?_) ?_
  · rw [ht]
    exact From.pure ⟨rfl, rfl⟩
  · rintro _ _ ⟨rfl, rfl⟩
    exact From.pure ⟨rfl, rfl⟩

theorem sysClose_returns (hl : Ledger 0 0 s) (h : Wired s) (ha : Alive s)
    (ht : s.task_table s.current = some task) (hfd : fd < TASK_FILE_NR) :
    From always s (sysClose fd) fun _ _ => True := by
  have hlt : (fd : Int) < TASK_FILE_NR := by omega
  refine past_assert hlt (From.bind (Q := fun file t => t = s ∧ file = task.files fd) ?_ ?_)
  · exact getFd_returns ht
  · rintro file s ⟨rfl, hfile⟩
    cases file with
    | none => exact From.pure trivial
    | some k =>
        have hinode := h.2 _ task ht fd k hfile.symm List.not_mem_nil
        have hcount := descriptor_count fd hl le_rfl ha ht hfd hfile.symm
        refine From.get (past_assert hinode ?_)
        exact From.bind (putFile_returns hl h hcount hinode) fun _ _ _ => From.store trivial

/-! ## Duplicating -/

/-- A descriptor that is used is copied to one that is not. -/
theorem dupfd_open {oldfd newfd : Nat} (ht : s.task_table s.current = some task)
    (hk : task.files oldfd = some k) (hold : oldfd < TASK_FILE_NR) (hnew : newfd < TASK_FILE_NR)
    (hfree : task.files newfd = none) :
    From always s (dupfd oldfd newfd) fun r t => r = newfd ∧
      TablesAre s.current (Function.update s.task_table s.current
        (some { task with files := Function.update task.files newfd (some k) })) t := by
  have hlt : ¬ (oldfd : Int) ≥ TASK_FILE_NR := by omega
  have harg : ¬ (newfd : Int) ≥ TASK_FILE_NR := by omega
  have hneg : ¬ (newfd : Int) < 0 := by omega
  rw [dupfd, if_neg hlt]
  refine From.bind (getFd_returns ht) ?_
  rintro _ s ⟨rfl, rfl⟩
  rw [hk]
  show From always s (if (newfd : Int) ≥ TASK_FILE_NR then _ else _) _
  rw [if_neg harg, if_neg hneg]
  refine From.bind (Q := fun a t => t = s ∧ a = task) (From.get ?_) ?_
  · rw [ht]
    exact From.pure ⟨rfl, rfl⟩
  rintro task s ⟨rfl, rfl⟩
  -- the scan for a free descriptor ends where it starts
  have hscan : (List.range' (newfd : Int).toNat (TASK_FILE_NR - (newfd : Int).toNat)).find?
      (fun fd => task.files fd = none) = some newfd := by
    rw [Int.toNat_natCast, show TASK_FILE_NR - newfd = TASK_FILE_NR - newfd - 1 + 1 by omega,
      List.range'_succ, List.find?_cons_of_pos (by simpa using hfree)]
  rw [hscan]
  refine From.set (From.set (From.pure ⟨rfl, rfl, ?_⟩))
  show Function.update s.task_table s.current ((s.task_table s.current).map _) = _
  rw [ht]
  rfl

/-- A descriptor that is not used is not copied. -/
theorem dupfd_closed {oldfd : Nat} {newfd : Int} (ht : s.task_table s.current = some task)
    (hk : task.files oldfd = none) (hold : oldfd < TASK_FILE_NR) :
    From always s (dupfd oldfd newfd) fun r t => r = EOF ∧ t = s := by
  have hlt : ¬ (oldfd : Int) ≥ TASK_FILE_NR := by omega
  rw [dupfd, if_neg hlt]
  refine From.bind (getFd_returns ht) ?_
  rintro _ s ⟨rfl, rfl⟩
  rw [hk]
  exact From.pure ⟨rfl, rfl⟩

/-! ## What `dup2` promises -/

/-- `newfd` refers to the file of `oldfd`, and the counts follow the descriptors. -/
def Copied (s t : Kernel) (task : Task) (oldfd newfd : Nat) (r : Int) : Prop :=
  r = newfd ∧
  t.task_table = Function.update s.task_table s.current
    (some { task with files := Function.update task.files newfd (task.files oldfd) }) ∧
  ∀ k, (t.file_table k).count + slots task.files k =
    (s.file_table k).count + slots (Function.update task.files newfd (task.files oldfd)) k

/-- Nothing has changed. -/
def Refused (s t : Kernel) (r : Int) : Prop :=
  r = EOF ∧ t.task_table = s.task_table ∧ ∀ k, (t.file_table k).count = (s.file_table k).count

/-- The call copies the descriptor or changes nothing, and copies one that is
    used. -/
def Exact (s t : Kernel) (task : Task) (oldfd newfd : Nat) (r : Int) : Prop :=
  (Copied s t task oldfd newfd r ∨ Refused s t r) ∧
    (task.files oldfd ≠ none → Copied s t task oldfd newfd r)

/-- Exact counts follow the descriptors of the task that changes them. -/
theorem counts_follow {c : Nat} (new : Task) (hs : Ledger 0 0 s) (ht : Ledger 0 0 t)
    (hc : c < TASK_NR)
    (hold : s.task_table c = some task) (hlive : task.died = false) (hlive' : new.died = false)
    (htable : t.task_table = Function.update s.task_table c (some new)) :
    (t.file_table k).count + slots task.files k = (s.file_table k).count + slots new.files k := by
  have hcount : ((s.file_table k).count : Int) = fileRefs s k + 0 := hs.files k
  have hcount' : ((t.file_table k).count : Int) = fileRefs t k + 0 := ht.files k
  have hsum := sum_change (f := fun j => taskSlots (s.task_table j) k)
    (g := fun j => taskSlots (t.task_table j) k) (Finset.mem_range.mpr hc)
    fun j _ hj => by rw [htable, Function.update_of_ne hj]
  rw [htable, Function.update_self, hold, taskSlots_live task hlive,
    taskSlots_live new hlive'] at hsum
  rw [fileRefs] at hcount hcount'
  rw [htable] at hcount'
  omega

/-- The tables the calls of tasks lead to, from any with exact counts. -/
def system : System Kernel Event := execSystem (fun s => Ledger 0 0 s ∧ Wired s) Enabled exec

theorem reach_wired (h : Reach system free s) : Ledger 0 0 s ∧ Wired s := by
  refine h.invariant (fun s₀ hs => hs) fun s₀ e s₁ hs _ hstep => ?_
  exact ⟨exec_holds hs.1 hstep.1 hstep.2, exec_wired hs.2 hstep.2⟩

/-- The call of a live task. -/
def enter (s : Kernel) (c : Nat) : Kernel := { s with current := c }

theorem enter_ready {c : Nat} (h : Ledger 0 0 s ∧ Wired s) (ht : s.task_table c = some task)
    (hlive : task.died = false) :
    Ledger 0 0 (enter s c) ∧ Wired (enter s c) ∧ Alive (enter s c) ∧ c < TASK_NR := by
  have hc := slot_lt (L := []) h.1 ht
  obtain ⟨hl, hw⟩ := h
  refine ⟨⟨hl.inodes, hl.files, hl.free, hl.listed, hl.nodup, hl.mounts, hl.fileEnd,
    hl.taskEnd, hl.top⟩,
    ⟨⟨hw.1.listed, hw.1.placed, hw.1.root, hw.1.rooted⟩, hw.2⟩, ⟨hc, task, ht, hlive⟩, hc⟩

/-- What is left when `newfd` is closed: the copy, or the refusal. -/
theorem sysDup2_spec {oldfd newfd : Nat} (hl : Ledger 0 0 s) (hw : Wired s) (ha : Alive s)
    (ht : s.task_table s.current = some task) (hlive : task.died = false)
    (hold : oldfd < TASK_FILE_NR)
    (hnew : newfd < TASK_FILE_NR) :
    From always s (sysDup2 oldfd newfd) fun r t =>
      (task.files oldfd ≠ none ∧ oldfd ≠ newfd → Copied s t task oldfd newfd r) ∧
      (¬ (task.files oldfd ≠ none ∧ oldfd ≠ newfd) → r = EOF ∧ t.task_table =
        Function.update s.task_table s.current
          (some { task with files := Function.update task.files newfd none }) ∧
        ∀ k, (t.file_table k).count + slots task.files k =
          (s.file_table k).count + slots (Function.update task.files newfd none) k) := by
  have hclose := (sysClose_returns hl hw ha ht hnew).also (sysClose_tables ht)
  have hledger : From never s (sysClose newfd) fun _ u => Holds [] u ∧ Alive u :=
    sysClose_holds.start ⟨hl, ha⟩
  have hcur : s.current < TASK_NR := ha.1
  refine From.bind (hclose.also hledger) ?_
  rintro _ u ⟨⟨-, hcu, htu⟩, hlu, hau⟩
  have htask : u.task_table u.current =
      some { task with files := Function.update task.files newfd none } := by
    rw [hcu, htu, Function.update_self]
  have hdup : From never u (dupfd oldfd newfd) fun _ t => Holds [] t := dupfd_holds.start ⟨hlu, hau⟩
  by_cases hcopy : task.files oldfd ≠ none ∧ oldfd ≠ newfd
  · obtain ⟨k, hk⟩ := Option.ne_none_iff_exists'.mp hcopy.1
    have hk' : Function.update task.files newfd none oldfd = some k := by
      rw [Function.update_of_ne hcopy.2]
      exact hk
    refine ((dupfd_open htask hk' hold hnew (Function.update_self ..)).also hdup).post ?_
    rintro r t ⟨⟨hr, -, htt⟩, hlt⟩
    have htable : t.task_table = Function.update s.task_table s.current
        (some { task with files := Function.update task.files newfd (task.files oldfd) }) := by
      rw [htt, hcu, htu, hk]
      simp only [Function.update_idem]
    refine ⟨fun _ => ⟨hr, htable, fun k => ?_⟩, fun hno => absurd hcopy hno⟩
    exact counts_follow { task with files := _ } hl hlt hcur ht hlive hlive htable
  · have hk' : Function.update task.files newfd none oldfd = none := by
      by_cases heq : oldfd = newfd
      · rw [heq, Function.update_self]
      · rw [Function.update_of_ne heq]
        exact not_not.mp fun hne => hcopy ⟨hne, heq⟩
    refine (dupfd_closed htask hk' hold).post ?_
    rintro r t ⟨hr, rfl⟩
    refine ⟨fun hyes => absurd hyes hcopy, fun _ => ⟨hr, htu, fun k => ?_⟩⟩
    exact counts_follow { task with files := _ } hl hlu hcur ht hlive hlive htu

/-- **THE PROMISE OF `dup2`** is kept in a state that calls lead to exactly if the
    new descriptor is not used, or the old one is and is another. -/
theorem dup2_exact {c oldfd newfd fuel : Nat} (h : Reach system free s)
    (ht : s.task_table c = some task) (hlive : task.died = false) (hold : oldfd < TASK_FILE_NR)
    (hnew : newfd < TASK_FILE_NR) :
    (∃ r t, sysDup2 oldfd newfd fuel (enter s c) = .ok (r, t) ∧
      Exact (enter s c) t task oldfd newfd r) ↔
      task.files newfd = none ∨ (task.files oldfd ≠ none ∧ oldfd ≠ newfd) := by
  obtain ⟨hl, hw, ha, hc⟩ := enter_ready (reach_wired h) ht hlive
  obtain ⟨r, t, hrun, hcopied, hclosed⟩ :=
    (sysDup2_spec hl hw ha (s := enter s c) ht hlive hold hnew).returns fuel
  have heof : (newfd : Int) ≠ EOF := by
    have : EOF = -1 := rfl
    omega
  constructor
  · rintro ⟨r', t', hrun', hexact⟩
    rw [hrun] at hrun'
    obtain ⟨rfl, rfl⟩ := Prod.mk.inj (Except.ok.inj hrun')
    by_cases hcopy : task.files oldfd ≠ none ∧ oldfd ≠ newfd
    · exact Or.inr hcopy
    · obtain ⟨hr, htable, -⟩ := hclosed hcopy
      rcases hexact.1 with ⟨hr', -⟩ | ⟨-, hsame, -⟩
      · exact absurd (hr'.symm.trans hr) heof
      · -- the table is the same, so the descriptor was not used
        rw [htable] at hsame
        have hslot := congrFun hsame c
        rw [show (enter s c).current = c from rfl, Function.update_self] at hslot
        change _ = s.task_table c at hslot
        rw [ht] at hslot
        have hfiles := congrFun (congrArg Task.files (Option.some.inj hslot)) newfd
        dsimp only at hfiles
        rw [Function.update_self] at hfiles
        exact Or.inl hfiles.symm
  · intro hcond
    refine ⟨r, t, hrun, ?_⟩
    by_cases hcopy : task.files oldfd ≠ none ∧ oldfd ≠ newfd
    · exact ⟨Or.inl (hcopied hcopy), fun _ => hcopied hcopy⟩
    · have hnone : task.files newfd = none := hcond.resolve_right hcopy
      obtain ⟨hr, htable, hcounts⟩ := hclosed hcopy
      rw [← hnone, Function.update_eq_self] at htable hcounts
      refine ⟨Or.inr ⟨hr, ?_, fun k => ?_⟩, fun hopen => ?_⟩
      · rw [htable]
        show Function.update s.task_table c (some task) = s.task_table
        rw [← ht, Function.update_eq_self]
      · exact Nat.add_right_cancel (hcounts k)
      · refine absurd ⟨hopen, ?_⟩ hcopy
        rintro rfl
        exact hopen hnone

theorem bootState_wired : Wired bootState := by
  have hroot : Listed bootState 0 := ⟨0, by decide, List.mem_singleton_self 0⟩
  have hzero : ∀ {i}, (bootState.inode_table i).dev ≠ EOF → i = 0 := by
    intro i hdev
    by_contra hi
    change (if i = 0 then (1 : Int) else EOF) ≠ EOF at hdev
    rw [if_neg hi] at hdev
    exact hdev rfl
  refine ⟨⟨fun i hdev _ => ?_, fun i hdev => ?_, hroot, ⟨by decide, rfl, fun k => ?_⟩⟩,
    fun c task hc fd k hfd => ?_⟩
  · rw [hzero hdev]
    exact hroot
  · rw [hzero hdev]
    intro k hk
    rw [show getSuper bootState (bootState.inode_table 0).dev = some 0 by decide] at hk
    rw [← Option.some.inj hk]
    exact ⟨1, rfl⟩
  · show (if k = 0 then (1 : Int) else EOF) ≠ -2
    split_ifs
    · decide
    · decide
  · change (if c = 0 then some bootTask else none) = some task at hc
    split_ifs at hc
    rw [← Option.some.inj hc] at hfd
    cases hfd

/-- A task opens `/`, which gives it descriptor 3. -/
def openRun : List Event := [.call 0 1 0 (.open [0x2F] 0 0)]

theorem openRun_opened : ∃ s task, follow free Enabled exec bootState openRun = some s ∧
    Reach system free s ∧ s.task_table 0 = some task ∧ task.died = false ∧ task.files 3 ≠ none := by
  have hrun : ((follow free Enabled exec bootState openRun).bind fun s => s.task_table 0).any
      (fun task => !task.died && (task.files 3).isSome) = true := by decide +kernel
  obtain ⟨task, htask, hopen⟩ := (Option.any_eq_true ..).mp hrun
  obtain ⟨s, hs, ht⟩ := Option.bind_eq_some_iff.mp htask
  rw [Bool.and_eq_true, Bool.not_eq_true', Option.isSome_iff_ne_none] at hopen
  have hstart : Reach system free bootState := Reach.start ⟨bootState_ledger, bootState_wired⟩
  exact ⟨s, task, hs, hstart.follow openRun hs, ht, hopen.1, hopen.2⟩

theorem dup2_exact_four : ∃ s task, follow free Enabled exec bootState openRun = some s ∧
    ((∃ r t, sysDup2 3 4 1 (enter s 0) = .ok (r, t) ∧ Exact (enter s 0) t task 3 4 r) ↔
      task.files 4 = none ∨ (task.files 3 ≠ none ∧ 3 ≠ 4)) := by
  obtain ⟨s, task, hs, hreach, ht, hlive, -⟩ := openRun_opened
  exact ⟨s, task, hs, dup2_exact hreach ht hlive (by decide) (by decide)⟩

/-- `dup2(3, 3)` closes the descriptor before it looks for it. -/
theorem dup2_same_lost : ∃ s task, follow free Enabled exec bootState openRun = some s ∧
    Reach system free s ∧ s.task_table 0 = some task ∧ task.died = false ∧ task.files 3 ≠ none ∧
    ¬ ∃ r t, sysDup2 3 3 1 (enter s 0) = .ok (r, t) ∧ Exact (enter s 0) t task 3 3 r := by
  obtain ⟨s, task, hs, hreach, ht, hlive, hopen⟩ := openRun_opened
  refine ⟨s, task, hs, hreach, ht, hlive, hopen, ?_⟩
  rintro ⟨r, t, hrun, hexact⟩
  have heof : ((follow free Enabled exec bootState openRun).bind fun s =>
      (sysDup2 3 3 1 (enter s 0)).toOption.map Prod.fst) = some EOF := by decide +kernel
  rw [hs] at heof
  change (sysDup2 3 3 1 (enter s 0)).toOption.map Prod.fst = some EOF at heof
  rw [hrun] at heof
  have hr : r = EOF := Option.some.inj heof
  exact absurd ((hexact.2 hopen).1.symm.trans hr) (by decide)

end NeonixDuplicates
