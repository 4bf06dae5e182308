import Neonix.PathRefs

/-! # Reference counts over whole runs

    The calls on descriptors and tasks keep the counts exact, so in every state a
    run of completed calls reaches the count of an open file is the number of
    descriptors that point to it, and the count of an in-memory inode the number
    of pointers to it. -/

namespace NeonixDescriptorRefs

open NeonixMachine NeonixCalls NeonixFileSystem NeonixNamei NeonixFiles NeonixFrames NeonixTally
  NeonixRuns NeonixInodeRefs NeonixPathRefs

variable {H G H' G' : Nat → Int} {L : List Nat} {s : Kernel} {i k : Nat}

theorem Ledger.congr (h : Ledger H G s) (hH : ∀ i, H' i = H i) (hG : ∀ k, G' k = G k) :
    Ledger H' G' s := by
  rw [show H' = H from funext hH, show G' = G from funext hG]
  exact h

/-- One open file is stored to. -/
theorem Ledger.setFile {f : File → File} (h : Ledger H G s) (hk : k < FILE_NR)
    (hH : ∀ i, H' i = H i + fileHolds (s.file_table k) i - fileHolds (f (s.file_table k)) i)
    (hG : ∀ j, G' j = G j +
      if j = k then ((f (s.file_table k)).count : Int) - (s.file_table k).count else 0) :
    Ledger H' G' (s.setFile k f) := by
  have hself : (s.setFile k f).file_table k = f (s.file_table k) := Function.update_self ..
  have hother : ∀ {j}, j ≠ k → (s.setFile k f).file_table j = s.file_table j :=
    fun hj => Function.update_of_ne hj ..
  refine ⟨?_, ?_, h.free, h.listed, h.nodup, h.mounts, ?_, h.taskEnd, h.top⟩
  · intro i
    have hsum := sum_change (f := fun j => fileHolds (s.file_table j) i)
      (g := fun j => fileHolds ((s.setFile k f).file_table j) i) (Finset.mem_range.mpr hk)
      fun j _ hj => by rw [hother hj]
    rw [hself] at hsum
    have hi := h.inodes i
    rw [hH i]
    show ((s.inode_table i).count : Int) = inodeRefs (s.setFile k f) i + _
    rw [inodeRefs] at hi ⊢
    change _ = ((_ + ∑ t ∈ Finset.range TASK_NR, taskHolds (s.task_table t) i +
      ∑ k ∈ Finset.range SUPER_NR, superHolds (s.super_table k) i : Nat) : Int) + _
    omega
  · intro j
    have hj := h.files j
    rw [hG j]
    change _ = (fileRefs s j : Int) + _
    by_cases hjk : j = k
    · subst hjk
      rw [hself, if_pos rfl]
      omega
    · rw [hother hjk, if_neg hjk]
      omega
  · intro j hj
    have hjk : j ≠ k := by omega
    rw [hother hjk]
    exact h.fileEnd j hj

/-- One slot of the task table is stored to. -/
theorem Ledger.putTask {c : Nat} {new : Option Task} (h : Ledger H G s) (hc : c < TASK_NR)
    (hH : ∀ i, H' i = H i + taskHolds (s.task_table c) i - taskHolds new i)
    (hG : ∀ j, G' j = G j + taskSlots (s.task_table c) j - taskSlots new j) :
    Ledger H' G' (s.putTask c new) := by
  have hself : (s.putTask c new).task_table c = new := Function.update_self ..
  have hother : ∀ {j}, j ≠ c → (s.putTask c new).task_table j = s.task_table j :=
    fun hj => Function.update_of_ne hj ..
  refine ⟨?_, ?_, h.free, h.listed, h.nodup, h.mounts, h.fileEnd, ?_, h.top⟩
  · intro i
    have hsum := sum_change (f := fun j => taskHolds (s.task_table j) i)
      (g := fun j => taskHolds ((s.putTask c new).task_table j) i)
      (Finset.mem_range.mpr hc) fun j _ hj => by rw [hother hj]
    rw [hself] at hsum
    have hi := h.inodes i
    rw [hH i]
    show ((s.inode_table i).count : Int) = inodeRefs (s.putTask c new) i + _
    rw [inodeRefs] at hi ⊢
    change _ = ((∑ k ∈ Finset.range FILE_NR, fileHolds (s.file_table k) i + _ +
      ∑ k ∈ Finset.range SUPER_NR, superHolds (s.super_table k) i : Nat) : Int) + _
    omega
  · intro j
    have hsum := sum_change (f := fun t => taskSlots (s.task_table t) j)
      (g := fun t => taskSlots ((s.putTask c new).task_table t) j)
      (Finset.mem_range.mpr hc) fun t _ ht => by rw [hother ht]
    rw [hself] at hsum
    have hj := h.files j
    rw [hG j]
    show ((s.file_table j).count : Int) = fileRefs (s.putTask c new) j + _
    rw [fileRefs] at hj ⊢
    omega
  · intro t ht
    have htc : t ≠ c := by omega
    rw [hother htc]
    exact h.taskEnd t ht

/-- A descriptor is stored to. -/
theorem slots_update (files : Nat → Option Nat) {fd : Nat} (hfd : fd < TASK_FILE_NR)
    (file : Option Nat) (j : Nat) :
    slots (Function.update files fd file) j + points (files fd) j =
      slots files j + points file j := by
  have hsum := sum_change (f := fun fd => points (files fd) j)
    (g := fun x => points (Function.update files fd file x) j) (Finset.mem_range.mpr hfd)
    fun x _ hx => by rw [Function.update_of_ne hx]
  rw [Function.update_self] at hsum
  exact hsum

/-! ## Descriptors -/

/-- `task->files[fd] = file` of a live task. -/
theorem setFd_ledger {fd : Nat} {file : Option Nat} {task : Task} (hfd : fd < TASK_FILE_NR)
    (h : Ledger H G s) (ha : Alive s) (ht : s.task_table s.current = some task) :
    From never s (setFd fd file) fun _ t =>
      Ledger H (fun k => G k + points (task.files fd) k - points file k) t ∧ Alive t ∧
        t.file_table = s.file_table := by
  obtain ⟨hcur, task', ht', hlive⟩ := ha
  rw [ht] at ht'
  obtain rfl := Option.some.inj ht'
  refine From.store ⟨?_, ⟨hcur, ?_⟩, rfl⟩
  · refine Ledger.putTask h hcur ?_ ?_
    · intro i
      rw [ht]
      show H i = H i + (taskHolds (some task) i : Int) - taskHolds (some task) i
      omega
    · intro j
      rw [ht]
      show _ = G j + (taskSlots (some task) j : Int) - taskSlots (some _) j
      rw [taskSlots, taskSlots]
      dsimp only
      rw [hlive]
      have hsum := slots_update task.files hfd file j
      simp only [Bool.false_eq_true, if_false]
      omega
  · refine ⟨{ task with files := Function.update task.files fd file }, ?_, hlive⟩
    show Function.update s.task_table s.current _ s.current = _
    rw [Function.update_self, ht]

theorem taskGetFd_spec :
    From never s taskGetFd fun fd t => t = s ∧ fd < TASK_FILE_NR ∧
      ∃ task, s.task_table s.current = some task ∧ task.files fd = none := by
  refine From.bind runningTask_spec ?_
  rintro task s ⟨rfl, ht⟩
  cases hfd : (List.range' 3 (TASK_FILE_NR - 3)).find? fun fd => task.files fd = none with
  | none => exact From.stop not_false
  | some fd =>
      have hnone := List.find?_some hfd
      obtain ⟨-, hlt⟩ := List.mem_range'_1.mp (List.mem_of_find?_eq_some hfd)
      exact From.pure ⟨rfl, hlt, task, ht, of_decide_eq_true hnone⟩

theorem getFile_spec :
    From never s getFile fun k t =>
      t = s.setFile k (fun file => { file with count := file.count + 1 }) ∧ k < FILE_NR ∧
        (s.file_table k).count = 0 := by
  refine From.get ?_
  cases hk : (List.range' 3 (FILE_NR - 3)).find? fun k => (s.file_table k).count = 0 with
  | none => exact From.stop not_false
  | some k =>
      have hcount := List.find?_some hk
      obtain ⟨-, hlt⟩ := List.mem_range'_1.mp (List.mem_of_find?_eq_some hk)
      exact From.set (From.pure ⟨rfl, hlt, of_decide_eq_true hcount⟩)

/-- A new open file, of the stale inode of its slot. -/
theorem Ledger.newFile (h : Ledger H G s) (hk : k < FILE_NR) (hcount : (s.file_table k).count = 0) :
    Ledger (fun i => H i - points (s.file_table k).inode i) (fun j => G j + one k j)
      (s.setFile k fun file => { file with count := file.count + 1 }) := by
  refine Ledger.setFile h hk ?_ ?_
  · intro i
    rw [fileHolds, fileHolds, if_pos hcount, if_neg (Nat.succ_ne_zero _)]
    push_cast
    omega
  · intro j
    dsimp only
    rw [one]
    split_ifs
    · push_cast
      omega
    · rfl

/-- The inode of a file with a count is set. -/
theorem Ledger.setFileInode {f : File → File} (h : Ledger H G s) (hk : k < FILE_NR)
    (hcount : (s.file_table k).count ≠ 0)
    (hf : (f (s.file_table k)).count = (s.file_table k).count) :
    Ledger (fun i => H i + points (s.file_table k).inode i - points (f (s.file_table k)).inode i)
      G (s.setFile k f) := by
  refine Ledger.setFile h hk ?_ ?_
  · intro i
    rw [fileHolds, fileHolds, hf, if_neg hcount, if_neg hcount]
  · intro j
    rw [hf]
    split_ifs
    · omega
    · omega

theorem sysOpen_holds {filename : Str} {flags mode : BitVec 32} :
    Triple never (fun s => Holds [] s ∧ Alive s) (sysOpen filename flags mode)
      fun _ => Holds [] := by
  refine Triple.bind ((inodeOpen_holds.and (keeps_inodeOpen alive_fixed.stable)).pre
    fun s hs => ⟨hs, hs.2⟩) fun r => ?_
  cases r with
  | none => exact Triple.intro fun s hs => From.pure hs.1
  | some inode =>
      refine Triple.intro fun s ⟨h, ha⟩ => From.bind taskGetFd_spec ?_
      rintro fd s ⟨rfl, hfd, task, ht, hnone⟩
      refine From.bind getFile_spec ?_
      rintro k t ⟨rfl, hk, hcount⟩
      have hnew := Ledger.newFile h hk hcount
      have hfile : (s.setFile k fun file => { file with count := file.count + 1 }).file_table k =
          { s.file_table k with count := 1 } := by
        simp only [Kernel.setFile, Function.update_self, hcount]
      refine From.bind runningTask_spec ?_
      rintro task' t ⟨rfl, -⟩
      refine from_assert fun _ => From.bind (setFd_ledger hfd hnew ha ht) ?_
      rintro _ u ⟨hu, hau, htable⟩
      rw [← htable] at hfile
      have hinode : (u.file_table k).inode = (s.file_table k).inode := by rw [hfile]
      have hone : (u.file_table k).count = 1 := by rw [hfile]
      have hopen : Holds [] (u.setFile k fun _ =>
          { inode := some inode, count := 1, offset := 0, flags := flags, mode := u.mode inode }) := by
        have hset := Ledger.setFileInode hu hk (f := fun _ =>
          { inode := some inode, count := 1, offset := 0, flags := flags, mode := u.mode inode })
          (by rw [hone]; exact Nat.one_ne_zero) hone.symm
        refine Ledger.congr hset ?_ ?_
        · intro i
          rw [hinode, held_one]
          show (0 : Int) = one inode i - _ + _ - (points (some inode) i : Int)
          rw [points_some]
          omega
        · intro j
          rw [hnone, points_none, points_some]
          show (0 : Int) = 0 + one k j + (0 : Nat) - one k j
          omega
      refine From.set (From.onlyIf (fun _ => From.set (From.pure ?_)) fun _ => From.pure hopen)
      refine Ledger.congr (Ledger.setFileInode hopen hk ?_ rfl) ?_ fun _ => rfl
      · simp only [Kernel.setFile, Function.update_self]
        exact Nat.one_ne_zero
      · intro i
        dsimp only
        omega

theorem sysCreat_holds {filename : Str} {mode : BitVec 32} :
    Triple never (fun s => Holds [] s ∧ Alive s) (sysCreat filename mode) fun _ => Holds [] :=
  sysOpen_holds

/-! ## Pipes -/

/-- The inode of a new pipe has the references of two open files to come. -/
theorem getPipeInode_holds :
    Triple never (Holds L) getPipeInode fun i => Holds (i :: i :: L) := by
  refine Triple.intro fun s h => From.bind getFreeInode_spec ?_
  rintro i s ⟨rfl, -, hfree⟩
  obtain ⟨hcount, -⟩ := Ledger.free h i hfree
  have hnot : ¬ Listed s i := fun hl => (Ledger.listedInUse h hl).1 hfree
  have hrefs : inodeRefs s i = 0 := by
    have hi := Ledger.inodes h i
    have hpos := held_nonneg L i
    omega
  refine From.set (From.pure ?_)
  refine Ledger.setInode h ?_ (fun hdev => ?_) (fun hl => absurd hl hnot) (Ledger.mounts h i)
    fun _ _ => Or.inr hrefs
  · intro j
    rw [held_cons, held_cons]
    show held L j + one i j + one i j = held L j + if j = i then ((2 : Nat) : Int) - _ else 0
    rw [hcount, one]
    split_ifs
    · omega
    · omega
  · exact absurd (show (-2 : Int) = -1 from hdev) (by decide)

theorem keeps_getPipeInode {P : Kernel → Prop} (hP : Fixed P) : Keeps P getPipeInode :=
  .bind keeps_getFreeInode fun _ => .bind (keeps_setInode hP) fun _ => .pure

/-- A new open file in a new descriptor. -/
theorem from_newFile {β : Type} {f : Nat → Nat → Fs β} {R : β → Kernel → Prop}
    (h : Ledger H G s) (ha : Alive s)
    (hf : ∀ fd k t, Ledger (fun i => H i - points (s.file_table k).inode i) G t → Alive t →
      k < FILE_NR → (s.file_table k).count = 0 →
      t.file_table = Function.update s.file_table k { s.file_table k with count := 1 } →
      From never t (f fd k) R) :
    From never s (do
      let fd ← taskGetFd
      let k ← getFile
      setFd fd (some k)
      f fd k) R := by
  refine From.bind taskGetFd_spec ?_
  rintro fd s ⟨rfl, hfd, task, ht, hnone⟩
  refine From.bind getFile_spec ?_
  rintro k t ⟨rfl, hk, hcount⟩
  refine From.bind (setFd_ledger hfd (Ledger.newFile h hk hcount) ha ht) ?_
  rintro _ u ⟨hu, hau, htable⟩
  refine hf fd k u (Ledger.congr hu (fun _ => rfl) fun j => ?_) hau hk hcount ?_
  · rw [hnone, points_none, points_some]
    show G j = G j + one k j + (0 : Nat) - one k j
    omega
  · rw [htable]
    simp only [Kernel.setFile, hcount]

theorem sysPipe_holds :
    Triple never (fun s => Holds [] s ∧ Alive s) sysPipe fun _ => Holds [] := by
  refine Triple.intro fun s ⟨h, ha⟩ => ?_
  refine From.bind ((getPipeInode_holds.and (keeps_getPipeInode alive_fixed)).start ⟨h, ha⟩) ?_
  rintro i s ⟨h, ha⟩
  refine from_newFile h ha fun fd0 k t ht hat hk hcount htable => ?_
  refine from_newFile ht hat fun fd1 k' u hu _ hk' hcount' htable' => ?_
  have hne : k ≠ k' := by
    rintro rfl
    rw [htable, Function.update_self] at hcount'
    exact absurd hcount' Nat.one_ne_zero
  have hfile : u.file_table k = { s.file_table k with count := 1 } := by
    rw [htable', Function.update_of_ne hne, htable, Function.update_self]
  have hfile' : u.file_table k' = { s.file_table k' with count := 1 } := by
    rw [htable', Function.update_self, htable, Function.update_of_ne hne.symm]
  have hread := Ledger.setFileInode hu hk (f := fun file =>
    { file with inode := some i, flags := O_RDONLY }) (by rw [hfile]; exact Nat.one_ne_zero) rfl
  have hkept : (u.setFile k fun file =>
      { file with inode := some i, flags := O_RDONLY }).file_table k' = u.file_table k' :=
    Function.update_of_ne hne.symm ..
  have hwrite := Ledger.setFileInode hread hk' (f := fun file =>
    { file with inode := some i, flags := O_WRONLY })
    (by rw [hkept, hfile']; exact Nat.one_ne_zero) rfl
  refine From.set (From.set (From.pure (Ledger.congr hwrite ?_ fun _ => rfl)))
  intro j
  have hstale : t.file_table k' = s.file_table k' := by
    rw [htable, Function.update_of_ne hne.symm]
  have hinode : (u.file_table k).inode = (s.file_table k).inode := by rw [hfile]
  have hinode' : (u.file_table k').inode = (s.file_table k').inode := by rw [hfile']
  dsimp only
  rw [hkept, hinode, hinode', hstale, points_some, held_cons, held_one]
  show (0 : Int) = one i j + one i j - _ - _ + _ - one i j + _ - one i j
  omega

/-! ## Closing and duplicating -/

/-- The last `put_file` of an open file drops its reference to the inode. -/
theorem putFile_ledger :
    Triple never (Ledger 0 G) (putFile k) fun _ => Ledger 0 (G - one k) := by
  refine Triple.intro fun s h => From.get (from_assert fun hpos => ?_)
  have hk : k < FILE_NR := by
    by_contra hk
    rw [h.fileEnd k (Nat.le_of_not_lt hk)] at hpos
    exact Nat.lt_irrefl 0 hpos
  have hset : Ledger
      (fun i => if (s.file_table k).count - 1 = 0 then points (s.file_table k).inode i else 0)
      (G - one k) (s.setFile k fun file => { file with count := file.count - 1 }) := by
    refine Ledger.setFile h hk ?_ ?_
    · intro i
      rw [fileHolds, fileHolds, if_neg (Nat.pos_iff_ne_zero.mp hpos)]
      show _ = (0 : Int) + _ - _
      dsimp only
      split_ifs
      · omega
      · omega
    · intro j
      show G j - one k j = G j + if j = k then (((s.file_table k).count - 1 : Nat) : Int) - _ else 0
      rw [one]
      split_ifs
      · omega
      · omega
  have hself : (s.setFile k fun file => { file with count := file.count - 1 }).file_table k =
      { s.file_table k with count := (s.file_table k).count - 1 } := Function.update_self ..
  refine From.set (From.get ?_)
  rw [hself]
  refine From.ite (fun hlast => ?_) fun hmore => ?_
  · have hlast' : (s.file_table k).count - 1 = 0 := hlast
    cases hi : (s.file_table k).inode with
    | none =>
        refine From.pure (Ledger.congr hset ?_ fun _ => rfl)
        intro i
        rw [if_pos hlast', hi, points_none]
        rfl
    | some i =>
        have hone : Ledger (one i) (G - one k)
            (s.setFile k fun file => { file with count := file.count - 1 }) := by
          refine Ledger.congr hset ?_ fun _ => rfl
          intro j
          rw [if_pos hlast', hi, points_some]
        refine (iput_ledger.start ⟨hone, hone.count_pos ?_⟩).post fun _ t ht => ?_
        · rw [one, if_pos rfl]
          omega
        · rw [sub_self] at ht
          exact ht
  · have hmore' : (s.file_table k).count - 1 ≠ 0 := hmore
    refine From.pure (Ledger.congr hset ?_ fun _ => rfl)
    intro i
    rw [if_neg hmore']
    rfl

/-- The descriptors of a dead task, which still have their references. -/
def unowned (task : Task) (k : Nat) : Int := if task.died then slots task.files k else 0

/-- The running task; its descriptors have their references, also when it is
    dead. -/
def Running (task : Task) (s : Kernel) : Prop :=
  s.current < TASK_NR ∧ s.task_table s.current = some task ∧ Ledger 0 (unowned task) s

theorem taskSlots_unowned (task : Task) (k : Nat) :
    (taskSlots (some task) k : Int) + unowned task k = slots task.files k := by
  rw [taskSlots, unowned]
  split_ifs
  · omega
  · omega

/-- A store to a descriptor of the running task. -/
theorem setFd_running {task : Task} {fd : Nat} {file : Option Nat} (hfd : fd < TASK_FILE_NR)
    (hcur : s.current < TASK_NR) (ht : s.task_table s.current = some task)
    (h : Ledger 0 (fun k => unowned task k + points file k - points (task.files fd) k) s) :
    From never s (setFd fd file)
      fun _ => Running { task with files := Function.update task.files fd file } := by
  refine From.store ⟨hcur, ?_, ?_⟩
  · show Function.update s.task_table s.current _ s.current = _
    rw [Function.update_self, ht]
  · refine Ledger.putTask h hcur ?_ ?_
    · intro i
      rw [ht]
      show (0 : Int) = 0 + (taskHolds (some task) i : Int) - taskHolds (some task) i
      omega
    · intro j
      have hold := taskSlots_unowned task j
      have hnew := taskSlots_unowned { task with files := Function.update task.files fd file } j
      have hslots := slots_update task.files hfd file j
      rw [ht]
      dsimp only [Option.map] at hnew ⊢
      omega

/-- The running task stays while it gives up references. -/
theorem running_fixed {c : Nat} {task : Task} :
    Fixed fun s => s.current = c ∧ s.task_table c = some task := by
  intro s t _ htask hcur _ _ h
  rw [hcur, htask]
  exact h

theorem keeps_putFile {P : Kernel → Prop} (hP : Fixed P)
    (hfile : ∀ s k f, P s → P (s.setFile k f)) :
    Keeps P (putFile k) := by
  refine .bind .get fun _ => .bind .assert fun _ => .bind ?_ fun _ => ?_
  · exact Triple.modify fun s hs => hfile s _ _ hs
  exact .bind .get fun _ => .onlyIf (keeps_iput hP)

theorem getFd_spec {fd : Int} :
    From never s (getFd fd) fun file t => t = s ∧ 0 ≤ fd ∧
      ∃ task, s.task_table s.current = some task ∧ task.files fd.toNat = file := by
  refine From.ite (fun _ => From.stop not_false) fun hfd => ?_
  refine From.bind runningTask_spec ?_
  rintro task s ⟨rfl, ht⟩
  exact From.pure ⟨rfl, not_lt.mp hfd, task, ht, rfl⟩

/-- After `sys_close` the descriptor is not used. -/
theorem sysClose_running {fd : Int} {task : Task} :
    Triple never (Running task) (sysClose fd) fun _ =>
      Running { task with files := Function.update task.files fd.toNat none } := by
  refine Triple.intro fun s ⟨hcur, ht, h⟩ => from_assert fun hlt => From.bind getFd_spec ?_
  rintro file s ⟨rfl, hfd, task', ht', hfile⟩
  obtain rfl := Option.some.inj (ht.symm.trans ht')
  have hlen : fd.toNat < TASK_FILE_NR := by omega
  cases file with
  | none =>
      refine From.pure ?_
      rw [← hfile, Function.update_eq_self]
      exact ⟨hcur, ht, h⟩
  | some k =>
      refine From.get (from_assert fun _ => ?_)
      refine From.bind ((putFile_ledger.and (keeps_putFile running_fixed fun _ _ _ hs => hs)).start
        ⟨h, rfl, ht⟩) ?_
      rintro _ t ⟨hput, hcur', ht'⟩
      rw [← hcur'] at hcur ht'
      refine setFd_running hlen hcur ht' (Ledger.congr hput (fun _ => rfl) fun j => ?_)
      rw [hfile, points_none, points_some]
      show _ = unowned task j - one k j
      omega

/-- A live task owns the references of its descriptors. -/
theorem Running.start (h : Holds [] s) (ha : Alive s) :
    ∃ task, task.died = false ∧ Running task s := by
  obtain ⟨hcur, task, ht, hlive⟩ := ha
  refine ⟨task, hlive, hcur, ht, Ledger.congr h (fun _ => rfl) fun k => ?_⟩
  rw [unowned, hlive]
  rfl

theorem Running.holds {task : Task} (h : Running task s) (hlive : task.died = false) :
    Holds [] s := by
  refine Ledger.congr h.2.2 (fun _ => rfl) fun k => ?_
  rw [unowned, hlive]
  rfl

theorem sysClose_holds {fd : Int} :
    Triple never (fun s => Holds [] s ∧ Alive s) (sysClose fd) fun _ s => Holds [] s ∧ Alive s := by
  refine Triple.intro fun s ⟨h, ha⟩ => ?_
  obtain ⟨task, hlive, hrun⟩ := Running.start h ha
  refine (sysClose_running.start hrun).post fun _ t ht => ?_
  exact ⟨ht.holds hlive, ht.1, _, ht.2.1, hlive⟩

/-- An open file that a descriptor of the running task points to. -/
theorem descriptor_count {task : Task} (fd : Nat) (h : Ledger H G s) (hG : 0 ≤ G k) (ha : Alive s)
    (ht : s.task_table s.current = some task) (hfd : fd < TASK_FILE_NR)
    (hk : task.files fd = some k) : (s.file_table k).count ≠ 0 := by
  obtain ⟨hcur, task', ht', hlive⟩ := ha
  obtain rfl := Option.some.inj (ht.symm.trans ht')
  have hslot := NeonixTally.term_le (f := fun fd => points (task.files fd) k)
    (Finset.mem_range.mpr hfd)
  have htask := NeonixTally.term_le (f := fun t => taskSlots (s.task_table t) k)
    (Finset.mem_range.mpr hcur)
  have hcount := h.files k
  rw [ht, taskSlots, hlive] at htask
  rw [hk, points, if_pos rfl] at hslot
  simp only [Bool.false_eq_true, if_false] at htask
  have hrefs : 1 ≤ fileRefs s k := hslot.trans htask
  omega

/-- `count++` of an open file. -/
theorem Ledger.share (h : Ledger H G s) (hcount : (s.file_table k).count ≠ 0) :
    Ledger H (fun j => G j + one k j)
      (s.setFile k fun file => { file with count := file.count + 1 }) := by
  have hk : k < FILE_NR := by
    by_contra hk
    exact hcount (h.fileEnd k (Nat.le_of_not_lt hk))
  refine Ledger.setFile h hk ?_ ?_
  · intro i
    rw [fileHolds, fileHolds, if_neg hcount, if_neg (Nat.succ_ne_zero _)]
    dsimp only
    omega
  · intro j
    dsimp only
    rw [one]
    split_ifs
    · push_cast
      omega
    · rfl

theorem dupfd_holds {fd arg : Int} :
    Triple never (fun s => Holds [] s ∧ Alive s) (dupfd fd arg) fun _ => Holds [] := by
  refine Triple.intro fun s ⟨h, ha⟩ => From.ite (fun _ => From.pure h) fun hlt => ?_
  refine From.bind getFd_spec ?_
  rintro file s ⟨rfl, hfd, task, ht, hfile⟩
  cases file with
  | none => exact From.pure h
  | some k =>
      refine From.ite (fun _ => From.pure h) fun _ => From.ite (fun _ => From.stop not_false)
        fun _ => From.bind runningTask_spec ?_
      rintro task' s ⟨rfl, ht'⟩
      obtain rfl := Option.some.inj (ht.symm.trans ht')
      cases hfree : (List.range' arg.toNat (TASK_FILE_NR - arg.toNat)).find? fun fd =>
          task.files fd = none with
      | none => exact From.pure h
      | some arg' =>
          have hfound := List.find?_some hfree
          have hnone : task.files arg' = none := of_decide_eq_true hfound
          obtain ⟨-, hlt'⟩ := List.mem_range'_1.mp (List.mem_of_find?_eq_some hfree)
          have hcount := descriptor_count fd.toNat h le_rfl ha ht (by omega) hfile
          refine From.bind (setFd_ledger (by omega) h ha ht) ?_
          rintro _ t ⟨hset, -, htable⟩
          refine From.set (From.pure (Ledger.congr (Ledger.share hset (k := k) ?_)
            (fun _ => rfl) fun j => ?_))
          · rw [htable]
            exact hcount
          · rw [hnone, points_none, points_some]
            show (0 : Int) = 0 + (0 : Nat) - one k j + one k j
            omega

theorem sysDup_holds {oldfd : Int} :
    Triple never (fun s => Holds [] s ∧ Alive s) (sysDup oldfd) fun _ => Holds [] :=
  dupfd_holds

theorem sysDup2_holds {oldfd newfd : Int} :
    Triple never (fun s => Holds [] s ∧ Alive s) (sysDup2 oldfd newfd) fun _ => Holds [] :=
  Triple.bind sysClose_holds fun _ => dupfd_holds

end NeonixDescriptorRefs
