import Neonix.Pipes
import Neonix.ReferenceCounts

/-! # Tasks that wait at a pipe nobody holds the other end of

    Any number of tasks make, share and close pipes and read and write them.
    The calls on descriptors are those of the tables of the file system; a turn
    of `pipe_read` or `pipe_write` is that of one pipe.  A pipe is named by the
    slot of its inode. -/

namespace NeonixDeadPipes

open NeonixMachine NeonixByteBits NeonixOutcome NeonixCalls NeonixRuns NeonixFifo
open NeonixFileSystem NeonixNamei NeonixFiles NeonixFrames NeonixInodeRefs NeonixDescriptorRefs
open NeonixTask (TaskState)
open NeonixPipes (Pipe ReadTurn WriteTurn pipeReadTurn pipeWriteTurn)
open NeonixPathRefs (runningTask_spec)
open NeonixReferenceCounts (perform_holds slot_lt bootState bootState_ledger)

def PAGE_SIZE : Nat := 4096

/-- Where a task stands. -/
inductive Pc where
  | user
  /-- in the loop of `pipe_read` -/
  | reading (inode : Nat) (count : Int) (buf : List Byte) (waited : Bool)
  /-- in the loop of `pipe_write` -/
  | writing (inode : Nat) (buf : List Byte) (waited : Bool)
  deriving DecidableEq

/-- The pipe a task is at. -/
def Pc.inode : Pc → Option Nat
  | .user => none
  | .reading inode _ _ _ | .writing inode _ _ => some inode

structure State where
  kernel : Kernel
  pipe : Nat → Pipe
  state : Nat → TaskState
  pc : Nat → Pc
  /-- the task in the middle of its loop -/
  current : Option Nat

def State.setPc (s : State) (t : Nat) (p : Pc) : State :=
  { s with pc := Function.update s.pc t p }

def State.setState (s : State) (t : Nat) (x : TaskState) : State :=
  { s with state := Function.update s.state t x }

def State.setPipe (s : State) (i : Nat) (p : Pipe) : State :=
  { s with pipe := Function.update s.pipe i p }

/-- `task_unblock(waiter, EOK)` of a waiter, if there is one. -/
def State.unblock (s : State) : Option Nat → State
  | none => s
  | some t => s.setState t .ready

/-- A call on descriptors; `page` are the stale bytes of the page a new pipe
    gets. -/
inductive Op where
  | pipe (page : Nat → Byte)
  | fork
  | dup (fd : Int)
  | close (fd : Int)
  | exit

def Op.syscall : Op → Syscall
  | .pipe _ => .pipe
  | .fork => .fork
  | .dup fd => .dup fd
  | .close fd => .close fd
  | .exit => .exit

/-- What a call does besides the tables of the file system: `fifo_init` of the
    new pipe, the child that is ready, the task that is dead. -/
def State.around (s : State) (t : Nat) : Op → State
  | .pipe page =>
      match (List.range INODE_NR).find? fun i => (s.kernel.inode_table i).dev = EOF with
      | none => s
      | some i =>
          s.setPipe i { s.pipe i with fifo := fifoInit page PAGE_SIZE (by decide) (by decide) }
  | .fork =>
      match (List.range TASK_NR).find? fun i => (s.kernel.task_table i).isNone with
      | none => s
      | some child => (s.setPc child .user).setState child .ready
  | .dup _ | .close _ => s
  | .exit => s.setState t .died

/-- The pipe behind a descriptor that is open for the access: the start of
    `sys_read` and `sys_write`, where `wrong` is the access that is refused. -/
def openPipe (s : Kernel) (t fd : Nat) (wrong : BitVec 32) : Option Nat := do
  let task ← s.task_table t
  let file ← task.files fd
  if (s.file_table file).flags &&& O_ACCMODE = wrong then none
  else
    let inode ← (s.file_table file).inode
    if (s.inode_table inode).pipe = true then some inode else none

/-- `pipe_read` after a turn. -/
def afterRead (s : State) (t i : Nat) (count : Int) (buf : List Byte) : ReadTurn → State
  | .waits pipe =>
      (({ s with current := none }.setPipe i pipe).setPc t (.reading i count buf true)).setState t
        .blocked
  | .takes pipe byte woken =>
      (({ s with current := some t }.setPipe i pipe).setPc t
        (.reading i count (buf ++ [byte]) false)).unblock woken

/-- `pipe_write` after a turn. -/
def afterWrite (s : State) (t i : Nat) (byte : Byte) (buf : List Byte) : WriteTurn → State
  | .waits pipe =>
      (({ s with current := none }.setPipe i pipe).setPc t (.writing i (byte :: buf) true)).setState t
        .blocked
  | .puts pipe woken =>
      (({ s with current := some t }.setPipe i pipe).setPc t (.writing i buf false)).unblock woken

inductive Event where
  | call (t : Nat) (op : Op)
  /-- `sys_read` on a pipe -/
  | read (t fd : Nat) (count : Int)
  /-- `sys_write` on a pipe -/
  | write (t fd : Nat) (buf : List Byte)
  /-- the next turn of a task's loop -/
  | turn (t : Nat)

/-- A step that one pipe stops, stops. -/
def lift {α : Type} : Res α → Except Halt α
  | .ok a => .ok a
  | .error e => .error (.stopped e)

/-- The step of an event that can happen. -/
def exec (s : State) : Event → Except Halt State
  | .call t op => do
      let (_, kernel) ← perform op.syscall 0 { s.kernel with current := t }
      return { s.around t op with kernel := kernel }
  | .read t fd count =>
      match openPipe s.kernel t fd O_WRONLY with
      | none => .ok s
      | some i => .ok ({ s with current := some t }.setPc t (.reading i count [] false))
  | .write t fd buf =>
      match openPipe s.kernel t fd O_RDONLY with
      | none => .ok s
      | some i => .ok ({ s with current := some t }.setPc t (.writing i buf false))
  | .turn t =>
      match s.pc t with
      | .user => .ok s
      | .reading i count buf waited =>
          if waited = true ∨ (buf.length : Int) < count then do
            return afterRead s t i count buf (← lift (pipeReadTurn (s.pipe i) t waited))
          else .ok ({ s with current := none }.setPc t .user)
      | .writing _ [] _ => .ok ({ s with current := none }.setPc t .user)
      | .writing i (byte :: buf) waited => do
          return afterWrite s t i byte buf (← lift (pipeWriteTurn (s.pipe i) t byte waited))

/-- A live task outside the pipes that may be switched to. -/
def Calls (s : State) (t : Nat) : Prop :=
  ((s.kernel.task_table t).any fun task => !task.died) = true ∧ s.pc t = .user ∧
    s.state t = .ready ∧ s.current = none

/-- When an event can happen. -/
def Enabled (s : State) : Event → Prop
  | .call t _ | .read t _ _ | .write t _ _ => Calls s t
  | .turn t => s.pc t ≠ .user ∧ s.state t = .ready ∧ (s.current = none ∨ s.current = some t)

instance (s : State) (t : Nat) : Decidable (Calls s t) := inferInstanceAs (Decidable (_ ∧ _))

instance (s : State) : (e : Event) → Decidable (Enabled s e)
  | .call t _ | .read t _ _ | .write t _ _ => inferInstanceAs (Decidable (Calls s t))
  | .turn _ => inferInstanceAs (Decidable (_ ∧ _))

/-- Exact reference counts, and every task outside the pipes. -/
structure Init (s : State) : Prop where
  ledger : Ledger 0 0 s.kernel
  pc : ∀ t, s.pc t = .user
  current : s.current = none

def system : System State Event := execSystem Init Enabled exec

/-! ## Waiting at a pipe -/

/-- The task is blocked in `pipe_read`. -/
def BlockedRead (s : State) (t i : Nat) : Prop :=
  (∃ count buf, s.pc t = .reading i count buf true) ∧ s.state t = .blocked

/-- The task is blocked in `pipe_write`. -/
def BlockedWrite (s : State) (t i : Nat) : Prop :=
  (∃ buf, s.pc t = .writing i buf true) ∧ s.state t = .blocked

/-- A task is blocked in `pipe_read` on an empty pipe. -/
def WaitsRead (s : State) (t i : Nat) : Prop := BlockedRead s t i ∧ (s.pipe i).fifo.Empty

/-- A task is blocked in `pipe_write` on a full pipe. -/
def WaitsWrite (s : State) (t i : Nat) : Prop := BlockedWrite s t i ∧ (s.pipe i).fifo.Full

/-- A descriptor of a live task points to an open file of the inode for this
    access. -/
def Grips (u fd file i : Nat) (mode : BitVec 32) (s : Kernel) : Prop :=
  (fd < TASK_FILE_NR ∧
    ∃ task, s.task_table u = some task ∧ task.died = false ∧ task.files fd = some file) ∧
    (s.file_table file).inode = some i ∧ (s.file_table file).flags &&& O_ACCMODE = mode

/-- Some descriptor holds that end of the pipe. -/
def EndHeld (s : Kernel) (i : Nat) (mode : BitVec 32) : Prop :=
  ∃ u fd file, Grips u fd file i mode s

/-- No task waits where it can never be woken. -/
structure NoDeadWait (s : State) : Prop where
  reader : ∀ t i, WaitsRead s t i → EndHeld s.kernel i O_WRONLY
  writer : ∀ t i, WaitsWrite s t i → EndHeld s.kernel i O_RDONLY

/-- The descriptors a call closes. -/
def Closes (t : Nat) (op : Op) (u fd : Nat) : Prop :=
  match op with
  | .close fd' => u = t ∧ fd = fd'.toNat
  | .exit => u = t
  | .pipe _ | .fork | .dup _ => False

/-- Some descriptor that the call does not close holds that end of the pipe. -/
def StaysHeld (s : Kernel) (t : Nat) (op : Op) (i : Nat) (mode : BitVec 32) : Prop :=
  ∃ u fd file, Grips u fd file i mode s ∧ ¬ Closes t op u fd

/-- A call closes no last descriptor of an end while a task waits at the other,
    and a task waits only while the other end is held. -/
def Attended (s : State) : Event → Prop
  | .call t op =>
      (∀ u i, WaitsRead s u i → StaysHeld s.kernel t op i O_WRONLY) ∧
        ∀ u i, WaitsWrite s u i → StaysHeld s.kernel t op i O_RDONLY
  | .read _ _ _ | .write _ _ _ => True
  | .turn t =>
      match s.pc t with
      | .reading i count buf false =>
          (buf.length : Int) < count → (s.pipe i).fifo.Empty → EndHeld s.kernel i O_WRONLY
      | .writing i (_ :: _) false => (s.pipe i).fifo.Full → EndHeld s.kernel i O_RDONLY
      | .user | .reading _ _ _ true | .writing _ [] _ | .writing _ _ true => True

/-! ## What a call leaves of the descriptors -/

variable {s t : Kernel} {u c fd fd' file i k : Nat} {mode : BitVec 32} {new : Option Nat}

theorem grips_fixed : Fixed (Grips u fd file i mode) := by
  intro s t hfile htask _ _ _ h
  rw [Grips, hfile, htask]
  exact h

/-- A store to an open file that leaves its inode and its access alone. -/
theorem Grips.share {f : File → File} (h : Grips u fd file i mode s)
    (hf : ∀ x, (f x).inode = x.inode ∧ (f x).flags = x.flags) :
    Grips u fd file i mode (s.setFile k f) := by
  obtain ⟨htask, hinode, hmode⟩ := h
  refine ⟨htask, ?_⟩
  by_cases hk : file = k
  · subst hk
    show ((Function.update s.file_table file _) file).inode = _ ∧
      ((Function.update s.file_table file _) file).flags &&& _ = _
    rw [Function.update_self, (hf _).1, (hf _).2]
    exact ⟨hinode, hmode⟩
  · show ((Function.update s.file_table k _) file).inode = _ ∧
      ((Function.update s.file_table k _) file).flags &&& _ = _
    rw [Function.update_of_ne hk]
    exact ⟨hinode, hmode⟩

/-- A store to another open file. -/
theorem Grips.setFile {f : File → File} (h : Grips u fd file i mode s) (hk : file ≠ k) :
    Grips u fd file i mode (s.setFile k f) := by
  have hother : (s.setFile k f).file_table file = s.file_table file := Function.update_of_ne hk ..
  refine ⟨h.1, ?_⟩
  rw [hother]
  exact h.2

/-- A store to a slot of the task table that is not the task's. -/
theorem Grips.putTask {task : Option Task} (h : Grips u fd file i mode s) (hc : u ≠ c) :
    Grips u fd file i mode (s.putTask c task) := by
  have hother : (s.putTask c task).task_table u = s.task_table u := Function.update_of_ne hc ..
  refine ⟨?_, h.2⟩
  rw [hother]
  exact h.1

/-- A store to another descriptor. -/
theorem Grips.setFd (h : Grips u fd file i mode s) (hne : s.current = u → fd ≠ fd') :
    From never s (setFd fd' new) fun _ t => Grips u fd file i mode t ∧
      t.current = s.current ∧ t.file_table = s.file_table := by
  refine From.store ⟨?_, rfl, rfl⟩
  by_cases hc : u = s.current
  · obtain ⟨⟨hfd, task, ht, hlive, hfile⟩, hrest⟩ := h
    refine ⟨⟨hfd, { task with files := Function.update task.files fd' new }, ?_, hlive, ?_⟩, hrest⟩
    · show Function.update s.task_table s.current _ u = _
      rw [hc, Function.update_self, ← hc, ht]
      rfl
    · exact (Function.update_of_ne (hne hc.symm) ..).trans hfile
  · exact h.putTask hc

/-- An open file in use that a descriptor points to. -/
def Open (u fd file i : Nat) (mode : BitVec 32) (s : Kernel) : Prop :=
  Grips u fd file i mode s ∧ (s.file_table file).count ≠ 0

theorem open_fixed : Fixed (Open u fd file i mode) := by
  intro s t hfile htask hcur htime hsuper h
  refine ⟨grips_fixed s t hfile htask hcur htime hsuper h.1, ?_⟩
  rw [hfile]
  exact h.2

/-- A descriptor that is not used is another one. -/
theorem Grips.other {task : Task} (h : Grips u fd file i mode s)
    (ht : s.task_table s.current = some task) (hnone : task.files fd' = none) :
    s.current = u → fd ≠ fd' := by
  rintro rfl rfl
  obtain ⟨⟨-, task', ht', -, hfile⟩, -⟩ := h
  rw [ht] at ht'
  rw [← Option.some.inj ht', hnone] at hfile
  cases hfile

/-- A new open file in a new descriptor. -/
theorem Open.newFile {β : Type} {f : Nat → Nat → Fs β} {R : β → Kernel → Prop}
    (h : Open u fd file i mode s)
    (hf : ∀ fd' k t, Open u fd file i mode t → file ≠ k → From never t (f fd' k) R) :
    From never s (do
      let fd' ← taskGetFd
      let k ← getFile
      setFd fd' (some k)
      f fd' k) R := by
  refine From.bind taskGetFd_spec ?_
  rintro fd' s ⟨rfl, -, task, ht, hnone⟩
  refine From.bind getFile_spec ?_
  rintro k t ⟨rfl, -, hcount⟩
  have hk : file ≠ k := by
    rintro rfl
    exact h.2 hcount
  have hgrip : Grips u fd file i mode
      (s.setFile k fun file => { file with count := file.count + 1 }) := h.1.setFile hk
  refine From.bind (hgrip.setFd (h.1.other ht hnone)) ?_
  rintro _ v ⟨hv, -, htable⟩
  refine hf fd' k v ⟨hv, ?_⟩ hk
  rw [htable, show (s.setFile k fun file => { file with count := file.count + 1 }).file_table file =
    s.file_table file from Function.update_of_ne hk ..]
  exact h.2

theorem sysPipe_grips :
    Triple never (Open u fd file i mode) sysPipe fun _ => Grips u fd file i mode := by
  refine Triple.bind (keeps_getPipeInode open_fixed) fun inode => Triple.intro fun s h => ?_
  refine h.newFile fun fd0 k t ht hk => ht.newFile fun fd1 k' v hv hk' => ?_
  exact From.set (From.set (From.pure ((hv.1.setFile hk).setFile hk')))

theorem dupfd_grips {fd' arg : Int} :
    Triple never (Grips u fd file i mode) (dupfd fd' arg) fun _ => Grips u fd file i mode := by
  refine Triple.intro fun s h => From.ite (fun _ => From.pure h) fun _ => From.bind getFd_spec ?_
  rintro found s ⟨rfl, -, task, ht, -⟩
  cases found with
  | none => exact From.pure h
  | some k =>
      refine From.ite (fun _ => From.pure h) fun _ => From.ite (fun _ => From.stop not_false)
        fun _ => From.bind runningTask_spec ?_
      rintro task' s ⟨rfl, ht'⟩
      obtain rfl := Option.some.inj (ht.symm.trans ht')
      cases hfree : (List.range' arg.toNat (TASK_FILE_NR - arg.toNat)).find? fun fd =>
          task.files fd = none with
      | none => exact From.pure h
      | some arg' =>
          have hfound := List.find?_some hfree
          refine From.bind (h.setFd (h.other ht (of_decide_eq_true hfound))) ?_
          rintro _ v ⟨hv, -, -⟩
          exact From.set (From.pure (hv.share fun _ => ⟨rfl, rfl⟩))

/-- A descriptor, and who runs. -/
def GripsBeside (c u fd file i : Nat) (mode : BitVec 32) (s : Kernel) : Prop :=
  Grips u fd file i mode s ∧ s.current = c

theorem gripsBeside_fixed : Fixed (GripsBeside c u fd file i mode) := by
  intro s t hfile htask hcur htime hsuper h
  refine ⟨grips_fixed s t hfile htask hcur htime hsuper h.1, ?_⟩
  rw [hcur]
  exact h.2

/-- A store to an open file that leaves its inode and its access alone. -/
theorem gripsBeside_share {g : Kernel → Nat} {f : File → File}
    (hf : ∀ x, (f x).inode = x.inode ∧ (f x).flags = x.flags) :
    Keeps (GripsBeside c u fd file i mode) (modify fun s => s.setFile (g s) f) :=
  Triple.modify fun _ hs => ⟨hs.1.share hf, hs.2⟩

theorem gripsBeside_putFile : Keeps (GripsBeside c u fd file i mode) (putFile k) := by
  refine .bind .get fun _ => .bind .assert fun _ => .bind ?_ fun _ => ?_
  · exact gripsBeside_share fun _ => ⟨rfl, rfl⟩
  · exact .bind .get fun _ => .onlyIf (keeps_iput gripsBeside_fixed)

/-- A store to a descriptor that is not this one. -/
theorem gripsBeside_setFd (hne : c = u → fd ≠ fd') :
    Keeps (GripsBeside c u fd file i mode) (setFd fd' new) := by
  refine Triple.intro fun s h => ?_
  refine (h.1.setFd (by rw [h.2]; exact hne)).post fun _ t ht => ⟨ht.1, ?_⟩
  rw [ht.2.1]
  exact h.2

theorem gripsBeside_getFd {fd' : Int} : Keeps (GripsBeside c u fd file i mode) (getFd fd') :=
  .ite .stop (.bind keeps_runningTask fun _ => .pure)

/-- `sys_close` of another descriptor. -/
theorem gripsBeside_sysClose {fd' : Int} (hne : c = u → fd ≠ fd'.toNat) :
    Keeps (GripsBeside c u fd file i mode) (sysClose fd') := by
  refine .bind .assert fun _ => .bind gripsBeside_getFd fun found => ?_
  cases found with
  | none => exact .pure
  | some k =>
      refine .bind .get fun _ => .bind .assert fun _ => .bind gripsBeside_putFile fun _ => ?_
      exact gripsBeside_setFd hne

/-- `task_exit` of another task. -/
theorem gripsBeside_taskExit (hne : c ≠ u) :
    Keeps (GripsBeside c u fd file i mode) taskExit := by
  have hdie : Keeps (GripsBeside c u fd file i mode)
      (modify fun s => s.setTask fun task => { task with died := true }) := by
    refine Triple.modify fun s hs => ⟨hs.1.putTask ?_, hs.2⟩
    rw [hs.2]
    exact hne.symm
  have hclose : ∀ fd', Keeps (GripsBeside c u fd file i mode) (closeFd fd') := by
    intro fd'
    refine .bind keeps_runningTask fun task => ?_
    cases task.files fd' with
    | none => exact .pure
    | some k => exact gripsBeside_sysClose fun h => absurd h hne
  refine .bind keeps_runningTask fun task => .bind .assert fun _ => .bind hdie fun _ => ?_
  refine .bind (keeps_iput gripsBeside_fixed) fun _ =>
    .bind (keeps_iput gripsBeside_fixed) fun _ => ?_
  exact .bind (keeps_iput gripsBeside_fixed) fun _ => .loop hclose 0 TASK_FILE_NR

/-- `task_fork` fills an empty slot. -/
theorem gripsBeside_taskFork : Triple never (GripsBeside c u fd file i mode) taskFork
    fun _ => Grips u fd file i mode := by
  have hexec : ∀ {c u : Nat} {iexec : Option Nat},
      Keeps (GripsBeside c u fd file i mode) (shareExec iexec) := by
    intro c u iexec
    cases iexec with
    | none => exact .pure
    | some k => exact keeps_setInode gripsBeside_fixed
  have hshare : ∀ task fd', Keeps (GripsBeside c u fd file i mode) (shareFile task fd') := by
    intro task fd'
    rw [shareFile]
    cases task.files fd' with
    | none => exact .pure
    | some k => exact gripsBeside_share fun _ => ⟨rfl, rfl⟩
  refine .bind keeps_runningTask fun task => .bind Keeps.assert fun _ => Triple.intro fun s h => ?_
  refine From.get ?_
  cases hfind : (List.range TASK_NR).find? fun i => (s.task_table i).isNone with
  | none => exact From.stop not_false
  | some child =>
      have hfound := List.find?_some hfind
      have hchild : u ≠ child := by
        rintro rfl
        obtain ⟨⟨-, task', ht', -, -⟩, -⟩ := h.1
        rw [ht'] at hfound
        cases hfound
      refine Triple.start (P := GripsBeside c u fd file i mode) ?_ h
      refine .bind (keeps_setInode gripsBeside_fixed) fun _ => ?_
      refine .bind (keeps_setInode gripsBeside_fixed) fun _ => .bind hexec fun _ => ?_
      refine .bind (Keeps.loop (hshare task) 0 TASK_FILE_NR) fun _ => Triple.intro fun t ht => ?_
      exact From.set (From.pure (ht.1.putTask hchild))

/-- A call keeps the descriptors it does not close. -/
theorem perform_grips {op : Op} (hc : ¬ Closes c op u fd) :
    Triple never (fun s => Open u fd file i mode s ∧ s.current = c) (perform op.syscall)
      fun _ => Grips u fd file i mode := by
  cases op with
  | pipe page => exact .bind (sysPipe_grips.pre fun _ hs => hs.1) fun _ => Triple.pure.pre fun _ hs => hs
  | fork =>
      exact .bind (gripsBeside_taskFork.pre fun _ hs => ⟨hs.1.1, hs.2⟩) fun _ =>
        Triple.pure.pre fun _ hs => hs
  | dup fd' => exact .bind (dupfd_grips.pre fun _ hs => hs.1.1) fun _ => Triple.pure.pre fun _ hs => hs
  | close fd' =>
      refine (gripsBeside_sysClose (c := c) fun hcu hfd => hc ⟨hcu.symm, hfd⟩).conseq
        (fun _ hs => ⟨hs.1.1, hs.2⟩) fun _ _ hs => hs.1
  | exit =>
      refine (gripsBeside_taskExit (c := c) fun hcu => hc hcu.symm).conseq
        (fun _ hs => ⟨hs.1.1, hs.2⟩) fun _ _ hs => hs.1

/-! ## What the counts say of a descriptor -/

theorem holds_switch (h : Holds [] s) (c : Nat) : Holds [] { s with current := c } :=
  ⟨h.inodes, h.files, h.free, h.listed, h.nodup, h.mounts, h.fileEnd, h.taskEnd, h.top⟩

/-- A file a descriptor points to is open. -/
theorem Grips.open (h : Grips u fd file i mode s) (hs : Holds [] s) : Open u fd file i mode s := by
  refine ⟨h, ?_⟩
  obtain ⟨⟨hfd, task, ht, hlive, hfile⟩, -⟩ := h
  exact descriptor_count (s := { s with current := u }) fd (holds_switch hs u) le_rfl
    ⟨slot_lt hs ht, task, ht, hlive⟩ ht hfd hfile

/-- The inode of an open file is in use. -/
theorem Grips.inUse (h : Grips u fd file i mode s) (hs : Holds [] s) :
    (s.inode_table i).dev ≠ EOF := by
  have hcount := (h.open hs).2
  have hfile : file < FILE_NR := by
    by_contra hle
    exact hcount (hs.fileEnd file (Nat.le_of_not_lt hle))
  have hterm := NeonixTally.term_le (f := fun k => fileHolds (s.file_table k) i)
    (Finset.mem_range.mpr hfile)
  have hone : fileHolds (s.file_table file) i = 1 := by
    rw [fileHolds, if_neg hcount, h.2.1, points, if_pos rfl]
  refine Ledger.used hs (Ledger.count_pos hs ?_)
  rw [held_nil]
  show (0 : Int) < inodeRefs s i + 0
  rw [inodeRefs]
  omega

/-! ## The steps -/

/-- The counts are exact, a blocked task is the one its pipe will wake and finds
    it stuck, and the other end is held. -/
structure DeadInv (s : State) : Prop where
  holds : Holds [] s.kernel
  reader : ∀ t i, BlockedRead s t i → (s.pipe i).rxwaiter = some t ∧ (s.pipe i).fifo.Empty
  writer : ∀ t i, BlockedWrite s t i → (s.pipe i).txwaiter = some t ∧ (s.pipe i).fifo.Full
  live : NoDeadWait s

variable {x y : State} {w j : Nat} {e : Event}

theorem DeadInv.readerHeld (h : DeadInv x) (hb : BlockedRead x w j) : EndHeld x.kernel j O_WRONLY :=
  h.live.reader w j ⟨hb, (h.reader w j hb).2⟩

theorem DeadInv.writerHeld (h : DeadInv x) (hb : BlockedWrite x w j) :
    EndHeld x.kernel j O_RDONLY :=
  h.live.writer w j ⟨hb, (h.writer w j hb).2⟩

theorem EndHeld.inUse (h : EndHeld s i mode) (hs : Holds [] s) : (s.inode_table i).dev ≠ EOF := by
  obtain ⟨u, fd, file, hg⟩ := h
  exact hg.inUse hs

/-- Around a call nobody goes to sleep, and the pipes in use stay as they are. -/
theorem around_blocked (x : State) (t : Nat) (op : Op) :
    (∀ w, (x.around t op).state w = .blocked →
      x.state w = .blocked ∧ (x.around t op).pc w = x.pc w) ∧
    ∀ i, (x.kernel.inode_table i).dev ≠ EOF → (x.around t op).pipe i = x.pipe i := by
  cases op with
  | pipe page =>
      rw [State.around]
      cases hfind : (List.range INODE_NR).find? fun i => (x.kernel.inode_table i).dev = EOF with
      | none => exact ⟨fun w hw => ⟨hw, rfl⟩, fun i _ => rfl⟩
      | some i₀ =>
          have hfound := List.find?_some hfind
          refine ⟨fun w hw => ⟨hw, rfl⟩, fun i hi => Function.update_of_ne ?_ ..⟩
          rintro rfl
          exact hi (of_decide_eq_true hfound)
  | fork =>
      rw [State.around]
      cases hfind : (List.range TASK_NR).find? fun i => (x.kernel.task_table i).isNone with
      | none => exact ⟨fun w hw => ⟨hw, rfl⟩, fun i _ => rfl⟩
      | some child =>
          refine ⟨fun w hw => ?_, fun i _ => rfl⟩
          change Function.update x.state child .ready w = .blocked at hw
          by_cases hc : w = child
          · rw [hc, Function.update_self] at hw
            cases hw
          · rw [Function.update_of_ne hc] at hw
            exact ⟨hw, Function.update_of_ne hc ..⟩
  | dup fd => exact ⟨fun w hw => ⟨hw, rfl⟩, fun i _ => rfl⟩
  | close fd => exact ⟨fun w hw => ⟨hw, rfl⟩, fun i _ => rfl⟩
  | exit =>
      refine ⟨fun w hw => ⟨?_, rfl⟩, fun i _ => rfl⟩
      change Function.update x.state t .died w = .blocked at hw
      by_cases hc : w = t
      · rw [hc, Function.update_self] at hw
        cases hw
      · rw [Function.update_of_ne hc] at hw
        exact hw

/-- A call keeps the counts exact. -/
theorem call_holds {c : Nat} {op : Op} (h : Holds [] x.kernel) (he : Enabled x (.call c op))
    (hx : exec x (.call c op) = .ok y) : Holds [] y.kernel := by
  rw [exec] at hx
  cases hr : perform op.syscall 0 { x.kernel with current := c } with
  | error err =>
      rw [hr] at hx
      cases hx
  | ok r =>
      obtain ⟨_, kernel⟩ := r
      rw [hr] at hx
      rw [← Except.ok.inj hx]
      exact NeonixReferenceCounts.exec_holds (e := .call c 0 x.kernel.time op.syscall) h he.1
        (show (perform op.syscall 0 { x.kernel with current := c } >>= fun r => Except.ok r.2) =
          .ok kernel by rw [hr]; rfl)

/-- A call on descriptors. -/
theorem DeadInv.call {c : Nat} {op : Op} (h : DeadInv x) (he : Enabled x (.call c op))
    (ha : Attended x (.call c op)) (hx : exec x (.call c op) = .ok y) : DeadInv y := by
  obtain ⟨hstate, hpipe⟩ := around_blocked x c op
  have hholds := call_holds h.holds he hx
  rw [exec] at hx
  cases hr : perform op.syscall 0 { x.kernel with current := c } with
  | error err =>
      rw [hr] at hx
      cases hx
  | ok r =>
      obtain ⟨_, kernel⟩ := r
      rw [hr] at hx
      obtain rfl := Except.ok.inj hx
      have hkept : ∀ {i mode}, StaysHeld x.kernel c op i mode → EndHeld kernel i mode := by
        rintro i mode ⟨u, fd, file, hg, hc⟩
        have hopen : Open u fd file i mode { x.kernel with current := c } := hg.open h.holds
        exact ⟨u, fd, file, (perform_grips hc).of_ok ⟨hopen, rfl⟩ hr⟩
      have hread : ∀ {w i}, BlockedRead { x.around c op with kernel := kernel } w i →
          BlockedRead x w i := by
        rintro w i ⟨⟨count, buf, hpc⟩, hs⟩
        obtain ⟨hs, hsame⟩ := hstate w hs
        exact ⟨⟨count, buf, hsame.symm.trans hpc⟩, hs⟩
      have hwrite : ∀ {w i}, BlockedWrite { x.around c op with kernel := kernel } w i →
          BlockedWrite x w i := by
        rintro w i ⟨⟨buf, hpc⟩, hs⟩
        obtain ⟨hs, hsame⟩ := hstate w hs
        exact ⟨⟨buf, hsame.symm.trans hpc⟩, hs⟩
      refine ⟨hholds, fun w i hb => ?_, fun w i hb => ?_, ⟨fun w i hw => ?_, fun w i hw => ?_⟩⟩
      · show ((x.around c op).pipe i).rxwaiter = _ ∧ ((x.around c op).pipe i).fifo.Empty
        rw [hpipe i ((h.readerHeld (hread hb)).inUse h.holds)]
        exact h.reader w i (hread hb)
      · show ((x.around c op).pipe i).txwaiter = _ ∧ ((x.around c op).pipe i).fifo.Full
        rw [hpipe i ((h.writerHeld (hwrite hb)).inUse h.holds)]
        exact h.writer w i (hwrite hb)
      · have hb := hread hw.1
        exact hkept (ha.1 w i ⟨hb, (h.reader w i hb).2⟩)
      · have hb := hwrite hw.1
        exact hkept (ha.2 w i ⟨hb, (h.writer w i hb).2⟩)

section Turns

variable {count : Int} {buf : List Byte} {waited : Bool} {byte : Byte} {woken : Option Nat}
  {pipe : Pipe} {p : Pc}

theorem unblock_pc : (x.unblock woken).pc = x.pc := by
  cases woken with
  | none => rfl
  | some u => rfl

theorem unblock_pipe : (x.unblock woken).pipe = x.pipe := by
  cases woken with
  | none => rfl
  | some u => rfl

theorem unblock_kernel : (x.unblock woken).kernel = x.kernel := by
  cases woken with
  | none => rfl
  | some u => rfl

/-- A task that stays blocked was blocked and is not the one woken. -/
theorem unblock_blocked (h : (x.unblock woken).state w = .blocked) :
    x.state w = .blocked ∧ woken ≠ some w := by
  cases woken with
  | none => exact ⟨h, nofun⟩
  | some v =>
      change Function.update x.state v .ready w = .blocked at h
      by_cases hv : w = v
      · rw [hv, Function.update_self] at h
        cases h
      · rw [Function.update_of_ne hv] at h
        exact ⟨h, fun hx => hv (Option.some.inj hx).symm⟩

/-- What a turn of `pipe_read` that returned did. -/
theorem pipeReadTurn_cases {t : Nat} {r : ReadTurn} (hx : pipeReadTurn pipe t waited = .ok r) :
    (waited = false ∧ pipe.fifo.Empty ∧ pipe.rxwaiter = none ∧
      r = .waits { pipe with rxwaiter := some t }) ∨
    (¬ pipe.fifo.Empty ∧ r = .takes { pipe with fifo := pipe.fifo.drop, txwaiter := none }
      (pipe.fifo.buf pipe.fifo.tail) pipe.txwaiter) := by
  rw [pipeReadTurn] at hx
  by_cases he : waited = false ∧ pipe.fifo.Empty
  · rw [if_pos he] at hx
    obtain ⟨_, hw, hr⟩ := bind_eq_ok hx
    exact Or.inl ⟨he.1, he.2, of_check hw, (Except.ok.inj hr).symm⟩
  · rw [if_neg he] at hx
    obtain ⟨⟨b, fifo⟩, hget, hr⟩ := bind_eq_ok hx
    have hne : ¬ pipe.fifo.Empty := by
      obtain ⟨_, hc, -⟩ := bind_eq_ok hget
      exact of_check hc
    rw [fifoGet_ok hne] at hget
    obtain ⟨rfl, rfl⟩ := Prod.mk.inj (Except.ok.inj hget)
    exact Or.inr ⟨hne, (Except.ok.inj hr).symm⟩

/-- The loop of `fifo_put` ends with room for a byte: it drops the oldest one of
    a full queue. -/
theorem makeRoom_room {n : Nat} {f g : Fifo} (hx : makeRoom n f = .ok g) :
    (¬ f.Full ∧ g = f) ∨ (f.Full ∧ ¬ f.Empty ∧ ¬ f.drop.Full ∧ g = f.drop) := by
  induction n generalizing f with
  | zero => cases hx
  | succ n ih =>
      rw [makeRoom] at hx
      by_cases hf : f.Full
      · rw [if_pos hf] at hx
        obtain ⟨⟨b, f'⟩, hget, hg⟩ := bind_eq_ok hx
        have hne : ¬ f.Empty := by
          obtain ⟨_, hc, -⟩ := bind_eq_ok hget
          exact of_check hc
        rw [fifoGet_ok hne] at hget
        obtain ⟨-, rfl⟩ := Prod.mk.inj (Except.ok.inj hget)
        have hroom := drop_not_full hne hf
        rcases ih hg with ⟨-, rfl⟩ | ⟨hfull, -⟩
        · exact Or.inr ⟨hf, hne, hroom, rfl⟩
        · exact absurd hfull hroom
      · rw [if_neg hf] at hx
        obtain rfl := Except.ok.inj hx
        exact Or.inl ⟨hf, rfl⟩

/-- `fifo_put` leaves a queue with a byte, and a full one full. -/
theorem fifoPut_after {f g : Fifo} (hx : fifoPut f byte = .ok g) :
    ¬ g.Empty ∧ (f.Full → g.Full) := by
  obtain ⟨room, hroom, hput⟩ := bind_eq_ok hx
  obtain rfl := Except.ok.inj hput
  have hne : ∀ {f : Fifo}, ¬ f.Full → ¬ (f.append byte).Empty := by
    intro f hf
    rw [← contents_eq_nil, contents_append hf]
    exact List.append_ne_nil_of_right_ne_nil _ (List.cons_ne_nil _ _)
  rcases makeRoom_room hroom with ⟨hf, rfl⟩ | ⟨hf, hnonempty, hn, rfl⟩
  · exact ⟨hne hf, fun hx => absurd hx hf⟩
  · refine ⟨hne hn, fun _ => ?_⟩
    -- one byte leaves and one comes
    have hdrop := congrArg List.length (contents_drop hnonempty)
    have happ := congrArg List.length (contents_append hn byte)
    simp only [List.length_cons, List.length_append, List.length_nil, length_contents] at hdrop happ
    rw [full_iff] at hf ⊢
    have hlength : (f.drop.append byte).length = f.length := rfl
    omega

/-- What a turn of `pipe_write` that returned did. -/
theorem pipeWriteTurn_cases {t : Nat} {r : WriteTurn}
    (hx : pipeWriteTurn pipe t byte waited = .ok r) :
    (waited = false ∧ pipe.fifo.Full ∧ pipe.txwaiter = none ∧
      r = .waits { pipe with txwaiter := some t }) ∨
    ∃ fifo, (pipe.fifo.Full → fifo.Full) ∧ ¬ fifo.Empty ∧
      r = .puts { pipe with fifo := fifo, rxwaiter := none } pipe.rxwaiter := by
  rw [pipeWriteTurn] at hx
  by_cases hf : waited = false ∧ pipe.fifo.Full
  · rw [if_pos hf] at hx
    obtain ⟨_, hw, hr⟩ := bind_eq_ok hx
    exact Or.inl ⟨hf.1, hf.2, of_check hw, (Except.ok.inj hr).symm⟩
  · rw [if_neg hf] at hx
    obtain ⟨fifo, hput, hr⟩ := bind_eq_ok hx
    obtain ⟨hne, hfull⟩ := fifoPut_after hput
    exact Or.inr ⟨fifo, hfull, hne, (Except.ok.inj hr).symm⟩

/-- A task makes a turn at a pipe: it moves, the pipe changes, and nobody else
    goes to sleep. -/
structure TurnAt (x y : State) (t i : Nat) (pipe : Pipe) (p : Pc) : Prop where
  kernel : y.kernel = x.kernel
  pipe : y.pipe = Function.update x.pipe i pipe
  pc : y.pc = Function.update x.pc t p
  state : ∀ w, w ≠ t → y.state w = .blocked → x.state w = .blocked
  place : ∀ j, j ≠ i → p.inode ≠ some j

/-- A turn keeps the invariant if the blocked tasks at its pipe fare well. -/
theorem DeadInv.turn {t : Nat} (h : DeadInv x) (ht : TurnAt x y t i pipe p)
    (hread : ∀ w, w ≠ t → y.state w = .blocked → BlockedRead x w i →
      pipe.rxwaiter = some w ∧ pipe.fifo.Empty)
    (hwrite : ∀ w, w ≠ t → y.state w = .blocked → BlockedWrite x w i →
      pipe.txwaiter = some w ∧ pipe.fifo.Full)
    (hselfRead : BlockedRead y t i →
      (pipe.rxwaiter = some t ∧ pipe.fifo.Empty) ∧ EndHeld x.kernel i O_WRONLY)
    (hselfWrite : BlockedWrite y t i →
      (pipe.txwaiter = some t ∧ pipe.fifo.Full) ∧ EndHeld x.kernel i O_RDONLY) : DeadInv y := by
  have hpipe : y.pipe i = pipe := by rw [ht.pipe, Function.update_self]
  have hother : ∀ j, j ≠ i → y.pipe j = x.pipe j := by
    intro j hj
    rw [ht.pipe, Function.update_of_ne hj]
  have hpc : ∀ w, w ≠ t → y.pc w = x.pc w := by
    intro w hw
    rw [ht.pc, Function.update_of_ne hw]
  have hself : y.pc t = p := by rw [ht.pc, Function.update_self]
  have hreader : ∀ w j, BlockedRead y w j →
      ((y.pipe j).rxwaiter = some w ∧ (y.pipe j).fifo.Empty) ∧ EndHeld x.kernel j O_WRONLY := by
    intro w j hwj
    by_cases hw : w = t
    · rw [hw] at hwj ⊢
      obtain ⟨⟨count, buf, hp⟩, -⟩ := id hwj
      have hj : j = i := by
        by_contra hj
        exact ht.place j hj (by rw [← hself, hp]; rfl)
      rw [hj] at hwj ⊢
      rw [hpipe]
      exact hselfRead hwj
    · obtain ⟨⟨count, buf, hp⟩, hs⟩ := hwj
      have hb : BlockedRead x w j := ⟨⟨count, buf, (hpc w hw).symm.trans hp⟩, ht.state w hw hs⟩
      refine ⟨?_, h.readerHeld hb⟩
      by_cases hj : j = i
      · rw [hj] at hb ⊢
        rw [hpipe]
        exact hread w hw hs hb
      · rw [hother j hj]
        exact h.reader w j hb
  have hwriter : ∀ w j, BlockedWrite y w j →
      ((y.pipe j).txwaiter = some w ∧ (y.pipe j).fifo.Full) ∧ EndHeld x.kernel j O_RDONLY := by
    intro w j hwj
    by_cases hw : w = t
    · rw [hw] at hwj ⊢
      obtain ⟨⟨buf, hp⟩, -⟩ := id hwj
      have hj : j = i := by
        by_contra hj
        exact ht.place j hj (by rw [← hself, hp]; rfl)
      rw [hj] at hwj ⊢
      rw [hpipe]
      exact hselfWrite hwj
    · obtain ⟨⟨buf, hp⟩, hs⟩ := hwj
      have hb : BlockedWrite x w j := ⟨⟨buf, (hpc w hw).symm.trans hp⟩, ht.state w hw hs⟩
      refine ⟨?_, h.writerHeld hb⟩
      by_cases hj : j = i
      · rw [hj] at hb ⊢
        rw [hpipe]
        exact hwrite w hw hs hb
      · rw [hother j hj]
        exact h.writer w j hb
  refine ⟨by rw [ht.kernel]; exact h.holds, fun w j hwj => (hreader w j hwj).1,
    fun w j hwj => (hwriter w j hwj).1, ⟨fun w j hwj => ?_, fun w j hwj => ?_⟩⟩
  · rw [ht.kernel]
    exact (hreader w j hwj.1).2
  · rw [ht.kernel]
    exact (hwriter w j hwj.1).2

/-- A turn that blocks. -/
theorem turnAt_block (x : State) (t i : Nat) (pipe : Pipe) {p : Pc}
    (hp : ∀ j, j ≠ i → p.inode ≠ some j) :
    TurnAt x ((({ x with current := none }.setPipe i pipe).setPc t p).setState t .blocked) t i pipe
      p := by
  refine ⟨rfl, rfl, rfl, fun w hw hs => ?_, hp⟩
  exact (Function.update_of_ne hw ..).symm.trans hs

/-- A turn that moves a byte. -/
theorem turnAt_move (x : State) (t i : Nat) (pipe : Pipe) (woken : Option Nat) {p : Pc}
    (hp : ∀ j, j ≠ i → p.inode ≠ some j) :
    TurnAt x ((({ x with current := some t }.setPipe i pipe).setPc t p).unblock woken) t i pipe p :=
  ⟨unblock_kernel, unblock_pipe, unblock_pc, fun _ _ hs => (unblock_blocked hs).1, hp⟩

/-- A turn of `pipe_read`. -/
theorem DeadInv.readTurn {t : Nat} {r : ReadTurn} (h : DeadInv x)
    (hx : pipeReadTurn (x.pipe i) t waited = .ok r)
    (ha : waited = false → (x.pipe i).fifo.Empty → EndHeld x.kernel i O_WRONLY) :
    DeadInv (afterRead x t i count buf r) := by
  have hplace : ∀ buf waited j, j ≠ i → (Pc.reading i count buf waited).inode ≠ some j :=
    fun _ _ j hj hx => hj (Option.some.inj hx).symm
  rcases pipeReadTurn_cases hx with ⟨hfront, he, hrx, rfl⟩ | ⟨hne, rfl⟩
  · refine h.turn (turnAt_block x t i _ (hplace buf true)) (fun w _ _ hb => ?_) (fun w _ _ hb => ?_)
      (fun _ => ⟨⟨rfl, he⟩, ha hfront he⟩) fun hb => ?_
    · -- nobody else waits, as the slot was free
      have hslot := (h.reader w i hb).1
      rw [hrx] at hslot
      cases hslot
    · exact h.writer w i hb
    · obtain ⟨⟨buf', hpc⟩, -⟩ := hb
      cases (Function.update_self ..).symm.trans hpc
  · refine h.turn (turnAt_move x t i _ _ (hplace _ false)) (fun w _ _ hb => ?_)
      (fun w _ hs hb => ?_) (fun hb => ?_) fun hb => ?_
    · exact absurd (h.reader w i hb).2 hne
    · exact absurd (h.writer w i hb).1 (unblock_blocked hs).2
    · obtain ⟨⟨count', buf', hpc⟩, -⟩ := hb
      rw [afterRead, unblock_pc] at hpc
      cases (Function.update_self ..).symm.trans hpc
    · obtain ⟨⟨buf', hpc⟩, -⟩ := hb
      rw [afterRead, unblock_pc] at hpc
      cases (Function.update_self ..).symm.trans hpc

/-- A turn of `pipe_write`. -/
theorem DeadInv.writeTurn {t : Nat} {r : WriteTurn} (h : DeadInv x)
    (hx : pipeWriteTurn (x.pipe i) t byte waited = .ok r)
    (ha : waited = false → (x.pipe i).fifo.Full → EndHeld x.kernel i O_RDONLY) :
    DeadInv (afterWrite x t i byte buf r) := by
  have hplace : ∀ buf waited j, j ≠ i → (Pc.writing i buf waited).inode ≠ some j :=
    fun _ _ j hj hx => hj (Option.some.inj hx).symm
  rcases pipeWriteTurn_cases hx with ⟨hfront, hf, htx, rfl⟩ | ⟨fifo, hfull, hne, rfl⟩
  · refine h.turn (turnAt_block x t i _ (hplace (byte :: buf) true)) (fun w _ _ hb => ?_)
      (fun w _ _ hb => ?_) (fun hb => ?_) fun _ => ⟨⟨rfl, hf⟩, ha hfront hf⟩
    · exact h.reader w i hb
    · have hslot := (h.writer w i hb).1
      rw [htx] at hslot
      cases hslot
    · obtain ⟨⟨count', buf', hpc⟩, -⟩ := hb
      cases (Function.update_self ..).symm.trans hpc
  · refine h.turn (turnAt_move x t i _ _ (hplace _ false)) (fun w _ hs hb => ?_)
      (fun w _ _ hb => ?_) (fun hb => ?_) fun hb => ?_
    · exact absurd (h.reader w i hb).1 (unblock_blocked hs).2
    · -- the put drops a byte and leaves the pipe full
      exact ⟨(h.writer w i hb).1, hfull (h.writer w i hb).2⟩
    · obtain ⟨⟨count', buf', hpc⟩, -⟩ := hb
      rw [afterWrite, unblock_pc] at hpc
      cases (Function.update_self ..).symm.trans hpc
    · obtain ⟨⟨buf', hpc⟩, -⟩ := hb
      rw [afterWrite, unblock_pc] at hpc
      cases (Function.update_self ..).symm.trans hpc

/-- A turn is none of the tables' business. -/
theorem turn_kernel {t : Nat} (hx : exec x (.turn t) = .ok y) : y.kernel = x.kernel := by
  rw [exec] at hx
  cases hpc : x.pc t with
  | user =>
      rw [hpc] at hx
      rw [← Except.ok.inj hx]
  | reading i count buf waited =>
      simp only [hpc] at hx
      by_cases hgo : waited = true ∨ (buf.length : Int) < count
      · rw [if_pos hgo] at hx
        cases hr : pipeReadTurn (x.pipe i) t waited with
        | error err =>
            rw [hr] at hx
            cases hx
        | ok r =>
            rw [hr] at hx
            rw [← Except.ok.inj hx]
            cases r with
            | waits pipe => rfl
            | takes pipe byte woken => exact unblock_kernel
      · rw [if_neg hgo] at hx
        rw [← Except.ok.inj hx]
        rfl
  | writing i buf waited =>
      cases buf with
      | nil =>
          simp only [hpc] at hx
          rw [← Except.ok.inj hx]
          rfl
      | cons byte buf =>
          simp only [hpc] at hx
          cases hr : pipeWriteTurn (x.pipe i) t byte waited with
          | error err =>
              rw [hr] at hx
              cases hx
          | ok r =>
              rw [hr] at hx
              rw [← Except.ok.inj hx]
              cases r with
              | waits pipe => rfl
              | puts pipe woken => exact unblock_kernel

/-- A task that comes to the front of a loop, or leaves it, sleeps nowhere. -/
theorem DeadInv.move {t : Nat} {current : Option Nat} (h : DeadInv x)
    (hread : ∀ i count buf, p ≠ .reading i count buf true)
    (hwrite : ∀ i buf, p ≠ .writing i buf true) :
    DeadInv ({ x with current := current }.setPc t p) := by
  -- any pipe will do, as none changes
  obtain ⟨i, hp⟩ : ∃ i, ∀ j, j ≠ i → p.inode ≠ some j := by
    cases p with
    | user => exact ⟨0, fun _ _ => nofun⟩
    | reading i count buf waited => exact ⟨i, fun _ hj hx => hj (Option.some.inj hx).symm⟩
    | writing i buf waited => exact ⟨i, fun _ hj hx => hj (Option.some.inj hx).symm⟩
  have ht : TurnAt x ({ x with current := current }.setPc t p) t i (x.pipe i) p :=
    ⟨rfl, (Function.update_eq_self i x.pipe).symm, rfl, fun _ _ hs => hs, hp⟩
  refine h.turn ht (fun w _ _ hb => h.reader w i hb) (fun w _ _ hb => h.writer w i hb)
    (fun hb => ?_) fun hb => ?_
  · obtain ⟨⟨count, buf, hpc⟩, -⟩ := hb
    exact absurd ((Function.update_self ..).symm.trans hpc) (hread i count buf)
  · obtain ⟨⟨buf, hpc⟩, -⟩ := hb
    exact absurd ((Function.update_self ..).symm.trans hpc) (hwrite i buf)

end Turns

/-- Every step that the condition allows keeps the invariant. -/
theorem DeadInv.step (h : DeadInv x) (he : Enabled x e) (ha : Attended x e)
    (hx : exec x e = .ok y) : DeadInv y := by
  cases e with
  | call t op => exact h.call he ha hx
  | read t fd count =>
      rw [exec] at hx
      cases hi : openPipe x.kernel t fd O_WRONLY with
      | none =>
          rw [hi] at hx
          obtain rfl := Except.ok.inj hx
          exact h
      | some i =>
          rw [hi] at hx
          obtain rfl := Except.ok.inj hx
          exact h.move (fun _ _ _ => nofun) fun _ _ => nofun
  | write t fd buf =>
      rw [exec] at hx
      cases hi : openPipe x.kernel t fd O_RDONLY with
      | none =>
          rw [hi] at hx
          obtain rfl := Except.ok.inj hx
          exact h
      | some i =>
          rw [hi] at hx
          obtain rfl := Except.ok.inj hx
          exact h.move (fun _ _ _ => nofun) fun _ _ => nofun
  | turn t =>
      rw [exec] at hx
      cases hpc : x.pc t with
      | user => exact absurd hpc he.1
      | reading i count buf waited =>
          simp only [hpc] at hx
          by_cases hgo : waited = true ∨ (buf.length : Int) < count
          · rw [if_pos hgo] at hx
            cases hr : pipeReadTurn (x.pipe i) t waited with
            | error err =>
                rw [hr] at hx
                cases hx
            | ok r =>
                rw [hr] at hx
                obtain rfl := Except.ok.inj hx
                refine h.readTurn hr fun hfront hempty => ?_
                subst hfront
                simp only [Attended, hpc] at ha
                exact ha (hgo.resolve_left Bool.false_ne_true) hempty
          · rw [if_neg hgo] at hx
            obtain rfl := Except.ok.inj hx
            exact h.move (fun _ _ _ => nofun) fun _ _ => nofun
      | writing i buf waited =>
          cases buf with
          | nil =>
              simp only [hpc] at hx
              obtain rfl := Except.ok.inj hx
              exact h.move (fun _ _ _ => nofun) fun _ _ => nofun
          | cons byte buf =>
              simp only [hpc] at hx
              cases hr : pipeWriteTurn (x.pipe i) t byte waited with
              | error err =>
                  rw [hr] at hx
                  cases hx
              | ok r =>
                  rw [hr] at hx
                  obtain rfl := Except.ok.inj hx
                  refine h.writeTurn hr fun hfront hfull => ?_
                  subst hfront
                  simp only [Attended, hpc] at ha
                  exact ha hfull

/-- At the start nobody is at a pipe. -/
theorem DeadInv.init (h : Init x) : DeadInv x := by
  have huser : ∀ {t p}, x.pc t = p → p = .user := fun hp => hp.symm.trans (h.pc _)
  refine ⟨?_, fun t i hb => ?_, fun t i hb => ?_, ⟨fun t i hb => ?_, fun t i hb => ?_⟩⟩
  · exact h.ledger
  · obtain ⟨⟨count, buf, hp⟩, -⟩ := hb
    cases huser hp
  · obtain ⟨⟨buf, hp⟩, -⟩ := hb
    cases huser hp
  · obtain ⟨⟨⟨count, buf, hp⟩, -⟩, -⟩ := hb
    cases huser hp
  · obtain ⟨⟨⟨buf, hp⟩, -⟩, -⟩ := hb
    cases huser hp

/-- In every run in which no task waits without the other end held, and no last
    descriptor of an end is closed under a waiting task, no task waits in vain. -/
theorem no_dead_wait (h : Reach system Attended x) : NoDeadWait x := by
  have hinv : DeadInv x := by
    refine h.invariant (fun s (hs : Init s) => DeadInv.init hs) fun s e s' hs ha hstep => ?_
    exact hs.step hstep.1 ha hstep.2
  exact hinv.live

/-! ## Two runs -/

/-- One task and a file system with an empty root directory. -/
def boot : State where
  kernel := bootState
  pipe _ :=
    { fifo := fifoInit (fun _ => 0) PAGE_SIZE (by decide) (by decide), rxwaiter := none
      txwaiter := none }
  state _ := .ready
  pc _ := .user
  current := none

theorem boot_init : Init boot := ⟨bootState_ledger, fun _ => rfl, rfl⟩

/-- The state after an event that returns. -/
def after (s : State) (e : Event) : State := (exec s e).toOption.getD s

theorem exec_after (h : (exec x e).toOption.isSome = true) : exec x e = .ok (after x e) := by
  rw [after]
  cases hx : exec x e with
  | error err =>
      rw [hx] at h
      cases h
  | ok y => rfl

/-- While everybody is outside the pipes, a call may close what it likes. -/
theorem attended_user {op : Op} (h : ∀ t, x.pc t = .user) : Attended x (.call c op) := by
  refine ⟨fun u i hw => ?_, fun u i hw => ?_⟩
  · obtain ⟨⟨⟨count, buf, hp⟩, -⟩, -⟩ := hw
    rw [h u] at hp
    cases hp
  · obtain ⟨⟨⟨buf, hp⟩, -⟩, -⟩ := hw
    rw [h u] at hp
    cases hp

/-- A call brings nobody to a pipe. -/
theorem call_user {op : Op} (h : ∀ t, x.pc t = .user) (hx : exec x (.call c op) = .ok y) :
    ∀ t, y.pc t = .user := by
  have haround : ∀ t, (x.around c op).pc t = .user := by
    cases op with
    | pipe page =>
        rw [State.around]
        cases (List.range INODE_NR).find? fun i => (x.kernel.inode_table i).dev = EOF with
        | none => exact h
        | some i => exact h
    | fork =>
        rw [State.around]
        cases (List.range TASK_NR).find? fun i => (x.kernel.task_table i).isNone with
        | none => exact h
        | some child =>
            intro t
            by_cases ht : t = child
            · rw [ht]
              exact Function.update_self ..
            · exact (Function.update_of_ne ht ..).trans (h t)
    | dup fd => exact h
    | close fd => exact h
    | exit => exact h
  rw [exec] at hx
  cases hr : perform op.syscall 0 { x.kernel with current := c } with
  | error err =>
      rw [hr] at hx
      cases hx
  | ok r =>
      rw [hr] at hx
      obtain rfl := Except.ok.inj hx
      exact haround

/-- A task makes a pipe and forks, and the child comes to `pipe_read`. -/
def piped : State := after boot (.call 0 (.pipe fun _ => 0))
def forked : State := after piped (.call 0 .fork)
def entered : State := after forked (.read 1 3 1)

/-- The child waits while the parent holds the other end. -/
theorem no_dead_wait_child : WaitsRead (after entered (.turn 1)) 1 1 ∧
    NoDeadWait (after entered (.turn 1)) := by
  have hpiped := exec_after (x := boot) (e := .call 0 (.pipe fun _ => 0)) (by decide +kernel)
  have hforked := exec_after (x := piped) (e := .call 0 .fork) (by decide +kernel)
  have hentered := exec_after (x := forked) (e := .read 1 3 1) (by decide +kernel)
  have hwaits := exec_after (x := entered) (e := .turn 1) (by decide +kernel)
  have huser := call_user (fun _ => rfl) hpiped
  have hheld : EndHeld entered.kernel 1 O_WRONLY := by
    have hparent : ((entered.kernel.task_table 0).any fun task =>
      !task.died && decide (task.files 4 = some 4)) = true := by decide +kernel
    obtain ⟨task, ht, hb⟩ := (Option.any_eq_true ..).mp hparent
    rw [Bool.and_eq_true] at hb
    exact ⟨0, 4, 4, ⟨by decide, task, ht, by simpa using hb.1, of_decide_eq_true hb.2⟩,
      by decide +kernel, by decide +kernel⟩
  have hturn : Attended entered (.turn 1) := by
    have hpc : entered.pc 1 = .reading 1 1 [] false := by decide +kernel
    simp only [Attended, hpc]
    exact fun _ _ => hheld
  have hreach : Reach system Attended (after entered (.turn 1)) := by
    refine Reach.step ?_ hturn ⟨by decide +kernel, hwaits⟩
    refine Reach.step (e := .read 1 3 1) ?_ trivial ⟨by decide +kernel, hentered⟩
    refine Reach.step ?_ (attended_user huser) ⟨by decide +kernel, hforked⟩
    exact Reach.step (Reach.start boot_init) (attended_user fun _ => rfl) ⟨by decide +kernel, hpiped⟩
  refine ⟨⟨⟨⟨1, [], ?_⟩, ?_⟩, ?_⟩, no_dead_wait hreach⟩
  · decide +kernel
  · decide +kernel
  · decide +kernel

/-- Every step keeps the counts exact. -/
theorem exec_holds (h : Holds [] x.kernel) (he : Enabled x e) (hx : exec x e = .ok y) :
    Holds [] y.kernel := by
  cases e with
  | call t op => exact call_holds h he hx
  | read t fd count =>
      rw [exec] at hx
      cases hi : openPipe x.kernel t fd O_WRONLY with
      | none =>
          rw [hi] at hx
          rw [← Except.ok.inj hx]
          exact h
      | some i =>
          rw [hi] at hx
          rw [← Except.ok.inj hx]
          exact h
  | write t fd buf =>
      rw [exec] at hx
      cases hi : openPipe x.kernel t fd O_RDONLY with
      | none =>
          rw [hi] at hx
          rw [← Except.ok.inj hx]
          exact h
      | some i =>
          rw [hi] at hx
          rw [← Except.ok.inj hx]
          exact h
  | turn t =>
      rw [turn_kernel hx]
      exact h

theorem reach_holds (h : Reach system free x) : Holds [] x.kernel := by
  suffices hinv : (fun s : State => Holds [] s.kernel) x from hinv
  refine h.invariant (fun s (hs : Init s) => show Holds [] s.kernel from hs.ledger)
    fun s e s' hs _ hstep => ?_
  exact exec_holds hs hstep.1 hstep.2

/-- A task closes the end it would be woken from and then reads. -/
def deadRun : List Event := [.call 0 (.pipe fun _ => 0), .call 0 (.close 4), .read 0 3 1, .turn 0]

theorem reader_waits_alone : ¬ ∀ s, Reach system free s → NoDeadWait s := by
  intro h
  have hrun : (follow free Enabled exec boot deadRun).isSome = true := by decide +kernel
  have hend : ((follow free Enabled exec boot deadRun).any fun s =>
    decide (s.pc 0 = .reading 1 1 [] true ∧ s.state 0 = .blocked ∧ (s.pipe 1).fifo.Empty) &&
      (List.range FILE_NR).all fun k => decide ((s.kernel.file_table k).count = 0 ∨
        (s.kernel.file_table k).flags &&& O_ACCMODE ≠ O_WRONLY)) = true := by decide +kernel
  obtain ⟨s, hs, hb⟩ := (Option.any_eq_true ..).mp hend
  have hstart : Reach system free boot := Reach.start boot_init
  have hreach := hstart.follow deadRun hs
  rw [Bool.and_eq_true, decide_eq_true_eq, List.all_eq_true] at hb
  obtain ⟨⟨hpc, hstate, hempty⟩, hfiles⟩ := hb
  obtain ⟨u, fd, file, hg⟩ := (h s hreach).reader 0 1 ⟨⟨⟨1, [], hpc⟩, hstate⟩, hempty⟩
  have hholds := reach_holds hreach
  -- an open file with that access would be one of the table
  have hcount := (hg.open hholds).2
  have hfile : file < FILE_NR := by
    by_contra hle
    exact hcount (hholds.fileEnd file (Nat.le_of_not_lt hle))
  rcases of_decide_eq_true (hfiles file (List.mem_range.mpr hfile)) with hzero | hmode
  · exact hcount hzero
  · exact hmode hg.2.2

end NeonixDeadPipes
