import Neonix.PageBalance
import Neonix.Signals

/-! # `task_exit` and the tasks it may run for

    Three kernel threads come up with the kernel's directory and bitmap; one of
    them becomes the first process, and processes fork.  A process may send any
    signal to any task but those of `KERNEL_USER` and the first process, and a
    task that takes a signal by default runs `task_exit`, which frees its
    directory, bitmap and pages of the kernel heap.  A task is named by its slot,
    which is its `pid`. -/

namespace NeonixTaskExits

open NeonixMachine NeonixOutcome NeonixRuns NeonixMemory NeonixPageSteps NeonixPageCalls
open NeonixMappingCalls NeonixPageCounts NeonixPageBalance
open NeonixTask (sigmask MINSIG MAXSIG SIGHUP SIGCHLD NORMAL_USER)
open NeonixSignals (Sigaction sysSsetmask sysSignal sysSigaction taskSignal signalAction)

/-- What `task_exit` gives back to the kernel heap besides the directory. -/
inductive Object where
  /-- the page `vmap->bits` -/
  | bits (i : TaskId)
  /-- the block `vmap` -/
  | vmap (i : TaskId)
  /-- the page `pwd` -/
  | pwd (i : TaskId)
  deriving DecidableEq

def Object.owner : Object → TaskId
  | .bits i | .vmap i | .pwd i => i

structure State where
  mem : NeonixMemory.State
  /-- the signals of the task in a slot -/
  sig : TaskId → NeonixSignals.Task
  /-- the `vmap` of a task: whose bitmap, `none` for `&kernel_map` -/
  vmap : TaskId → Space
  /-- what is allocated on the kernel heap -/
  heap : Object → Bool

/-- The task as `task_signal` sees it. -/
def State.signals (s : State) (i : TaskId) (t : NeonixMemory.Task) : NeonixSignals.Task :=
  { s.sig i with uid := t.uid, pid := i.val }

def State.setSig (s : State) (i : TaskId) (task : NeonixSignals.Task) : State :=
  { s with sig := Function.update s.sig i task }

/-- `free_kpage(p, 1)` or `kfree(p)`; what is not of the heap fails the assertion. -/
def freeObject (heap : Object → Bool) : Option Object → Res (Object → Bool)
  | none => .error .assertion
  | some o => do
      check (heap o = true)
      return Function.update heap o false

/-- `task_exit`. -/
def taskExit (s : State) (i : TaskId) (t : NeonixMemory.Task) : Res State := do
  let mem ← NeonixMemory.taskExit s.mem i t
  let heap ← freeObject s.heap ((s.vmap i).map Object.bits)
  let heap ← freeObject heap ((s.vmap i).map Object.vmap)
  let heap ← freeObject heap (some (.pwd i))
  return { s with mem := mem, heap := heap }

/-- `get_task`, for the tasks of the table. -/
def getTask (s : State) (pid : Int) : Option TaskId :=
  (List.finRange TASK_NR).find? fun i => decide ((i.val : Int) = pid) && (s.mem.task i).isSome

/-- `sys_kill`, without the wake-up of a task that waits. -/
def sysKill (s : State) (pid sig : Int) : State × Int :=
  if sig < MINSIG ∨ sig > MAXSIG then (s, -1)
  else
    match getTask s pid with
    | none => (s, -1)
    | some i =>
        match s.mem.task i with
        | none => (s, -1)
        | some t =>
            if t.uid = KERNEL_USER then (s, -1)
            else if pid = 1 then (s, -1)
            else (s.setSig i { s.sig i with signal := (s.sig i).signal ||| sigmask sig.toNat }, 0)

inductive Event where
  /-- a memory call of a process -/
  | memory (i : TaskId) (e : NeonixMemory.Event)
  /-- `task_to_user_mode` of `init_thread` -/
  | toUserMode (i : TaskId)
  /-- `task_fork`, which finds slot `j` of the task table free -/
  | fork (i j : TaskId)
  | kill (i : TaskId) (pid sig : Int)
  | ssetmask (i : TaskId) (newmask : BitVec 32)
  | signal (i : TaskId) (sig : Int) (handler restorer : BitVec 32)
  | sigaction (i : TaskId) (sig : Int) (action oldaction : BitVec 32)
  /-- the kernel itself sends a signal: `SIGCHLD`, or another one to a process -/
  | raise (i : TaskId) (sig : Nat)
  /-- `task_signal` at the end of an interrupt -/
  | deliver (i : TaskId)
  /-- `page_fault` -/
  | fault (i : TaskId) (vaddr : Nat) (present write : Bool)
  /-- `sys_exit` -/
  | exit (i : TaskId)

/-- The memory calls of a process that neither make nor end a task. -/
def Calls (i : TaskId) : NeonixMemory.Event → Prop
  | .brk j _ | .mmap j _ _ _ _ | .munmap j _ _ | .execve j | .segment j _ _ _ => j = i
  | _ => False

/-- A task in user mode: it has a directory of its own. -/
def IsProcess (s : State) (i : TaskId) : Prop :=
  ((s.mem.task i).any fun t => t.pde.isSome) = true

/-- The step of an event that can happen. -/
def exec (s : State) : Event → Res State
  | .memory _ e => do
      let mem ← NeonixMemory.exec s.mem e
      return { s with mem := mem }
  | .toUserMode i => do
      let mem ← NeonixMemory.exec s.mem (.toUserMode i)
      return { s with
        mem := mem
        vmap := Function.update s.vmap i (some i)
        heap := Function.update (Function.update s.heap (.bits i) true) (.vmap i) true }
  | .fork i j => do
      let mem ← NeonixMemory.exec s.mem (.fork i j)
      return { s with
        mem := mem
        sig := Function.update s.sig j (s.sig i)
        vmap := Function.update s.vmap j (some j)
        heap := Function.update (Function.update (Function.update s.heap (.bits j) true) (.vmap j) true)
          (.pwd j) true }
  | .kill _ pid sig => .ok (sysKill s pid sig).1
  | .ssetmask i newmask => .ok (s.setSig i (sysSsetmask (s.sig i) newmask).1)
  | .signal i sig handler restorer => .ok (s.setSig i (sysSignal (s.sig i) sig handler restorer).1)
  | .sigaction i sig action oldaction =>
      .ok (s.setSig i (sysSigaction (s.sig i) sig action oldaction).1)
  | .raise i sig => .ok (s.setSig i { s.sig i with signal := (s.sig i).signal ||| sigmask sig })
  | .deliver i => do
      let t ← running s.mem i
      match ← taskSignal (s.signals i t) with
      | .returns task => return s.setSig i task
      | .exits task _ => taskExit (s.setSig i task) i t
  | .fault i vaddr present write => do
      let t ← running s.mem i
      match ← pageFault s.mem.mem t vaddr present write with
      | .exit => taskExit s i t
      | .back m => return { s with mem := { s.mem with mem := m } }
  | .exit i => do
      let t ← running s.mem i
      taskExit s i t

/-- When an event can happen: processes make the calls and touch the memory that
    can fault, `init_thread` goes to user mode, and any task ends an interrupt. -/
def Enabled (s : State) : Event → Prop
  | .memory i e => IsProcess s i ∧ Calls i e
  | .toUserMode i => i.val = 1 ∧ ∀ t, s.mem.task i = some t → t.pde = none
  | .fork i j => IsProcess s i ∧ s.mem.task j = none
  | .kill i _ _ | .ssetmask i _ | .signal i _ _ _ | .sigaction i _ _ _ | .fault i _ _ _ | .exit i =>
      IsProcess s i
  | .raise i sig => sig = SIGCHLD ∨ (IsProcess s i ∧ MINSIG ≤ sig ∧ sig ≤ MAXSIG)
  | .deliver _ => True

/-- The threads `task_init` makes. -/
def initThreads : TaskId → Option NeonixMemory.Task := fun i =>
  if i.val = 0 then some (newTask KERNEL_USER)
  else if i.val = 1 ∨ i.val = 2 then some (newTask NORMAL_USER)
  else none

/-- The signals of a task that was just made. -/
structure Unset (task : NeonixSignals.Task) : Prop where
  signal : task.signal = 0
  blocked : task.blocked = 0
  actions : ∀ k, (task.actions k).handler = NeonixSignals.SIG_DFL

/-- After `task_init`. -/
structure Init (s : State) : Prop where
  mem : ∃ boot, Boot boot ∧ s.mem = { boot with task := initThreads }
  sig : ∀ i, Unset (s.sig i)
  vmap : ∀ i, s.vmap i = none
  heap : ∀ o, s.heap o = decide (∃ i : TaskId, i.val < 3 ∧ o = .pwd i)

def system : System State Event := execSystem Init Enabled exec

/-- The event leads the task into `task_exit`. -/
def LeadsToExit (s : State) (i : TaskId) (t : NeonixMemory.Task) : Event → Prop
  | .deliver j => j = i ∧ ∃ task status, taskSignal (s.signals i t) = .ok (.exits task status)
  | .fault j vaddr present write => j = i ∧ pageFault s.mem.mem t vaddr present write = .ok .exit
  | .exit j => j = i
  | _ => False

/-- The task ends alone: it has its own directory and bitmap, no assertion of
    `task_exit` fails, the other tasks stay with what their directories show, and
    of the heap only what is the task's goes. -/
structure EndsAlone (s : State) (i : TaskId) (t : NeonixMemory.Task) : Prop where
  pde : t.pde = some i
  vmap : s.vmap i = some i
  done : ∃ s', taskExit s i t = .ok s' ∧ s'.mem.task = Function.update s.mem.task i none ∧
    (∀ y, y ≠ some i → Unseen y s.mem.mem s'.mem.mem) ∧
    ∀ o, o.owner ≠ i → s'.heap o = s.heap o

/-- Whatever leads a task into `task_exit` leads it there alone. -/
def ExitsOwn (s : State) : Prop :=
  ∀ e i t, Enabled s e → s.mem.task i = some t → LeadsToExit s i t e → EndsAlone s i t

/-- No signal but `SIGCHLD` is sent to a task that `sys_kill` admits and that has
    no directory of its own. -/
def Spares (s : State) : Event → Prop
  | .kill _ pid sig => ∀ i t, getTask s pid = some i → s.mem.task i = some t → t.pde = none →
      MINSIG ≤ sig → sig ≤ MAXSIG → t.uid ≠ KERNEL_USER → pid ≠ 1 → sig = SIGCHLD
  | _ => True

/-! ## The invariant -/

/-- A task that takes no signal but `SIGCHLD`, and does nothing about that one. -/
structure Quiet (task : NeonixSignals.Task) : Prop where
  signal : ∀ sig, 1 ≤ sig → sig ≤ MAXSIG → sig ≠ SIGCHLD → task.signal.getLsbD (sig - 1) = false
  actions : ∀ k, (task.actions k).handler = NeonixSignals.SIG_DFL

/-- The memory is in order; a process has its own bitmap on the heap; and what
    is no process is quiet. -/
structure OwnInv (s : State) : Prop where
  inv : Inv s.mem
  tidy : Tidy s.mem.mem
  own : ∀ i t, s.mem.task i = some t → t.pde ≠ none →
    s.vmap i = some i ∧ s.heap (.bits i) = true ∧ s.heap (.vmap i) = true ∧ t.uid ≠ KERNEL_USER
  pwd : ∀ i t, s.mem.task i = some t → s.heap (.pwd i) = true
  first : ∀ i t, s.mem.task i = some t → i.val = 1 → t.uid ≠ KERNEL_USER
  quiet : ∀ i t, s.mem.task i = some t → t.pde = none → Quiet (s.sig i)

variable {s s' : State} {i j : TaskId} {t : NeonixMemory.Task} {e : Event}
  {task : NeonixSignals.Task} {m m' : NeonixMemory.Memory}

/-- The signals of a task are those of its slot. -/
theorem quiet_signals (h : Quiet (s.sig i)) : Quiet (s.signals i t) := ⟨h.signal, h.actions⟩

/-- The only signal a quiet task takes. -/
theorem Quiet.lowest {sig : Nat} (h : Quiet task) (hs : NeonixSignals.lowest task.map = some sig) :
    sig = SIGCHLD := by
  obtain ⟨h1, hmax, hset, -⟩ := NeonixSignals.lowest_spec hs
  by_contra hne
  rw [h.signal sig h1 hmax hne] at hset
  cases hset

/-- A quiet task goes on, and is quiet. -/
theorem Quiet.deliver {d : NeonixSignals.Delivered} (h : Quiet task)
    (hx : taskSignal task = .ok d) :
    ∃ task', d = .returns task' ∧ Quiet task' := by
  rcases NeonixSignals.taskSignal_cases hx with ⟨-, rfl⟩ | ⟨sig, hs, hcase⟩
  · exact ⟨task, rfl, h⟩
  · have hchld := h.lowest hs
    rcases hcase with ⟨-, ⟨hne, -⟩ | rfl⟩ | ⟨hh, -⟩
    · exact absurd hchld hne
    · refine ⟨_, rfl, fun sig' h1 hmax hne => ?_, h.actions⟩
      show (task.signal &&& ~~~ sigmask sig).getLsbD (sig' - 1) = false
      rw [BitVec.getLsbD_and, h.signal sig' h1 hmax hne, Bool.false_and]
    · exact absurd (h.actions (sig - 1)) hh.2.1

/-- `SIGCHLD` leaves a task quiet. -/
theorem Quiet.chld (h : Quiet task) :
    Quiet { task with signal := task.signal ||| sigmask SIGCHLD } := by
  refine ⟨fun sig h1 hmax hne => ?_, h.actions⟩
  have hle : MAXSIG = 31 := rfl
  have hchld : SIGCHLD = 17 := rfl
  show (task.signal ||| sigmask SIGCHLD).getLsbD (sig - 1) = false
  rw [BitVec.getLsbD_or, h.signal sig h1 hmax hne, NeonixSignals.sigmask_bit (by omega),
    Bool.false_or]
  exact decide_eq_false (by omega)

/-! ## The memory calls -/

/-- The directory and the user of a task. -/
def SameTask (t t' : NeonixMemory.Task) : Prop := t'.pde = t.pde ∧ t'.uid = t.uid

theorem same_sysBrk (brk : Nat) : Ends never (sysBrk m t brk) fun r => SameTask t r.2.2 := by
  refine (Ends.any _).bind fun _ _ => (Ends.any _).bind fun _ _ => (Ends.any _).bind fun _ _ => ?_
  refine Ends.ite (fun _ => ?_) fun _ => Ends.ite (fun _ => ⟨rfl, rfl⟩) fun _ => ⟨rfl, rfl⟩
  exact (Ends.any _).bind fun _ _ => ⟨rfl, rfl⟩

theorem same_sysMmap (addr length prot flags : Nat) :
    Ends never (sysMmap m t addr length prot flags) fun r => SameTask t r.2.2 :=
  (Ends.any _).bind fun _ _ => (Ends.any _).bind fun _ _ => (Ends.any _).bind fun _ _ =>
    (Ends.any _).bind fun _ _ => ⟨rfl, rfl⟩

theorem same_sysMunmap (vaddr length : Nat) :
    Ends never (sysMunmap m t vaddr length) fun r => SameTask t r.2 :=
  (Ends.any _).bind fun _ _ => (Ends.any _).bind fun _ _ => (Ends.any _).bind fun _ _ => ⟨rfl, rfl⟩

theorem same_loadSegment (vaddr count : Nat) (writable : Bool) :
    Ends never (loadSegment m t vaddr count writable) fun r => SameTask t r.2 :=
  (Ends.any _).bind fun _ _ => (Ends.any _).bind fun _ _ => (Ends.any _).bind fun _ _ => ⟨rfl, rfl⟩

theorem ends_running (s : NeonixMemory.State) (i : TaskId) :
    Ends never (running s i) fun t => s.task i = some t := by
  rw [running]
  cases h : s.task i with
  | some t => rfl
  | none => exact id

/-- A memory call changes one task, which keeps its directory and its user. -/
theorem same_exec {mem : NeonixMemory.State} {c : NeonixMemory.Event} (hc : Calls i c) :
    Ends never (NeonixMemory.exec mem c) fun mem' => ∃ t t', mem.task i = some t ∧
      mem'.task = Function.update mem.task i (some t') ∧ SameTask t t' := by
  cases c with
  | brk j addr =>
      obtain rfl : j = i := hc
      exact (ends_running mem j).bind fun t ht => (same_sysBrk addr).bind fun r hr =>
        ⟨t, r.2.2, ht, rfl, hr⟩
  | mmap j addr length prot flags =>
      obtain rfl : j = i := hc
      exact (ends_running mem j).bind fun t ht => (same_sysMmap addr length prot flags).bind
        fun r hr => ⟨t, r.2.2, ht, rfl, hr⟩
  | munmap j addr length =>
      obtain rfl : j = i := hc
      exact (ends_running mem j).bind fun t ht => (same_sysMunmap addr length).bind fun r hr =>
        ⟨t, r.2, ht, rfl, hr⟩
  | execve j =>
      obtain rfl : j = i := hc
      exact (ends_running mem j).bind fun t ht => (same_sysBrk _).bind fun r hr =>
        (Ends.any _).bind fun _ _ => ⟨t, r.2.2, ht, rfl, hr⟩
  | segment j vaddr count writable =>
      obtain rfl : j = i := hc
      exact (ends_running mem j).bind fun t ht => (same_loadSegment vaddr count writable).bind
        fun r hr => ⟨t, r.2, ht, rfl, hr⟩
  | create _ _ => exact absurd hc id
  | toUserMode _ => exact absurd hc id
  | fork _ _ => exact absurd hc id
  | exit _ => exact absurd hc id
  | link _ _ => exact absurd hc id
  | unlink _ _ => exact absurd hc id
  | fault _ _ _ _ => exact absurd hc id
  | store _ _ _ _ => exact absurd hc id
  | storeWindow _ _ _ => exact absurd hc id

/-- A step of the memory keeps it in order. -/
theorem OwnInv.memory {c : NeonixMemory.Event} {mem : NeonixMemory.State} (h : OwnInv s)
    (he : NeonixMemory.Enabled s.mem c) (hl : Listed s.mem c)
    (hx : NeonixMemory.exec s.mem c = .ok mem) : Inv mem ∧ Tidy mem.mem :=
  ⟨((ends_exec h.inv he (listed_not_window hl)).of_ok hx).1, (tidy_exec h.tidy hl).of_ok hx⟩

/-! ## The end of a process -/

/-- The heap without what a task had. -/
def without (heap : Object → Bool) (i : TaskId) : Object → Bool :=
  Function.update (Function.update (Function.update heap (.bits i) false) (.vmap i) false) (.pwd i) false

theorem without_other (heap : Object → Bool) {o : Object} (h : o.owner ≠ i) :
    without heap i o = heap o := by
  have hne : ∀ o', o'.owner = i → o ≠ o' := by
    rintro o' ho rfl
    exact h ho
  rw [without, Function.update_of_ne (hne (.pwd i) rfl), Function.update_of_ne (hne (.vmap i) rfl),
    Function.update_of_ne (hne (.bits i) rfl)]

/-- `task_exit` of a process returns. -/
theorem OwnInv.taskExit (h : OwnInv s) (ht : s.mem.task i = some t) (hp : t.pde ≠ none) :
    ∃ m', (∀ y, y ≠ some i → Unseen y s.mem.mem m') ∧ NeonixMemory.taskExit s.mem i t =
      .ok ({ s.mem with mem := m' }.setTask i none) ∧
      taskExit s i t = .ok { s with
        mem := { s.mem with mem := m' }.setTask i none
        heap := without s.heap i } := by
  obtain ⟨hvmap, hbits, hblock, huid⟩ := h.own i t ht hp
  have hpde : t.pde = some i := (h.inv.own i t ht).resolve_left hp
  have hfree := freePde_returns h.inv.sound h.tidy huid hp
  cases hx : freePde s.mem.mem t.uid t.pde with
  | error e =>
      rw [hx] at hfree
      exact absurd trivial hfree
  | ok m' =>
      rw [hx] at hfree
      have hmem : NeonixMemory.taskExit s.mem i t =
          .ok ({ s.mem with mem := m' }.setTask i none) := by
        rw [NeonixMemory.taskExit, hx]
        rfl
      have hobject : ∀ {heap : Object → Bool} {o : Object}, heap o = true →
          freeObject heap (some o) = .ok (Function.update heap o false) := by
        intro heap o ho
        rw [freeObject, check_pos ho]
        rfl
      refine ⟨m', fun y hy => hfree.2.2 y (by rw [hpde]; exact hy), hmem, ?_⟩
      have hblock' : Function.update s.heap (.bits i) false (.vmap i) = true :=
        (Function.update_of_ne (show Object.vmap i ≠ .bits i from nofun) ..).trans hblock
      have hpwd' : Function.update (Function.update s.heap (.bits i) false) (.vmap i) false (.pwd i) =
          true := by
        rw [Function.update_of_ne (show Object.pwd i ≠ .vmap i from nofun),
          Function.update_of_ne (show Object.pwd i ≠ .bits i from nofun)]
        exact h.pwd i t ht
      rw [NeonixTaskExits.taskExit, hmem, bind_ok, hvmap, Option.map_some, hobject hbits, bind_ok,
        Option.map_some, hobject hblock', bind_ok, hobject hpwd', bind_ok]
      rfl

theorem OwnInv.endsAlone (h : OwnInv s) (ht : s.mem.task i = some t) (hp : t.pde ≠ none) :
    EndsAlone s i t := by
  obtain ⟨m', hu, -, hx⟩ := h.taskExit ht hp
  exact ⟨(h.inv.own i t ht).resolve_left hp, (h.own i t ht hp).1, _, hx, rfl, hu,
    fun _ ho => without_other s.heap ho⟩

/-- The end of one process leaves the others what they have. -/
theorem OwnInv.exit (h : OwnInv s) (ht : s.mem.task i = some t) (hp : t.pde ≠ none)
    (hx : NeonixTaskExits.taskExit s i t = .ok s') : OwnInv s' := by
  obtain ⟨m', -, hmem, hx'⟩ := h.taskExit ht hp
  obtain rfl := Except.ok.inj (hx'.symm.trans hx)
  have hexec : NeonixMemory.exec s.mem (.exit i) =
      .ok ({ s.mem with mem := m' }.setTask i none) := by
    rw [NeonixMemory.exec, running, ht, bind_ok, hmem]
  obtain ⟨hinv, htidy⟩ := h.memory (c := .exit i) trivial trivial hexec
  have hother : ∀ {j u}, Function.update s.mem.task i none j = some u →
      j ≠ i ∧ s.mem.task j = some u := by
    intro j u hj
    by_cases hji : j = i
    · rw [hji, Function.update_self] at hj
      cases hj
    · exact ⟨hji, (Function.update_of_ne hji ..).symm.trans hj⟩
  refine ⟨hinv, htidy, fun j u hj hpu => ?_, fun j u hj => ?_, fun j u hj => ?_, fun j u hj => ?_⟩
  · obtain ⟨hne, hj⟩ := hother hj
    obtain ⟨hvmap, hbits, hblock, huid⟩ := h.own j u hj hpu
    exact ⟨hvmap, (without_other s.heap (o := .bits j) hne).trans hbits,
      (without_other s.heap (o := .vmap j) hne).trans hblock, huid⟩
  · obtain ⟨hne, hj⟩ := hother hj
    exact (without_other s.heap (o := .pwd j) hne).trans (h.pwd j u hj)
  · exact h.first j u (hother hj).2
  · exact h.quiet j u (hother hj).2

/-- A task that is no process is not led to its end. -/
theorem OwnInv.exitsOwn (h : OwnInv s) : ExitsOwn s := by
  intro e i t he ht hexit
  refine h.endsAlone ht ?_
  have hprocess : IsProcess s i → t.pde ≠ none := by
    intro hp hnone
    obtain ⟨u, hu, hsome⟩ := (Option.any_eq_true ..).mp hp
    obtain rfl := Option.some.inj (ht.symm.trans hu)
    rw [hnone] at hsome
    cases hsome
  cases e with
  | deliver k =>
      obtain ⟨-, task, status, hx⟩ := hexit
      intro hnone
      obtain ⟨task', hd, -⟩ := (quiet_signals (t := t) (h.quiet i t ht hnone)).deliver hx
      cases hd
  | fault k vaddr present write =>
      obtain ⟨rfl, -⟩ := hexit
      exact hprocess he
  | exit k =>
      obtain rfl := hexit
      exact hprocess he
  | memory _ _ => exact absurd hexit id
  | toUserMode _ => exact absurd hexit id
  | fork _ _ => exact absurd hexit id
  | kill _ _ _ => exact absurd hexit id
  | ssetmask _ _ => exact absurd hexit id
  | signal _ _ _ _ => exact absurd hexit id
  | sigaction _ _ _ _ => exact absurd hexit id
  | raise _ _ => exact absurd hexit id

/-! ## The steps -/

/-- The signals of a task change: those of a process at will. -/
theorem OwnInv.setSig (h : OwnInv s) (hq : ∀ t, s.mem.task i = some t → t.pde = none → Quiet task) :
    OwnInv (s.setSig i task) := by
  refine ⟨h.inv, h.tidy, h.own, h.pwd, h.first, fun j u hj hnone => ?_⟩
  by_cases hji : j = i
  · have hself : Function.update s.sig i task i = task := Function.update_self ..
    rw [hji] at hj ⊢
    show Quiet (Function.update s.sig i task i)
    rw [hself]
    exact hq u hj hnone
  · show Quiet (Function.update s.sig i task j)
    rw [Function.update_of_ne hji]
    exact h.quiet j u hj hnone

/-- A process may set its signals as it likes. -/
theorem OwnInv.setOwn (h : OwnInv s) (hp : IsProcess s i) : OwnInv (s.setSig i task) := by
  refine h.setSig fun t ht hnone => ?_
  obtain ⟨u, hu, hsome⟩ := (Option.any_eq_true ..).mp hp
  obtain rfl := Option.some.inj (ht.symm.trans hu)
  rw [hnone] at hsome
  cases hsome

/-- One task changes on a memory that is in order, and it is a process. -/
theorem OwnInv.place {mem : NeonixMemory.State} {t' : NeonixMemory.Task}
    {sig : TaskId → NeonixSignals.Task} {vmap : TaskId → Space} {heap : Object → Bool}
    (h : OwnInv s) (hm : Inv mem ∧ Tidy mem.mem)
    (htask : mem.task = Function.update s.mem.task i (some t')) (hp : t'.pde ≠ none)
    (huid : t'.uid ≠ KERNEL_USER) (hsig : ∀ j, j ≠ i → sig j = s.sig j)
    (hvmap : ∀ j, j ≠ i → vmap j = s.vmap j) (hi : vmap i = some i)
    (hheap : ∀ o, o.owner ≠ i → heap o = s.heap o) (hown : ∀ o, o.owner = i → heap o = true) :
    OwnInv ⟨mem, sig, vmap, heap⟩ := by
  have hcases : ∀ {j u}, mem.task j = some u → (j = i ∧ u = t') ∨
      (j ≠ i ∧ s.mem.task j = some u) := by
    intro j u hj
    rw [htask] at hj
    by_cases hji : j = i
    · rw [hji, Function.update_self] at hj
      exact Or.inl ⟨hji, (Option.some.inj hj).symm⟩
    · exact Or.inr ⟨hji, (Function.update_of_ne hji ..).symm.trans hj⟩
  refine ⟨hm.1, hm.2, fun j u hj hpu => ?_, fun j u hj => ?_, fun j u hj h1 => ?_,
    fun j u hj hpu => ?_⟩
  · rcases hcases hj with ⟨rfl, rfl⟩ | ⟨hji, hj⟩
    · exact ⟨hi, hown _ rfl, hown _ rfl, huid⟩
    · obtain ⟨hv, hb, hbl, hu⟩ := h.own j u hj hpu
      exact ⟨(hvmap j hji).trans hv, (hheap (.bits j) hji).trans hb,
        (hheap (.vmap j) hji).trans hbl, hu⟩
  · rcases hcases hj with ⟨rfl, rfl⟩ | ⟨hji, hj⟩
    · exact hown _ rfl
    · exact (hheap (.pwd j) hji).trans (h.pwd j u hj)
  · rcases hcases hj with ⟨rfl, rfl⟩ | ⟨-, hj⟩
    · exact huid
    · exact h.first j u hj h1
  · rcases hcases hj with ⟨rfl, rfl⟩ | ⟨hji, hj⟩
    · exact absurd hpu hp
    · show Quiet (sig j)
      rw [hsig j hji]
      exact h.quiet j u hj hpu

/-- A process: its task and its directory. -/
theorem process_task (hp : IsProcess s i) : ∃ t, s.mem.task i = some t ∧ t.pde ≠ none := by
  obtain ⟨t, ht, hsome⟩ := (Option.any_eq_true ..).mp hp
  refine ⟨t, ht, fun hnone => ?_⟩
  rw [hnone] at hsome
  cases hsome

theorem OwnInv.memoryCall {c : NeonixMemory.Event} {mem : NeonixMemory.State} (h : OwnInv s)
    (hp : IsProcess s i) (hc : Calls i c) (hx : NeonixMemory.exec s.mem c = .ok mem) :
    OwnInv { s with mem := mem } := by
  obtain ⟨t, t', ht, htask, hpde, huid⟩ := (same_exec hc).of_ok hx
  obtain ⟨u, hu, hown⟩ := process_task hp
  obtain rfl := Option.some.inj (ht.symm.trans hu)
  obtain ⟨hv, hb, hbl, hne⟩ := h.own i t ht hown
  have hadmission : NeonixMemory.Enabled s.mem c ∧ Listed s.mem c := by
    cases c with
    | brk | mmap | munmap | execve | segment => exact ⟨trivial, trivial⟩
    | create | toUserMode | fork | exit | link | unlink | fault | store | storeWindow =>
        exact absurd hc id
  refine h.place (h.memory hadmission.1 hadmission.2 hx) htask (by rw [hpde]; exact hown)
    (by rw [huid]; exact hne) (fun _ _ => rfl) (fun _ _ => rfl) hv (fun _ _ => rfl) fun o ho => ?_
  cases o with
  | bits k =>
      obtain rfl : k = i := ho
      exact hb
  | vmap k =>
      obtain rfl : k = i := ho
      exact hbl
  | pwd k =>
      obtain rfl : k = i := ho
      exact h.pwd k t ht

/-- The heap with the bitmap of a new process. -/
theorem OwnInv.toUserMode (h : OwnInv s) (he : Enabled s (.toUserMode i))
    (hx : exec s (.toUserMode i) = .ok s') : OwnInv s' := by
  obtain ⟨mem, hmem, hs⟩ := bind_eq_ok hx
  obtain rfl := Except.ok.inj hs
  have htask : Ends never (NeonixMemory.exec s.mem (.toUserMode i)) fun mem' =>
      ∃ t, s.mem.task i = some t ∧ mem'.task = Function.update s.mem.task i
        (some { t with vmap := userMap, pde := some i }) :=
    (ends_running s.mem i).bind fun t ht => (Ends.any _).bind fun _ _ => ⟨t, ht, rfl⟩
  obtain ⟨t, ht, htask⟩ := htask.of_ok hmem
  refine h.place (h.memory (c := .toUserMode i) he.2 trivial hmem) htask nofun (h.first i t ht he.1) (fun _ _ => rfl)
    (fun j hj => Function.update_of_ne hj ..) (Function.update_self ..) (fun o ho => ?_) fun o ho => ?_
  · have hne : ∀ o', o'.owner = i → o ≠ o' := by
      rintro o' ho' rfl
      exact ho ho'
    rw [Function.update_of_ne (hne (.vmap i) rfl), Function.update_of_ne (hne (.bits i) rfl)]
  · cases o with
    | bits k =>
        obtain rfl : k = i := ho
        rw [Function.update_of_ne (show Object.bits k ≠ .vmap k from nofun), Function.update_self]
    | vmap k =>
        obtain rfl : k = i := ho
        rw [Function.update_self]
    | pwd k =>
        obtain rfl : k = i := ho
        rw [Function.update_of_ne (show Object.pwd k ≠ .vmap k from nofun),
          Function.update_of_ne (show Object.pwd k ≠ .bits k from nofun)]
        exact h.pwd k t ht

theorem OwnInv.fork (h : OwnInv s) (he : Enabled s (.fork i j))
    (hx : exec s (.fork i j) = .ok s') : OwnInv s' := by
  obtain ⟨mem, hmem, hs⟩ := bind_eq_ok hx
  obtain rfl := Except.ok.inj hs
  have htask : Ends never (NeonixMemory.exec s.mem (.fork i j)) fun mem' =>
      ∃ t, s.mem.task i = some t ∧ mem'.task = Function.update s.mem.task j
        (some { t with vmap := { t.vmap with size := PAGE_SIZE }, pde := some j }) :=
    (ends_running s.mem i).bind fun t ht => (Ends.any _).bind fun _ _ => ⟨t, ht, rfl⟩
  obtain ⟨t, ht, htask⟩ := htask.of_ok hmem
  obtain ⟨u, hu, hown⟩ := process_task he.1
  obtain rfl := Option.some.inj (ht.symm.trans hu)
  obtain ⟨-, -, -, huid⟩ := h.own i t ht hown
  refine h.place (h.memory (c := .fork i j) he.2 trivial hmem) htask nofun huid
    (fun k hk => Function.update_of_ne hk ..) (fun k hk => Function.update_of_ne hk ..)
    (Function.update_self ..) (fun o ho => ?_) fun o ho => ?_
  · have hne : ∀ o', o'.owner = j → o ≠ o' := by
      rintro o' ho' rfl
      exact ho ho'
    rw [Function.update_of_ne (hne (.pwd j) rfl), Function.update_of_ne (hne (.vmap j) rfl),
      Function.update_of_ne (hne (.bits j) rfl)]
  · cases o with
    | bits k =>
        obtain rfl : k = j := ho
        rw [Function.update_of_ne (show Object.bits k ≠ .pwd k from nofun),
          Function.update_of_ne (show Object.bits k ≠ .vmap k from nofun), Function.update_self]
    | vmap k =>
        obtain rfl : k = j := ho
        rw [Function.update_of_ne (show Object.vmap k ≠ .pwd k from nofun), Function.update_self]
    | pwd k =>
        obtain rfl : k = j := ho
        rw [Function.update_self]

/-- `sys_kill` that spares the threads. -/
theorem OwnInv.kill {pid sig : Int} (h : OwnInv s) (hg : Spares s (.kill i pid sig)) :
    OwnInv (sysKill s pid sig).1 := by
  rw [sysKill]
  by_cases hsig : sig < MINSIG ∨ sig > MAXSIG
  · rw [if_pos hsig]
    exact h
  rw [if_neg hsig]
  cases hk : getTask s pid with
  | none => exact h
  | some k =>
      dsimp only
      cases ht : s.mem.task k with
      | none => exact h
      | some t =>
          dsimp only
          by_cases hu : t.uid = KERNEL_USER
          · rw [if_pos hu]
            exact h
          rw [if_neg hu]
          by_cases hp : pid = 1
          · rw [if_pos hp]
            exact h
          rw [if_neg hp]
          refine h.setSig fun t' ht' hnone => ?_
          obtain rfl := Option.some.inj (ht.symm.trans ht')
          have hchld : sig = SIGCHLD := hg k t hk ht hnone (by omega) (by omega) hu hp
          rw [hchld]
          exact (h.quiet k t ht hnone).chld

/-- `task_signal` of any task. -/
theorem OwnInv.deliver (h : OwnInv s) (hx : exec s (.deliver i) = .ok s') : OwnInv s' := by
  obtain ⟨t, ht, hd⟩ := bind_eq_ok hx
  have htask : s.mem.task i = some t := (ends_running s.mem i).of_ok ht
  obtain ⟨d, hsig, hs⟩ := bind_eq_ok hd
  cases d with
  | returns task =>
      obtain rfl := Except.ok.inj hs
      refine h.setSig fun t' ht' hnone => ?_
      obtain ⟨task', hret, hq⟩ := (quiet_signals (t := t) (h.quiet i t' ht' hnone)).deliver hsig
      rw [NeonixSignals.Delivered.returns.inj hret]
      exact hq
  | exits task status =>
      have hown : t.pde ≠ none := by
        intro hnone
        obtain ⟨task', hret, -⟩ := (quiet_signals (t := t) (h.quiet i t htask hnone)).deliver hsig
        cases hret
      have hkeep : OwnInv (s.setSig i task) := h.setSig fun t' ht' hnone => by
        rw [Option.some.inj (htask.symm.trans ht')] at hown
        exact absurd hnone hown
      exact hkeep.exit htask hown hs

/-- `page_fault` of a process. -/
theorem OwnInv.fault {vaddr : Nat} {present write : Bool} (h : OwnInv s) (hp : IsProcess s i)
    (hx : exec s (.fault i vaddr present write) = .ok s') : OwnInv s' := by
  obtain ⟨t, ht, hf⟩ := bind_eq_ok hx
  have htask : s.mem.task i = some t := (ends_running s.mem i).of_ok ht
  obtain ⟨u, hu, hown⟩ := process_task hp
  obtain rfl := Option.some.inj (htask.symm.trans hu)
  obtain ⟨r, hr, hs⟩ := bind_eq_ok hf
  cases r with
  | exit => exact h.exit htask hown hs
  | back m =>
      obtain rfl := Except.ok.inj hs
      have hexec : NeonixMemory.exec s.mem (.fault i vaddr present write) =
          .ok { s.mem with mem := m } := by
        rw [NeonixMemory.exec, ht, bind_ok, hr]
        rfl
      obtain ⟨hinv, htidy⟩ := h.memory (c := .fault i vaddr present write) trivial trivial hexec
      exact ⟨hinv, htidy, h.own, h.pwd, h.first, h.quiet⟩

/-- A step that the condition allows. -/
theorem OwnInv.step (h : OwnInv s) (he : Enabled s e) (hg : Spares s e) (hx : exec s e = .ok s') :
    OwnInv s' := by
  cases e with
  | memory i c =>
      obtain ⟨mem, hmem, hs⟩ := bind_eq_ok hx
      obtain rfl := Except.ok.inj hs
      exact h.memoryCall he.1 he.2 hmem
  | toUserMode i => exact h.toUserMode he hx
  | fork i j => exact h.fork he hx
  | kill i pid sig =>
      obtain rfl := Except.ok.inj hx
      exact h.kill hg
  | ssetmask i newmask =>
      obtain rfl := Except.ok.inj hx
      exact h.setOwn he
  | signal i sig handler restorer =>
      obtain rfl := Except.ok.inj hx
      exact h.setOwn he
  | sigaction i sig action oldaction =>
      obtain rfl := Except.ok.inj hx
      exact h.setOwn he
  | raise i sig =>
      obtain rfl := Except.ok.inj hx
      rcases he with rfl | ⟨hp, -⟩
      · exact h.setSig fun t ht hnone => (h.quiet i t ht hnone).chld
      · exact h.setOwn hp
  | deliver i => exact h.deliver hx
  | fault i vaddr present write => exact h.fault he hx
  | exit i =>
      obtain ⟨t, ht, hend⟩ := bind_eq_ok hx
      have htask : s.mem.task i = some t := (ends_running s.mem i).of_ok ht
      obtain ⟨u, hu, hown⟩ := process_task he
      obtain rfl := Option.some.inj (htask.symm.trans hu)
      exact h.exit htask hown hend

/-! ## The threads of `task_init` -/

/-- The three threads, made one after the other. -/
theorem inv_threads {boot : NeonixMemory.State} (h : Boot boot) :
    Inv { boot with task := initThreads } := by
  have hnone : boot.task = fun _ => none := by
    obtain ⟨size, data, -, -, -, rfl⟩ := h
    rfl
  have hfree : ∀ i, boot.task i = none := fun i => congrFun hnone i
  have hother : ∀ (mem : NeonixMemory.State) {i j : TaskId} {t}, i ≠ j → mem.task i = none →
      (mem.setTask j t).task i = none := fun _ _ _ _ hne hi =>
    (Function.update_of_ne hne ..).trans hi
  -- one more thread in a free slot
  have hcreate : ∀ (mem : NeonixMemory.State) (i : TaskId) (uid : Nat), Inv mem →
      mem.task i = none →
      Inv (mem.setTask i (some (newTask uid))) := fun mem i uid hI hi =>
    ((ends_exec hI (e := .create i uid) hi
      (listed_not_window (s := mem) (e := .create i uid) trivial)).of_ok rfl).1
  have h0 := hcreate boot 0 KERNEL_USER (inv_boot h).1 (hfree 0)
  have h1 := hcreate _ 1 NORMAL_USER h0 (hother _ (by decide) (hfree 1))
  have h2 := hcreate _ 2 NORMAL_USER h1
    (hother _ (by decide) (hother _ (by decide) (hfree 2)))
  have htask : Function.update (Function.update (Function.update boot.task 0
      (some (newTask KERNEL_USER))) 1 (some (newTask NORMAL_USER))) 2 (some (newTask NORMAL_USER)) =
      initThreads := by
    rw [hnone]
    funext i
    by_cases h2 : i = 2
    · subst h2
      rfl
    by_cases h1 : i = 1
    · subst h1
      rfl
    by_cases h0 : i = 0
    · subst h0
      rfl
    have hval : i.val ≠ 0 ∧ ¬ (i.val = 1 ∨ i.val = 2) :=
      ⟨fun h => h0 (Fin.ext h), not_or.mpr ⟨fun h => h1 (Fin.ext h), fun h => h2 (Fin.ext h)⟩⟩
    rw [Function.update_of_ne h2, Function.update_of_ne h1, Function.update_of_ne h0, initThreads,
      if_neg hval.1, if_neg hval.2]
  rw [← htask]
  exact h2

/-- No thread has a directory, and its signals are unset. -/
theorem init_own (h : Init s) : OwnInv s := by
  obtain ⟨⟨boot, hboot, hmem⟩, hsig, hvmap, hheap⟩ := h
  have hthread : ∀ {i t}, s.mem.task i = some t → i.val < 3 ∧ t.pde = none ∧
      (i.val = 1 → t.uid = NORMAL_USER) := by
    intro i t ht
    rw [hmem] at ht
    simp only [initThreads] at ht
    split at ht
    · next h0 =>
        obtain rfl := Option.some.inj ht
        exact ⟨by omega, rfl, fun h1 => by omega⟩
    · split at ht
      · next h12 =>
          obtain rfl := Option.some.inj ht
          exact ⟨by omega, rfl, fun _ => rfl⟩
      · cases ht
  refine ⟨?_, ?_, fun i t ht hp => absurd (hthread ht).2.1 hp, fun i t ht => ?_,
    fun i t ht h1 => ?_,
    fun i _ _ _ => ⟨fun sig _ _ _ => ?_, (hsig i).actions⟩⟩
  · rw [hmem]
    exact inv_threads hboot
  · rw [hmem]
    exact (tidy_boot hboot : Tidy boot.mem)
  · rw [hheap]
    exact decide_eq_true ⟨i, (hthread ht).1, rfl⟩
  · rw [(hthread ht).2.2 h1]
    decide
  · rw [(hsig i).signal]
    exact BitVec.getLsbD_zero

/-- While no signal but `SIGCHLD` goes to a task without a directory, `task_exit`
    runs for tasks that have one, and takes what is theirs. -/
theorem exits_own (h : Reach system Spares s) : ExitsOwn s :=
  (h.invariant (fun _ (hs : Init _) => init_own hs) fun _ _ _ hI hg (hstep : Enabled _ _ ∧ _) =>
    hI.step hstep.1 hg hstep.2).exitsOwn

/-! ## A kill of each kind -/

instance (s : State) (i : TaskId) : Decidable (IsProcess s i) :=
  inferInstanceAs (Decidable (_ = true))

instance (i : TaskId) : (e : NeonixMemory.Event) → Decidable (Calls i e)
  | .brk j _ | .mmap j _ _ _ _ | .munmap j _ _ | .execve j | .segment j _ _ _ =>
      inferInstanceAs (Decidable (j = i))
  | .create .. | .toUserMode .. | .fork .. | .exit .. | .link .. | .unlink .. | .fault .. | .store ..
  | .storeWindow .. => .isFalse id

instance (s : State) : (e : Event) → Decidable (Enabled s e)
  | .memory i e => inferInstanceAs (Decidable (IsProcess s i ∧ Calls i e))
  | .toUserMode i => inferInstanceAs (Decidable (i.val = 1 ∧ ∀ t ∈ s.mem.task i, t.pde = none))
  | .fork i j => inferInstanceAs (Decidable (IsProcess s i ∧ s.mem.task j = none))
  | .kill i _ _ | .ssetmask i _ | .signal i _ _ _ | .sigaction i _ _ _ | .fault i _ _ _ | .exit i =>
      inferInstanceAs (Decidable (IsProcess s i))
  | .raise i sig => inferInstanceAs (Decidable (sig = SIGCHLD ∨
      (IsProcess s i ∧ MINSIG ≤ sig ∧ sig ≤ MAXSIG)))
  | .deliver _ => .isTrue trivial

instance (s : State) : (e : Event) → Decidable (Spares s e)
  | .kill _ pid sig => decidable_of_iff (∀ i ∈ getTask s pid, ∀ t ∈ s.mem.task i, t.pde = none →
      MINSIG ≤ sig → sig ≤ MAXSIG → t.uid ≠ KERNEL_USER → pid ≠ 1 → sig = SIGCHLD)
      ⟨fun h i t hi ht => h i hi t ht, fun h i hi t ht => h i t hi ht⟩
  | .memory .. | .toUserMode .. | .fork .. | .ssetmask .. | .signal .. | .sigaction .. | .raise ..
  | .deliver .. | .fault .. | .exit .. => .isTrue trivial

/-- The signals `task_create` gives a task. -/
def newSignals : NeonixSignals.Task where
  uid := 0
  pid := 0
  died := false
  signal := 0
  blocked := 0
  actions := fun _ => ⟨NeonixSignals.SIG_DFL, 0, 0, 0⟩
  iframe := ⟨0, 0, 0, 0, 0, 0⟩
  memory := fun _ => 0

/-- The state after `task_init`, with 16 MB from 1 MB on. -/
def threadState : State where
  mem := { bootState with task := initThreads }
  sig := fun _ => newSignals
  vmap := fun _ => none
  heap := fun o => decide (∃ i : TaskId, i.val < 3 ∧ o = .pwd i)

theorem init_threadState : Init threadState where
  mem := ⟨bootState, boot_bootState, rfl⟩
  sig := fun _ => ⟨rfl, rfl, fun _ => rfl⟩
  vmap := fun _ => rfl
  heap := fun _ => rfl

/-- The first process forks and kills the child. -/
def killRun : List Event := [.toUserMode 1, .fault 1 0xFFFF000 false true, .fork 1 3, .kill 1 3 9]

/-- The next interrupt of the task ends it. -/
def endsNext (s : State) (i : TaskId) (t : NeonixMemory.Task) : Bool :=
  match taskSignal (s.signals i t) with
  | .ok (.exits _ _) => true
  | _ => false

theorem endsNext_leads (h : endsNext s i t = true) : LeadsToExit s i t (.deliver i) := by
  rw [endsNext] at h
  split at h
  · next task status hx => exact ⟨rfl, task, status, hx⟩
  · cases h

/-- The child can be killed, and then the thread in slot 2. -/
theorem reach_killRun : ∃ s, Reach system Spares s ∧
    (∃ t, s.mem.task 3 = some t ∧ endsNext s 3 t = true) ∧
    ∃ s', Reach system free s' ∧ ∃ t, s'.mem.task 2 = some t ∧ t.pde = none ∧
      endsNext s' 2 t = true := by
  have hend : ((follow Spares Enabled exec threadState killRun).any fun s =>
      ((s.mem.task 3).any fun t => endsNext s 3 t) && decide (IsProcess s 1) &&
        ((sysKill s 2 9).1.mem.task 2).any fun t =>
          decide (t.pde = none) && endsNext (sysKill s 2 9).1 2 t) = true := by decide +kernel
  obtain ⟨s, hs, hb⟩ := (Option.any_eq_true ..).mp hend
  rw [Bool.and_eq_true, Bool.and_eq_true, decide_eq_true_eq] at hb
  obtain ⟨⟨hchild, hp⟩, hthread⟩ := hb
  obtain ⟨t, ht, hnext⟩ := (Option.any_eq_true ..).mp hchild
  obtain ⟨t', ht', hb⟩ := (Option.any_eq_true ..).mp hthread
  rw [Bool.and_eq_true, decide_eq_true_eq] at hb
  have hstart : Reach system Spares threadState := Reach.start init_threadState
  have hreach := hstart.follow killRun hs
  have hfree : Reach system free s := hreach.mono fun _ _ _ => trivial
  exact ⟨s, hreach, ⟨t, ht, hnext⟩, _, hfree.step (e := .kill 1 2 9) trivial ⟨hp, rfl⟩, t', ht', hb⟩

theorem exits_own_child : ∃ s t, s.mem.task 3 = some t ∧ EndsAlone s 3 t := by
  obtain ⟨s, hs, ⟨t, ht, hnext⟩, -⟩ := reach_killRun
  exact ⟨s, t, ht, exits_own hs (.deliver 3) 3 t trivial ht (endsNext_leads hnext)⟩

theorem thread_exits : ¬ ∀ s, Reach system free s → ExitsOwn s := by
  intro h
  obtain ⟨-, -, -, s, hs, t, ht, hpde, hnext⟩ := reach_killRun
  have hend := h s hs (.deliver 2) 2 t trivial ht (endsNext_leads hnext)
  cases hpde.symm.trans hend.pde

end NeonixTaskExits
