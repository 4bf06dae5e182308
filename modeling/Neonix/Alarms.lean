import Neonix.LinkedList
import Neonix.SignalMask

/-! # `kernel/alarm.c`: alarm pointers

    `task->alarm` is the address of a timer.  `sys_alarm` frees the timer it
    finds there and adds a new one, the clock frees timers that expired, and
    `task_exit` those of the task; `task_fork` copies the pointer with the rest
    of the task. -/

namespace NeonixAlarms

open NeonixMachine NeonixRuns NeonixLinkedList NeonixSignals
open NeonixTask (sigmask TASK_NR MINSIG MAXSIG KERNEL_USER)
open NeonixSignalMask (sysKill taskFork getTask)

def SIGALRM : Int := 14

/-- `jiffy`, the milliseconds of a tick. -/
def JIFFY : BitVec 32 := 10

/-- `timer_t` with the handler `task_alarm`, at an address. -/
structure Timer where
  addr : Nat
  task : Nat
  expires : BitVec 32
  deriving DecidableEq

structure State where
  tasks : NeonixSignalMask.State
  /-- the `alarm` of the task in a slot -/
  alarm : Nat → Option Nat
  timer_list : List Timer
  jiffies : BitVec 32

/-- `timer_put`; a timer that was freed is on no list. -/
def timerPut (list : List Timer) (addr : Nat) : Res (List Timer) :=
  if addr ∈ list.map Timer.addr then .ok (list.filter fun timer => timer.addr ≠ addr)
  else .error .outOfBounds

/-- `timer_add(expire_ms, task_alarm, 0)` of a timer at an address. -/
def timerAdd (jiffies : BitVec 32) (list : List Timer) (t addr : Nat) (expire_ms : BitVec 32) :
    List Timer :=
  insertSort (fun timer => timer.expires.toInt)
    { addr := addr, task := t, expires := jiffies + expire_ms / JIFFY } list

/-- `sys_alarm`, where `kmalloc` gives this address. -/
def sysAlarm (s : State) (t : Nat) (sec : BitVec 32) (addr : Nat) : Res State := do
  let list ← match s.alarm t with
    | none => Except.ok s.timer_list
    | some alarm => timerPut s.timer_list alarm
  return { s with
    timer_list := timerAdd s.jiffies list t addr (sec * 1000)
    alarm := Function.update s.alarm t (some addr) }

/-- `task_alarm`. -/
def taskAlarm (s : State) (timer : Timer) : Res State :=
  match s.tasks.task_table timer.task with
  | none => .error .outOfBounds
  | some task =>
      .ok { s with
        alarm := Function.update s.alarm timer.task none
        tasks := (sysKill s.tasks task.pid SIGALRM).1 }

/-- The loop of `timer_wakeup`.  With an empty list `timer_expires` returns `EOF`,
    and the head of the list is no timer. -/
def timerWakeup : List Timer → State → Res State
  | [], s => if EOF ≤ s.jiffies then .error .outOfBounds else .ok { s with timer_list := [] }
  | timer :: rest, s =>
      if timer.expires ≤ s.jiffies then do
        let s ← taskAlarm s timer
        timerWakeup rest s
      else .ok { s with timer_list := timer :: rest }

/-- `timer_remove`. -/
def timerRemove (list : List Timer) (t : Nat) : List Timer :=
  list.filter fun timer => timer.task ≠ t

/-- The slot `get_free_task` takes. -/
def freeSlot (s : State) : Option Nat :=
  (List.range TASK_NR).find? fun i => (s.tasks.task_table i).isNone

inductive Event where
  /-- `sys_alarm`, with the address of the new timer -/
  | alarm (t : Nat) (sec : BitVec 32) (addr : Nat)
  | fork (t : Nat)
  | exit (t : Nat)
  /-- `task_waitpid` empties the slot of a dead task -/
  | reap (t : Nat)
  /-- `jiffies++` and `timer_wakeup` of the clock interrupt -/
  | tick

/-- The step of an event that can happen. -/
def exec (s : State) : Event → Res State
  | .alarm t sec addr => sysAlarm s t sec addr
  | .fork t =>
      match s.tasks.task_table t, freeSlot s with
      | none, _ => .error .outOfBounds
      | _, none => .error .panic
      | some task, some child => do
          return { s with
            tasks := ← taskFork s.tasks task
            alarm := Function.update s.alarm child (s.alarm t) }
  | .exit t =>
      match s.tasks.task_table t with
      | none => .error .outOfBounds
      | some task =>
          .ok { s with
            tasks := s.tasks.put t (some { task with died := true })
            timer_list := timerRemove s.timer_list t }
  | .reap t => .ok { s with tasks := s.tasks.put t none }
  | .tick => timerWakeup s.timer_list { s with jiffies := s.jiffies + 1 }

/-- A task that has not ended is in the slot. -/
def Live (s : NeonixSignalMask.State) (t : Nat) : Prop :=
  ((s.task_table t).any fun task => !task.died) = true

instance (s : NeonixSignalMask.State) (t : Nat) : Decidable (Live s t) :=
  inferInstanceAs (Decidable (_ = _))

/-- When an event can happen; `kmalloc` gives no address in use, but it may give
    the one just freed. -/
def Enabled (s : State) : Event → Prop
  | .alarm t _ addr =>
      Live s.tasks t ∧ ∀ timer ∈ s.timer_list, timer.addr = addr → s.alarm t = some addr
  | .fork t | .exit t => Live s.tasks t
  | .reap t => ((s.tasks.task_table t).any fun task => task.died) = true
  | .tick => True

instance (s : State) : (e : Event) → Decidable (Enabled s e)
  | .alarm _ _ _ => inferInstanceAs (Decidable (_ ∧ _))
  | .fork t | .exit t => inferInstanceAs (Decidable (Live s.tasks t))
  | .reap _ => inferInstanceAs (Decidable (_ = _))
  | .tick => inferInstanceAs (Decidable True)

/-- Any tasks, no timer yet. -/
structure Init (s : State) : Prop where
  alarm : ∀ t, s.alarm t = none
  timer_list : s.timer_list = []

def system : System State Event := execSystem Init Enabled exec

/-- The alarm of a live task is a timer on the list, and its own. -/
def AlarmsSound (s : State) : Prop :=
  ∀ t addr, Live s.tasks t → s.alarm t = some addr →
    ∃ timer ∈ s.timer_list, timer.addr = addr ∧ timer.task = t

/-- A task forks only without an alarm. -/
def ForksWithout (s : State) : Event → Prop
  | .fork t => s.alarm t = none
  | .alarm _ _ _ | .exit _ | .reap _ | .tick => True

instance (s : State) : (e : Event) → Decidable (ForksWithout s e)
  | .fork _ => inferInstanceAs (Decidable (_ = _))
  | .alarm _ _ _ | .exit _ | .reap _ | .tick => inferInstanceAs (Decidable True)

/-! ## The invariant -/

/-- The timers are those of the live tasks that have an alarm, one each. -/
structure Paired (s : State) : Prop where
  nodup : (s.timer_list.map Timer.addr).Nodup
  owner : ∀ timer ∈ s.timer_list, Live s.tasks timer.task ∧ s.alarm timer.task = some timer.addr
  sound : AlarmsSound s

variable {s s' : State} {tasks : NeonixSignalMask.State} {e : Event} {t u addr : Nat}
    {timer : Timer}
  {list : List Timer}

theorem init_paired (h : Init s) : Paired s := by
  refine ⟨?_, ?_, ?_⟩
  · rw [h.timer_list]
    exact List.nodup_nil
  · intro timer ht
    rw [h.timer_list] at ht
    cases ht
  · intro t addr _ ha
    rw [h.alarm t] at ha
    cases ha

theorem live_put {task : Option Task} : Live (tasks.put u task) t ↔
    if t = u then (task.any fun task => !task.died) = true else Live tasks t := by
  rw [Live, NeonixSignalMask.State.put]
  by_cases h : t = u
  · rw [h, if_pos rfl]
    show ((Function.update tasks.task_table u task u).any _) = true ↔ _
    rw [Function.update_self]
  · rw [if_neg h]
    show ((Function.update tasks.task_table u task t).any _) = true ↔ _
    rw [Function.update_of_ne h, Live]

/-- A store of a task that lives as long as the old one. -/
theorem live_put_same {old new : Task} (h : tasks.task_table u = some old)
    (hd : new.died = old.died) : Live (tasks.put u (some new)) t ↔ Live tasks t := by
  rw [live_put]
  by_cases ht : t = u
  · rw [if_pos ht, ht, Live, h, Option.any_some, Option.any_some, hd]
  · rw [if_neg ht]

/-- A signal ends nobody at once. -/
theorem sysKill_live {pid sig : Int} : Live (sysKill tasks pid sig).1 t ↔ Live tasks t := by
  rw [sysKill]
  by_cases hsig : sig < MINSIG ∨ sig > MAXSIG
  · rw [if_pos hsig]
  rw [if_neg hsig]
  cases hi : getTask tasks pid with
  | none => rfl
  | some i =>
      dsimp only
      cases ht : tasks.task_table i with
      | none => rfl
      | some task =>
          dsimp only
          by_cases hu : task.uid = KERNEL_USER
          · rw [if_pos hu]
          rw [if_neg hu]
          by_cases hp : task.pid = 1
          · rw [if_pos hp]
          rw [if_neg hp]
          exact live_put_same ht rfl

/-- Two timers of the list at one address are one. -/
theorem Paired.unique (h : Paired s) {x y : Timer} (hx : x ∈ s.timer_list) (hy : y ∈ s.timer_list)
    (ha : x.addr = y.addr) : x = y := List.inj_on_of_nodup_map h.nodup hx hy ha

/-- An alarm can be put away. -/
theorem Paired.alarmPut (h : Paired s) (ht : Live s.tasks t) (ha : s.alarm t = some addr) :
    timerPut s.timer_list addr = .ok (s.timer_list.filter fun timer => timer.addr ≠ addr) := by
  obtain ⟨timer, hmem, hat, -⟩ := h.sound t addr ht ha
  exact if_pos (List.mem_map.mpr ⟨timer, hmem, hat⟩)

/-- A new timer for a task whose old one is gone. -/
theorem Paired.add {jiffies ms : BitVec 32} (h : Paired s) (ht : Live s.tasks t)
    (hnodup : (list.map Timer.addr).Nodup)
    (hlist : ∀ timer, timer ∈ list ↔ timer ∈ s.timer_list ∧ timer.task ≠ t)
    (hfresh : ∀ timer ∈ list, timer.addr ≠ addr) :
    Paired { s with
      timer_list := timerAdd jiffies list t addr ms
      alarm := Function.update s.alarm t (some addr) } := by
  have hmem : ∀ {timer}, timer ∈ timerAdd jiffies list t addr ms ↔
      timer = { addr := addr, task := t, expires := jiffies + ms / JIFFY } ∨ timer ∈ list :=
    mem_insertSort
  refine ⟨?_, fun timer htimer => ?_, fun u alarm hu ha => ?_⟩
  · have hperm := (insertSort_perm (fun timer : Timer => timer.expires.toInt)
      { addr := addr, task := t, expires := jiffies + ms / JIFFY } list).map Timer.addr
    refine hperm.nodup_iff.mpr (List.nodup_cons.mpr ⟨fun hx => ?_, hnodup⟩)
    obtain ⟨timer, htimer, ha⟩ := List.mem_map.mp hx
    exact hfresh timer htimer ha
  · rcases hmem.mp htimer with rfl | hold
    · exact ⟨ht, Function.update_self ..⟩
    · obtain ⟨hin, hne⟩ := (hlist timer).mp hold
      exact ⟨(h.owner timer hin).1, (Function.update_of_ne hne ..).trans (h.owner timer hin).2⟩
  · by_cases hut : u = t
    · refine ⟨_, hmem.mpr (Or.inl rfl), ?_, hut.symm⟩
      have hself : Function.update s.alarm t (some addr) t = some addr := Function.update_self ..
      rw [hut] at ha
      exact Option.some.inj (hself.symm.trans ha)
    · obtain ⟨timer, hin, haddr, htask⟩ :=
        h.sound u alarm hu ((Function.update_of_ne hut ..).symm.trans ha)
      exact ⟨timer, hmem.mpr (Or.inr ((hlist timer).mpr ⟨hin, htask ▸ hut⟩)), haddr, htask⟩

/-- `sys_alarm`. -/
theorem Paired.alarm {sec : BitVec 32} (h : Paired s) (he : Enabled s (.alarm t sec addr))
    (hx : sysAlarm s t sec addr = .ok s') : Paired s' := by
  obtain ⟨ht, hfree⟩ := he
  rw [sysAlarm] at hx
  cases ha : s.alarm t with
  | none =>
      rw [ha] at hx
      obtain rfl := Except.ok.inj hx
      refine h.add ht h.nodup (fun timer => ⟨fun hin => ⟨hin, ?_⟩, fun hin => hin.1⟩) ?_
      · rintro rfl
        cases ha.symm.trans (h.owner timer hin).2
      · intro timer hin haddr
        cases ha.symm.trans (hfree timer hin haddr)
  | some old =>
      rw [ha] at hx
      obtain ⟨list, hput, hs⟩ := bind_eq_ok hx
      obtain rfl := Except.ok.inj ((h.alarmPut ht ha).symm.trans hput)
      obtain rfl := Except.ok.inj hs
      have hmem : ∀ timer, timer ∈ (s.timer_list.filter fun timer => timer.addr ≠ old) ↔
          timer ∈ s.timer_list ∧ timer.addr ≠ old := by
        intro timer
        rw [List.mem_filter, decide_eq_true_eq]
      refine h.add ht (h.nodup.sublist (List.filter_sublist.map _)) (fun timer => ?_)
        fun timer hin haddr => ?_
      · rw [hmem]
        refine and_congr_right fun hin => not_congr ?_
        constructor
        · -- the timer at that address is the task's own
          intro haddr
          obtain ⟨own, hown, hat, htask⟩ := h.sound t old ht ha
          rw [h.unique hin hown (haddr.trans hat.symm), htask]
        · rintro rfl
          exact Option.some.inj ((h.owner timer hin).2.symm.trans ha)
      · obtain ⟨hin, hne⟩ := (hmem timer).mp hin
        exact hne (haddr.trans (Option.some.inj ((hfree timer hin haddr).symm.trans ha)))

/-- `task_alarm` of the first timer, which then leaves the list. -/
theorem Paired.taskAlarm (h : Paired { s with timer_list := timer :: list })
    (hx : taskAlarm s timer = .ok s') : Paired { s' with timer_list := list } := by
  rw [NeonixAlarms.taskAlarm] at hx
  cases ht : s.tasks.task_table timer.task with
  | none =>
      rw [ht] at hx
      cases hx
  | some task =>
      rw [ht] at hx
      obtain rfl := Except.ok.inj hx
      obtain ⟨hfirst, hnodup⟩ := List.nodup_cons.mp h.nodup
      -- another timer is at another address, so it is another task's
      have hother : ∀ x ∈ list, x.task ≠ timer.task := by
        intro x hin htask
        have hx := (h.owner x (List.mem_cons_of_mem _ hin)).2
        have hy := (h.owner timer List.mem_cons_self).2
        rw [htask] at hx
        have haddr := Option.some.inj (hx.symm.trans hy)
        exact hfirst (List.mem_map.mpr ⟨x, hin, haddr⟩)
      refine ⟨hnodup, fun x hin => ?_, fun u alarm hu ha => ?_⟩
      · obtain ⟨hlive, halarm⟩ := h.owner x (List.mem_cons_of_mem _ hin)
        exact ⟨sysKill_live.mpr hlive, (Function.update_of_ne (hother x hin) ..).trans halarm⟩
      · by_cases hut : u = timer.task
        · rw [hut] at ha
          cases (Function.update_self ..).symm.trans ha
        · obtain ⟨x, hin, haddr, htask⟩ := h.sound u alarm (sysKill_live.mp hu)
            ((Function.update_of_ne hut ..).symm.trans ha)
          rcases List.mem_cons.mp hin with rfl | hin
          · exact absurd htask.symm hut
          · exact ⟨x, hin, haddr, htask⟩

/-- The loop of `timer_wakeup`, for the timers it has left. -/
theorem timerWakeup_paired (h : Paired { s with timer_list := list })
    (hx : timerWakeup list s = .ok s') : Paired s' := by
  induction list generalizing s with
  | nil =>
      rw [timerWakeup] at hx
      by_cases hend : EOF ≤ s.jiffies
      · rw [if_pos hend] at hx
        cases hx
      · rw [if_neg hend] at hx
        obtain rfl := Except.ok.inj hx
        exact h
  | cons timer rest ih =>
      rw [timerWakeup] at hx
      by_cases hdue : timer.expires ≤ s.jiffies
      · rw [if_pos hdue] at hx
        obtain ⟨next, halarm, hrest⟩ := bind_eq_ok hx
        exact ih (h.taskAlarm halarm) hrest
      · rw [if_neg hdue] at hx
        obtain rfl := Except.ok.inj hx
        exact h

/-- `task_exit` takes the timers of the task along. -/
theorem Paired.exit (h : Paired s) (hx : exec s (.exit t) = .ok s') : Paired s' := by
  rw [exec] at hx
  cases ht : s.tasks.task_table t with
  | none =>
      rw [ht] at hx
      cases hx
  | some task =>
      rw [ht] at hx
      obtain rfl := Except.ok.inj hx
      have hmem : ∀ timer, timer ∈ timerRemove s.timer_list t ↔
          timer ∈ s.timer_list ∧ timer.task ≠ t := by
        intro timer
        rw [timerRemove, List.mem_filter, decide_eq_true_eq]
      refine ⟨h.nodup.sublist (List.filter_sublist.map _), fun timer hin => ?_,
        fun u alarm hu ha => ?_⟩
      · obtain ⟨hin, hne⟩ := (hmem timer).mp hin
        refine ⟨?_, (h.owner timer hin).2⟩
        rw [live_put, if_neg hne]
        exact (h.owner timer hin).1
      · rw [live_put] at hu
        by_cases hut : u = t
        · rw [if_pos hut] at hu
          cases hu
        · rw [if_neg hut] at hu
          obtain ⟨timer, hin, haddr, htask⟩ := h.sound u alarm hu ha
          exact ⟨timer, (hmem timer).mpr ⟨hin, htask ▸ hut⟩, haddr, htask⟩

/-- A task that is gone had no timer. -/
theorem Paired.reap (h : Paired s) (he : Enabled s (.reap t)) :
    Paired { s with tasks := s.tasks.put t none } := by
  have hdead : ¬ Live s.tasks t := by
    intro hl
    obtain ⟨task, ht, hd⟩ := (Option.any_eq_true ..).mp he
    rw [Live, ht, Option.any_some, hd] at hl
    cases hl
  refine ⟨h.nodup, fun timer hin => ?_, fun u alarm hu ha => ?_⟩
  · obtain ⟨hlive, halarm⟩ := h.owner timer hin
    have hne : timer.task ≠ t := fun hx => hdead (hx ▸ hlive)
    refine ⟨?_, halarm⟩
    rw [live_put, if_neg hne]
    exact hlive
  · rw [live_put] at hu
    by_cases hut : u = t
    · rw [if_pos hut] at hu
      cases hu
    · rw [if_neg hut] at hu
      exact h.sound u alarm hu ha

/-- What `task_fork` did when it returned. -/
theorem fork_cases (he : Enabled s (.fork t)) (hx : exec s (.fork t) = .ok s') :
    ∃ task child, s.tasks.task_table child = none ∧ task.died = false ∧
      s' = { s with
        tasks := s.tasks.put child (some task)
        alarm := Function.update s.alarm child (s.alarm t) } := by
  obtain ⟨task, ht, hlive⟩ := (Option.any_eq_true ..).mp he
  rw [exec, ht] at hx
  cases hfree : freeSlot s with
  | none =>
      rw [hfree] at hx
      cases hx
  | some child =>
      rw [hfree] at hx
      obtain ⟨tasks, hfork, hs⟩ := bind_eq_ok hx
      have hempty := List.find?_some hfree
      rw [taskFork, show (List.range TASK_NR).find? (fun i => (s.tasks.task_table i).isNone) =
        some child from hfree] at hfork
      obtain rfl := Except.ok.inj hfork
      obtain rfl := Except.ok.inj hs
      exact ⟨_, child, Option.isNone_iff_eq_none.mp hempty, by simpa using hlive, rfl⟩

/-- `task_fork` of a task without an alarm. -/
theorem Paired.fork (h : Paired s) (he : Enabled s (.fork t)) (ha : s.alarm t = none)
    (hx : exec s (.fork t) = .ok s') : Paired s' := by
  obtain ⟨task, child, hempty, -, rfl⟩ := fork_cases he hx
  refine ⟨h.nodup, fun timer hin => ?_, fun u alarm hu hua => ?_⟩
  · obtain ⟨hlive, halarm⟩ := h.owner timer hin
    -- the slot was empty, so no timer is its
    have hne : timer.task ≠ child := by
      rintro rfl
      rw [Live, hempty] at hlive
      cases hlive
    refine ⟨?_, (Function.update_of_ne hne ..).trans halarm⟩
    rw [live_put, if_neg hne]
    exact hlive
  · by_cases huc : u = child
    · have hself : Function.update s.alarm child (s.alarm t) child = s.alarm t :=
        Function.update_self ..
      rw [huc] at hua
      cases (hself.trans ha).symm.trans hua
    · rw [live_put, if_neg huc] at hu
      exact h.sound u alarm hu ((Function.update_of_ne huc ..).symm.trans hua)

/-- The child of a task with an alarm points to a timer that is not its own. -/
theorem Paired.fork_unsound (h : Paired s) (he : Enabled s (.fork t))
    (hx : exec s (.fork t) = .ok s') (hs : AlarmsSound s') : s.alarm t = none := by
  obtain ⟨task, child, hempty, hdied, rfl⟩ := fork_cases he hx
  cases ha : s.alarm t with
  | none => rfl
  | some addr =>
      have hself : Function.update s.alarm child (s.alarm t) child = s.alarm t :=
        Function.update_self ..
      have hlive : Live (s.tasks.put child (some task)) child := by
        rw [live_put, if_pos rfl, Option.any_some, hdied]
        rfl
      obtain ⟨timer, hin, -, htask⟩ := hs child addr hlive (hself.trans ha)
      have howner := (h.owner timer hin).1
      rw [htask, Live, hempty] at howner
      cases howner

/-- A step that the condition allows. -/
theorem Paired.step (h : Paired s) (he : Enabled s e) (hg : ForksWithout s e)
    (hx : exec s e = .ok s') : Paired s' := by
  cases e with
  | alarm t sec addr => exact h.alarm he hx
  | fork t => exact h.fork he hg hx
  | exit t => exact h.exit hx
  | reap t =>
      obtain rfl := Except.ok.inj hx
      exact h.reap he
  | tick =>
      have hstart : Paired { { s with jiffies := s.jiffies + 1 } with timer_list := s.timer_list } :=
        ⟨h.nodup, h.owner, h.sound⟩
      exact timerWakeup_paired hstart hx

/-- In every run in which only tasks without an alarm fork, the alarm of a live
    task is its own timer on the list; and the next step keeps it so exactly where
    it is no fork of a task with an alarm. -/
theorem alarms_sound (h : Reach system ForksWithout s) :
    AlarmsSound s ∧
      ∀ e s', Enabled s e → exec s e = .ok s' → (AlarmsSound s' ↔ ForksWithout s e) := by
  have hpaired : Paired s := by
    refine h.invariant (fun s (hs : Init s) => init_paired hs) fun s e s' hs hg hstep => ?_
    exact hs.step hstep.1 hg hstep.2
  refine ⟨hpaired.sound, fun e s' he hx => ⟨fun hs => ?_, fun hg => (hpaired.step he hg hx).sound⟩⟩
  cases e with
  | fork t => exact hpaired.fork_unsound he hx hs
  | alarm _ _ _ => trivial
  | exit _ => trivial
  | reap _ => trivial
  | tick => trivial

/-! ## Two runs -/

def oneTask : State where
  tasks := NeonixSignalMask.oneTask
  alarm _ := none
  timer_list := []
  jiffies := 0

theorem oneTask_init : Init oneTask := ⟨fun _ => rfl, rfl⟩

/-- A task forks, sets its alarm twice and exits; the child waits for its own. -/
def aloneRun : List Event :=
  [.fork 3, .alarm 3 1 7, .alarm 3 1 7, .exit 3, .reap 3, .alarm 0 0 8, .tick]

theorem alarms_sound_alone : ∃ s, follow ForksWithout Enabled exec oneTask aloneRun = some s ∧
    AlarmsSound s := by
  have hrun : (follow ForksWithout Enabled exec oneTask aloneRun).isSome = true := by decide +kernel
  obtain ⟨s, hs⟩ := Option.isSome_iff_exists.mp hrun
  have hstart : Reach system ForksWithout oneTask := Reach.start oneTask_init
  exact ⟨s, hs, (alarms_sound (hstart.follow aloneRun hs)).1⟩

/-- A task with an alarm forks. -/
def sharedRun : List Event := [.alarm 3 1 7, .fork 3]

theorem alarm_shared : ¬ ∀ s, Reach system free s → AlarmsSound s := by
  intro h
  have hend : ((follow free Enabled exec oneTask sharedRun).any fun s =>
    decide (Live s.tasks 0 ∧ s.alarm 0 = some 7) && s.timer_list.all fun timer => timer.task ≠ 0)
      = true := by decide +kernel
  obtain ⟨s, hs, hb⟩ := (Option.any_eq_true ..).mp hend
  rw [Bool.and_eq_true, decide_eq_true_eq, List.all_eq_true] at hb
  obtain ⟨⟨hlive, ha⟩, hnone⟩ := hb
  have hstart : Reach system free oneTask := Reach.start oneTask_init
  obtain ⟨timer, hin, -, htask⟩ := h s (hstart.follow sharedRun hs) 0 7 hlive ha
  exact of_decide_eq_true (hnone timer hin) htask

end NeonixAlarms
