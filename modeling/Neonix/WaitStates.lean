import Mathlib.Data.List.Nodup
import Mathlib.Data.List.Perm.Subperm
import Neonix.WaitLists

/-! # A task waits exactly while its node is on a list

    A list operation of the scheduler is an operation on the lists the pointers
    represent, and it goes with a store to a task state: a task that blocks is on no
    list before and on one afterwards, a task that is woken is on none.  A wake-up
    may come late, twice or for a task that never waited: it takes the node off
    where there is something to take off. -/

namespace NeonixWaitStates

open NeonixMachine NeonixOutcome NeonixTask NeonixTaskSpecs NeonixProcesses NeonixRuns
  NeonixLinkedNodes NeonixWaitLists

/-- The states of a task that waits. -/
def Waits : TaskState → Bool
  | .blocked | .sleeping | .waiting => true
  | .init | .running | .ready | .died => false

/-- Whether the task of a slot waits. -/
def waiting (s : Sched) (i : Nat) : Option Bool := (s.proc i).map fun p => Waits p.state

/-- The lists `L` are those of the pointers, and on them are the tasks that wait. -/
structure Listed (L : WaitList → List Nat) (s : NeonixWaitLists.State) : Prop where
  lists : Represents s.nodes L
  waits : ∀ i, waiting s.sched i = some true ↔ ∃ l, i ∈ L l
  idle : waiting s.sched idle_task ≠ some true
  slots : ∀ i, waiting s.sched i ≠ none → i < TASK_NR

/-- Between two steps: the running task does not wait. -/
def Matched (s : NeonixWaitLists.State) : Prop :=
  (∃ L, Listed L s) ∧ waiting s.sched s.sched.current ≠ some true

variable {L : WaitList → List Nat} {s t : NeonixWaitLists.State} {k k' : Sched} {n : WaitNodes}
  {i j : Nat} {policy : Policy}

/-- A reason to stop the claim is about. -/
def atLink : Fault → Prop := fun e => e = .link

theorem ends_lift {α : Type} {r : Res α} {Q : α → Prop} (h : ∀ a, r = .ok a → Q a) :
    Ends atLink (lift r) Q := by
  cases r with
  | error e => exact nofun
  | ok a => exact h a rfl

theorem ends_assertLink {p : Prop} [Decidable p] {Q : Unit → Prop} (hp : p) (hQ : Q ()) :
    Ends atLink (assertLink p) Q := by
  rw [assertLink, if_pos hp]
  exact hQ

theorem ends_listOp {α : Type} {r : Option α} {Q : α → Prop} (h : ∃ a, r = some a ∧ Q a) :
    Ends atLink (listOp r) Q := by
  obtain ⟨a, rfl, ha⟩ := h
  exact ha

/-! ## Stores to the tasks -/

theorem waiting_map {f : Nat → Proc → Proc} (h : ∀ j, k'.proc j = (k.proc j).map (f j)) (j : Nat) :
    waiting k' j = (k.proc j).map fun p => Waits (f j p).state := by
  rw [waiting, h, Option.map_map]
  rfl

/-- A store that leaves the states. -/
theorem waiting_same {f : Nat → Proc → Proc} (h : ∀ j, k'.proc j = (k.proc j).map (f j))
    (hf : ∀ j p, k.proc j = some p → Waits (f j p).state = Waits p.state) (j : Nat) :
    waiting k' j = waiting k j := by
  rw [waiting_map h, waiting]
  cases hp : k.proc j with
  | none => rfl
  | some p => exact congrArg some (hf j p hp)

/-- The lists depend on who waits only. -/
theorem Listed.congr (h : Listed L s) (hw : ∀ j, waiting k j = waiting s.sched j) :
    Listed L { s with sched := k } := by
  refine ⟨h.lists, fun i => ?_, ?_, fun i hi => ?_⟩
  · show waiting k i = some true ↔ _
    rw [hw]
    exact h.waits i
  · show waiting k idle_task ≠ some true
    rw [hw]
    exact h.idle
  · change waiting k i ≠ none at hi
    rw [hw] at hi
    exact h.slots i hi

theorem Matched.congr (h : Matched s) (hw : ∀ j, waiting k j = waiting s.sched j)
    (hc : k.current = s.sched.current) : Matched { s with sched := k } := by
  obtain ⟨⟨L, hL⟩, hrun⟩ := h
  refine ⟨⟨L, hL.congr hw⟩, ?_⟩
  show waiting k k.current ≠ some true
  rw [hc, hw]
  exact hrun

/-- Who is on a list waits, and the others are on none. -/
theorem Listed.unlinked (h : Listed L s) (hi : waiting s.sched i ≠ some true) :
    Unlinked s.nodes i ∧ ∀ l, i ∉ L l := by
  have hno : ∀ l, i ∉ L l := fun l hl => hi ((h.waits i).mpr ⟨l, hl⟩)
  exact ⟨h.lists.alone i hno, hno⟩

/-- A list has less nodes than `list_search` has turns. -/
theorem Listed.length_lt (h : Listed L s) (l : WaitList) : (L l).length < turns := by
  have hsub : L l ⊆ List.range TASK_NR := by
    intro i hi
    refine List.mem_range.mpr (h.slots i fun hnone => ?_)
    rw [(h.waits i).mpr ⟨l, hi⟩] at hnone
    cases hnone
  have hle := (List.subperm_of_subset (h.lists.nodup l) hsub).length_le
  rw [List.length_range] at hle
  exact Nat.lt_succ_of_le hle

/-! ## `schedule` -/

/-- The task that runs next does not wait. -/
theorem Listed.picked (h : Listed L s) : waiting s.sched (policy.pick s.sched) ≠ some true := by
  rcases canPick_proc (policy.canPick s.sched) with ⟨-, -, p, hp, hready⟩ | hidle
  · rw [waiting, hp]
    show some (Waits p.state) ≠ some true
    rw [hready]
    exact nofun
  · rw [hidle]
    exact h.idle

theorem Listed.scheduled (h : Listed L s) :
    Matched { s with sched := schedule s.sched policy } := by
  have hsame : ∀ j, waiting (schedule s.sched policy) j = waiting s.sched j := by
    refine waiting_same (proc_schedule policy) fun j p hp => ?_
    by_cases hj : j = policy.pick s.sched
    · have hno : waiting s.sched (policy.pick s.sched) ≠ some true := h.picked
      rw [← hj, waiting, hp] at hno
      simp only [if_pos hj]
      cases hw : Waits p.state with
      | true => exact absurd (congrArg some hw) hno
      | false => rfl
    · by_cases hrun : j = s.sched.current ∧ p.state = .running
      · simp only [if_neg hj, if_pos hrun]
        rw [hrun.2]
        rfl
      · simp only [if_neg hj, if_neg hrun]
  refine ⟨⟨L, h.congr hsame⟩, ?_⟩
  show waiting (schedule s.sched policy) (policy.pick s.sched) ≠ some true
  rw [hsame]
  exact h.picked

/-! ## `task_block` and `task_unblock` -/

theorem taskBlock_matched {list : WaitList} {state : TaskState} (h : Matched s)
    (hidle : s.sched.current ≠ idle_task) (hstate : Waits state = true) :
    Ends atLink (taskBlock s list state policy) Matched := by
  obtain ⟨⟨L, hL⟩, hrun⟩ := h
  obtain ⟨hunlinked, hno⟩ := hL.unlinked hrun
  refine Ends.bind (ends_lift (Q := fun task => s.sched.task_table s.sched.current = some task)
    fun task htask => runningTask_eq.mp htask) fun task htask => ?_
  refine Ends.bind (ends_assertLink (Q := fun _ => True) hunlinked trivial) fun _ _ => ?_
  refine Ends.bind (ends_lift (Q := fun _ => True) fun _ _ => trivial) fun _ _ => ?_
  refine Ends.bind (ends_listOp (hL.lists.push hno (hL.length_lt list))) fun nodes hnodes => ?_
  have hproc := proc_of_task htask
  have hw : ∀ j, waiting (s.sched.modify s.sched.current fun t => { t with state := state }) j =
      if j = s.sched.current then some true else waiting s.sched j := by
    intro j
    rw [waiting_map (proc_modify (fun p => { p with state := state }) fun _ => rfl), waiting]
    by_cases hj : j = s.sched.current
    · simp only [if_pos hj]
      rw [hj, hproc]
      exact congrArg some hstate
    · simp only [if_neg hj]
  refine Listed.scheduled (L := Function.update L list (s.sched.current :: L list))
    (s := { sched := s.sched.modify s.sched.current _, nodes := nodes }) ⟨hnodes, fun i => ?_, ?_, ?_⟩
  · show waiting _ i = some true ↔ _
    rw [hw]
    by_cases hi : i = s.sched.current
    · rw [if_pos hi]
      refine iff_of_true rfl ⟨list, mem_update.mpr ?_⟩
      rw [if_pos rfl, hi]
      exact List.mem_cons_self
    · rw [if_neg hi, hL.waits]
      refine exists_congr fun l => ?_
      rw [mem_update]
      by_cases hl : l = list
      · rw [if_pos hl, List.mem_cons, hl]
        exact (or_iff_right hi).symm
      · rw [if_neg hl]
  · show waiting _ idle_task ≠ some true
    rw [hw, if_neg hidle.symm]
    exact hL.idle
  · intro i hi
    change waiting _ i ≠ none at hi
    rw [hw] at hi
    by_cases hic : i = s.sched.current
    · refine hL.slots i ?_
      rw [hic, waiting, hproc]
      exact Option.some_ne_none _
    · rw [if_neg hic] at hi
      exact hL.slots i hi

/-- The lists without the task, if it is on one. -/
theorem unlink_ends (h : Listed L s) :
    Ends atLink (unlink s.nodes i) fun n => ∃ L', Represents n L' ∧ (∀ l, i ∉ L' l) ∧
      ∀ j, j ≠ i → ((∃ l, j ∈ L' l) ↔ ∃ l, j ∈ L l) := by
  rw [unlink]
  refine Ends.ite (fun hlinked => ?_) fun hfree => ?_
  · obtain ⟨l, hl⟩ := h.lists.next_iff.mp hlinked
    obtain ⟨m, hm, hrep⟩ := h.lists.remove hl
    refine ends_listOp ⟨m, hm, _, hrep, fun l' hl' => ?_, fun j hj => exists_congr fun l' => ?_⟩
    · rw [mem_update] at hl'
      by_cases heq : l' = l
      · rw [if_pos heq, (h.lists.nodup l).mem_erase_iff] at hl'
        exact hl'.1 rfl
      · rw [if_neg heq] at hl'
        exact heq (h.lists.one l' l i hl' hl)
    · rw [mem_update]
      by_cases heq : l' = l
      · rw [if_pos heq, (h.lists.nodup l).mem_erase_iff, heq]
        exact and_iff_right hj
      · rw [if_neg heq]
  · refine ⟨L, h.lists, fun l hl => hfree (h.lists.next_iff.mpr ⟨l, hl⟩), fun j _ => Iff.rfl⟩

/-- A task is ready and on no list, whatever it was before. -/
theorem woken_matched {reason : Int} (h : Matched s)
    (hwas : ∃ L, Represents n L ∧ (∀ l, i ∉ L l) ∧
      ∀ j, j ≠ i → ((∃ l, j ∈ L l) ↔ waiting s.sched j = some true)) :
    Matched { sched := s.sched.modify i fun t => { t with status := reason, state := .ready }
              nodes := n } := by
  obtain ⟨⟨L₀, hL₀⟩, hrun⟩ := h
  obtain ⟨L, hrep, hno, hothers⟩ := hwas
  have hw : ∀ j, waiting (s.sched.modify i fun t => { t with status := reason, state := .ready }) j =
      (waiting s.sched j).map fun b => if j = i then false else b := by
    intro j
    rw [waiting_map (proc_modify (fun p => { p with status := reason, state := .ready })
      fun _ => rfl), waiting, Option.map_map]
    congr 1
    funext p
    by_cases hj : j = i
    · simp only [if_pos hj, Function.comp_apply]
      rfl
    · simp only [if_neg hj, Function.comp_apply]
  have hkeep : ∀ j, waiting s.sched j ≠ some true →
      waiting (s.sched.modify i fun t => { t with status := reason, state := .ready }) j ≠ some true := by
    intro j hj
    rw [hw]
    by_cases hji : j = i
    · simp only [if_pos hji]
      cases waiting s.sched j <;> exact nofun
    · simp only [if_neg hji, Option.map_id']
      exact hj
  refine ⟨⟨L, hrep, fun j => ?_, hkeep _ hL₀.idle, fun j hj => ?_⟩, hkeep _ hrun⟩
  · by_cases hji : j = i
    · subst hji
      refine iff_of_false ?_ fun ⟨l, hl⟩ => hno l hl
      show waiting _ j ≠ some true
      rw [hw]
      simp only [if_true]
      cases waiting s.sched j <;> exact nofun
    · rw [hothers j hji]
      show waiting _ j = some true ↔ _
      rw [hw]
      simp only [if_neg hji, Option.map_id']
  · change waiting _ j ≠ none at hj
    rw [hw] at hj
    exact hL₀.slots j fun hnone => hj (by rw [hnone]; rfl)

theorem taskUnblock_matched {reason : Int} (h : Matched s) :
    Ends atLink (taskUnblock s i reason) Matched := by
  obtain ⟨L, hL⟩ := h.1
  refine Ends.bind (unlink_ends hL) fun n hn => ?_
  obtain ⟨L', hrep, hno, hothers⟩ := hn
  refine Ends.bind (ends_assertLink (Q := fun _ => True) (hrep.alone i hno) trivial) fun _ _ => ?_
  exact woken_matched h ⟨L', hrep, hno, fun j hj => (hothers j hj).trans (hL.waits j).symm⟩

/-! ## The other calls -/

/-- The last waiter of a list, as `list_popback` takes it off. -/
theorem brelse_matched (h : Matched s) : Ends atLink (brelse s) Matched := by
  obtain ⟨L, hL⟩ := h.1
  refine Ends.ite (fun _ => h) fun hsome => ?_
  rw [hL.lists.isEmpty] at hsome
  obtain ⟨i, m, hi, hpop, -, hrep⟩ := hL.lists.popBack fun hnil => hsome (decide_eq_true hnil)
  rw [hpop]
  have hsub : ∀ j l, j ∈ Function.update L .waitList ((L .waitList).erase i) l ↔ j ≠ i ∧
      j ∈ L l := by
    intro j l
    rw [mem_update]
    by_cases hl : l = .waitList
    · rw [if_pos hl, (hL.lists.nodup _).mem_erase_iff, hl]
    · rw [if_neg hl]
      exact ⟨fun hj => ⟨fun heq => hl (hL.lists.one l _ i (heq ▸ hj) hi), hj⟩, fun hj => hj.2⟩
  have hno : ∀ l, i ∉ Function.update L .waitList ((L .waitList).erase i) l := fun l hl =>
    ((hsub i l).mp hl).1 rfl
  obtain ⟨hnext, hprev⟩ := hrep.alone i hno
  -- the node is off its list, so `task_unblock` finds it without pointers
  refine Ends.bind (Q := fun n => n = m) ?_ ?_
  · rw [unlink, if_neg (not_not.mpr hnext)]
    rfl
  rintro n rfl
  refine Ends.bind (ends_assertLink (Q := fun _ => True) ⟨hnext, hprev⟩ trivial) fun _ _ => ?_
  refine woken_matched (s := s) h ⟨_, hrep, hno, fun j hj => ?_⟩
  rw [hL.waits j]
  exact exists_congr fun l => (hsub j l).trans (and_iff_right hj)

theorem mutexUnlock_matched {mutex : Nat} (h : Matched s) :
    Ends atLink (mutexUnlock s mutex policy) Matched := by
  obtain ⟨L, hL⟩ := h.1
  refine Ends.ite (fun _ => h) fun hsome => ?_
  rw [hL.lists.isEmpty] at hsome
  obtain ⟨i, m, -, -, hprev, -⟩ := hL.lists.popBack fun hnil => hsome (decide_eq_true hnil)
  rw [hprev]
  refine Ends.bind (taskUnblock_matched h) fun t ht => ?_
  obtain ⟨L', hL'⟩ := ht.1
  exact hL'.scheduled

theorem taskFork_matched (h : Matched s) : Ends atLink (taskFork s) Matched := by
  obtain ⟨⟨L, hL⟩, hrun⟩ := h
  obtain ⟨hunlinked, -⟩ := hL.unlinked hrun
  refine Ends.bind (ends_assertLink (Q := fun _ => True) hunlinked trivial) fun _ _ => ?_
  refine Ends.bind (ends_lift (Q := fun r => NeonixTask.taskFork s.sched = .ok r) fun _ hr => hr)
    fun r hr => ?_
  obtain ⟨child, k⟩ := r
  obtain ⟨p, hp, -, -, hfree, hslot, hcur, -, -, hproc⟩ := taskFork_spec hr
  have hw : ∀ j, waiting k j = if j = child then some false else waiting s.sched j := by
    intro j
    rw [waiting, hproc]
    by_cases hj : j = child
    · rw [if_pos hj, if_pos hj]
      rfl
    · rw [if_neg hj, if_neg hj]
      rfl
  have hnone : waiting s.sched child ≠ some true := by
    rw [waiting, hfree]
    exact nofun
  -- the copied node has no pointers, and the slot had none either
  have hnodes : (s.nodes.setNext (.node child) (s.nodes.next (.node s.sched.current))).setPrev
      (.node child) (s.nodes.prev (.node s.sched.current)) = s.nodes := by
    obtain ⟨hnext, hprev⟩ := (hL.unlinked hnone).1
    rw [hunlinked.1, hunlinked.2, setNext_self hnext, setPrev_self hprev]
  show Matched { sched := k, nodes := _ }
  rw [hnodes]
  refine ⟨⟨L, hL.lists, fun i => ?_, ?_, fun i hi => ?_⟩, ?_⟩
  · show waiting k i = some true ↔ _
    rw [hw]
    by_cases hi : i = child
    · rw [if_pos hi, hi]
      exact iff_of_false nofun fun ⟨l, hl⟩ => (hL.unlinked hnone).2 l hl
    · rw [if_neg hi]
      exact hL.waits i
  · show waiting k idle_task ≠ some true
    rw [hw]
    split_ifs
    · exact nofun
    · exact hL.idle
  · change waiting k i ≠ none at hi
    rw [hw] at hi
    by_cases hic : i = child
    · rw [hic]
      exact List.mem_range.mp hslot
    · rw [if_neg hic] at hi
      exact hL.slots i hi
  · show waiting k k.current ≠ some true
    rw [hw, hcur]
    split_ifs
    · exact nofun
    · exact hrun

theorem exitMark_matched {status : Int} (h : Matched s) :
    Ends atLink (exitMark s status) Matched := by
  obtain ⟨⟨L, hL⟩, hrun⟩ := h
  refine Ends.bind (ends_assertLink (Q := fun _ => True) (hL.unlinked hrun).1 trivial) fun _ _ => ?_
  refine Ends.bind (ends_lift (Q := fun k => NeonixTask.exitMark s.sched status = .ok k)
    fun _ hk => hk) fun k hk => ?_
  obtain ⟨p, hp, -, hstate, hcur, -, -, hproc⟩ := exitMark_spec hk
  refine Matched.congr ⟨⟨L, hL⟩, hrun⟩ (waiting_same hproc fun j q hq => ?_) hcur
  by_cases hj : j = s.sched.current
  · rw [hj, hp] at hq
    rw [if_pos hj, ← Option.some.inj hq, hstate]
    rfl
  · rw [if_neg hj]

theorem wakeFather_matched {task : Task} (h : Matched s) :
    Ends atLink (wakeFather s task) Matched := by
  rw [NeonixWaitLists.wakeFather]
  cases s.sched.task_table task.ppid with
  | none => exact nofun
  | some parent => exact Ends.ite (fun _ => taskUnblock_matched h) fun _ => h

theorem exitFinish_matched (h : Matched s) : Ends atLink (exitFinish s policy) Matched := by
  refine Ends.bind (ends_lift (Q := fun _ => True) fun _ _ => trivial) fun task _ => ?_
  have hre : Matched { s with sched := reparent s.sched task } := by
    refine h.congr (waiting_same (proc_reparent task) fun j p _ => ?_) rfl
    split_ifs <;> rfl
  refine Ends.bind (wakeFather_matched hre) fun t ht => ?_
  obtain ⟨L, hL⟩ := ht.1
  exact hL.scheduled

/-- A child that is reaped does not wait. -/
theorem cleared_matched (h : Matched s) (hi : waiting s.sched i ≠ some true) :
    Matched { s with sched := clearSlot (returnUser s.sched) i } := by
  obtain ⟨⟨L, hL⟩, hrun⟩ := h
  have hw : ∀ j, waiting (clearSlot (returnUser s.sched) i) j =
      if j = i then none else waiting s.sched j := by
    intro j
    rw [waiting, proc_clearSlot]
    by_cases hj : j = i
    · rw [if_pos hj, if_pos hj]
      rfl
    · rw [if_neg hj, if_neg hj]
      refine waiting_same (k := s.sched) (proc_returnUser s.sched) (fun j p _ => ?_) j
      split_ifs <;> rfl
  refine ⟨⟨L, hL.lists, fun j => ?_, ?_, fun j hj => ?_⟩, ?_⟩
  · show waiting _ j = some true ↔ _
    rw [hw]
    by_cases hj : j = i
    · rw [if_pos hj, hj]
      exact iff_of_false nofun fun ⟨l, hl⟩ => (hL.unlinked hi).2 l hl
    · rw [if_neg hj]
      exact hL.waits j
  · show waiting _ idle_task ≠ some true
    rw [hw]
    split_ifs
    · exact nofun
    · exact hL.idle
  · change waiting _ j ≠ none at hj
    rw [hw] at hj
    by_cases hji : j = i
    · rw [if_pos hji] at hj
      exact absurd rfl hj
    · rw [if_neg hji] at hj
      exact hL.slots j hj
  · show waiting _ s.sched.current ≠ some true
    rw [hw]
    split_ifs
    · exact nofun
    · exact hrun

theorem waitpidTurn_matched {pid : Int} (h : Matched s) (hidle : s.sched.current ≠ idle_task) :
    Ends atLink (waitpidTurn s pid policy) Matched := by
  refine Ends.bind (ends_lift (Q := fun _ => True) fun _ _ => trivial) fun task _ => ?_
  cases hscan : waitScan s.sched task.toProc pid with
  | reap i child =>
      obtain ⟨hp, -, hdead⟩ := waitScan_reap hscan
      refine cleared_matched h ?_
      rw [waiting, hp]
      show some (Waits child.state) ≠ some true
      rw [hdead]
      exact nofun
  | block =>
      refine taskBlock_matched (h.congr ?_ rfl) hidle rfl
      refine waiting_same (proc_modify (fun p => { p with waitpid := pid, pc := .inWaitpid pid })
        fun _ => rfl) fun j p _ => ?_
      split_ifs <;> rfl
  | noChild =>
      refine h.congr (waiting_same (proc_returnUser s.sched) fun j p _ => ?_) rfl
      split_ifs <;> rfl

theorem sysKill_matched {pid sig : Nat} (h : Matched s) :
    Ends atLink (sysKill s pid sig) Matched := by
  refine Ends.ite (fun _ => h) fun _ => ?_
  cases getTask s.sched pid with
  | none => exact h
  | some i =>
      dsimp only
      cases s.sched.task_table i with
      | none => exact h
      | some task =>
          refine Ends.ite (fun _ => h) fun _ => Ends.ite (fun _ => h) fun _ => ?_
          have hsignal : Matched { s with sched := s.sched.modify i fun t =>
              { t with signal := t.signal ||| sigmask sig } } := by
            have hsame : SameProcs s.sched (s.sched.modify i fun t =>
                { t with signal := t.signal ||| sigmask sig }) := sameProcs_modify fun _ => rfl
            refine h.congr (fun j => ?_) rfl
            rw [waiting, waiting, hsame.proc]
          exact Ends.ite (fun _ => taskUnblock_matched hsignal) fun _ => hsignal

/-! ## Runs -/

/-- A step stops at no list node, and keeps the lists and the states together. -/
theorem exec_matched {e : NeonixWaitLists.Event} (h : Matched s)
    (he : NeonixWaitLists.Enabled s e) :
    Ends atLink (NeonixWaitLists.exec s e) Matched := by
  have hswitch : ∀ policy, Matched { s with sched := schedule s.sched policy } := by
    intro policy
    obtain ⟨L, hL⟩ := h.1
    exact hL.scheduled
  cases e with
  | fork => exact taskFork_matched h
  | exit status policy => exact Ends.bind (exitMark_matched h) fun t ht => exitFinish_matched ht
  | exitMark status => exact exitMark_matched h
  | exitFinish policy => exact exitFinish_matched h
  | waitpid pid policy => exact waitpidTurn_matched h he.1
  | resume policy =>
      rw [NeonixWaitLists.exec]
      split
      · exact waitpidTurn_matched h he
      · exact nofun
  | kill pid sig => exact sysKill_matched h
  | yield policy => exact hswitch policy
  | block list policy => exact taskBlock_matched h he rfl
  | wake i => exact taskUnblock_matched h
  | brelse => exact brelse_matched h
  | mutexUnlock mutex policy => exact mutexUnlock_matched h
  | sleep policy => exact taskBlock_matched h he.1 rfl
  | timeout i => exact taskUnblock_matched h

theorem bootNodes_represents : Represents bootNodes fun _ => [] where
  path := fun _ => ⟨rfl, rfl⟩
  nodup := fun _ => List.nodup_nil
  one := fun _ _ _ hx => absurd hx List.not_mem_nil
  alone := fun _ _ => ⟨rfl, rfl⟩
  ends := fun _ => ⟨rfl, rfl⟩

theorem boot_waiting {first i : Nat} : waiting (boot first).sched i ≠ some true ∧
    (waiting (boot first).sched i ≠ none → i < TASK_NR) := by
  have hproc : (boot first).sched.proc i = ((bootTable i).map fun t =>
      { t with state := if i = first then .running else .ready }).map Task.toProc := rfl
  rw [waiting, hproc]
  cases ht : bootTable i with
  | none => exact ⟨nofun, fun hne => absurd rfl hne⟩
  | some t =>
      refine ⟨?_, fun _ => ?_⟩
      · show some (Waits (if i = first then .running else .ready)) ≠ some true
        split_ifs <;> exact nofun
      · by_contra hge
        have hge : 64 ≤ i := Nat.not_lt.mp hge
        rw [bootTable, if_neg (by omega), if_neg (by omega), if_neg (by omega)] at ht
        cases ht

theorem boot_matched {first : Nat} : Matched ⟨(boot first).sched, bootNodes⟩ := by
  refine ⟨⟨fun _ => [], bootNodes_represents, fun i => ?_, boot_waiting.1, fun i => boot_waiting.2⟩,
    boot_waiting.1⟩
  exact iff_of_false boot_waiting.1 fun ⟨_, hl⟩ => List.not_mem_nil hl

theorem reach_matched (h : Reach NeonixWaitLists.system free s) : Matched s := by
  have hinit : ∀ s, NeonixWaitLists.system.init s → Matched s := by
    rintro s ⟨first, -, rfl⟩
    exact boot_matched
  refine h.invariant hinit fun s e t hs _ hstep => ?_
  exact (exec_matched hs hstep.1).of_ok hstep.2

/-- A task that waits is on exactly one list, the node of any other task has no
    pointers, and no step stops at an assertion on a list node. -/
structure NodesMatch (s : NeonixWaitLists.State) : Prop where
  waiting : ∀ i t, s.sched.task_table i = some t → Waits t.state = true → ∃! l, OnList s.nodes l i
  others : ∀ i t, s.sched.task_table i = some t → Waits t.state = false →
    Unlinked s.nodes i ∧ ∀ l, ¬ OnList s.nodes l i
  asserts : ∀ e, NeonixWaitLists.Enabled s e → NeonixWaitLists.exec s e ≠ .error .link

/-- The nodes match the states in every state the scheduler's calls and the wake-ups
    lead to. -/
theorem nodes_match (h : Reach NeonixWaitLists.system free s) : NodesMatch s := by
  have hm := reach_matched h
  obtain ⟨L, hL⟩ := hm.1
  have hw : ∀ i t, s.sched.task_table i = some t → waiting s.sched i = some (Waits t.state) := by
    intro i t ht
    rw [waiting, proc_of_task ht]
    rfl
  refine ⟨fun i t ht hwaits => ?_, fun i t ht hwaits => ?_,
    fun e he => (exec_matched hm he).not_bad rfl⟩
  · obtain ⟨l, hl⟩ := (hL.waits i).mp (by rw [hw i t ht, hwaits])
    refine ⟨l, hL.lists.onList_iff.mpr hl, fun l' hl' => ?_⟩
    exact hL.lists.one l' l i (hL.lists.onList_iff.mp hl') hl
  · obtain ⟨hunlinked, hno⟩ := hL.unlinked (i := i) (by rw [hw i t ht, hwaits]; exact nofun)
    exact ⟨hunlinked, fun l hl => hno l (hL.lists.onList_iff.mp hl)⟩

/-- The init task waits for a buffer, the test task sleeps, `brelse` wakes the init
    task, and a late wake-up finds it awake. -/
def waitRun : List NeonixWaitLists.Event :=
  [.block .waitList (.prefer 2), .sleep .ticks, .brelse, .wake 1]

theorem nodes_match_woken : ∃ s, follow free NeonixWaitLists.Enabled NeonixWaitLists.exec
    ⟨(boot 1).sched, bootNodes⟩ waitRun = some s ∧ NodesMatch s := by
  have hrun : (follow free NeonixWaitLists.Enabled NeonixWaitLists.exec
      ⟨(boot 1).sched, bootNodes⟩ waitRun).isSome = true := by decide +kernel
  obtain ⟨s, hs⟩ := Option.isSome_iff_exists.mp hrun
  have hstart : Reach NeonixWaitLists.system free ⟨(boot 1).sched, bootNodes⟩ :=
    Reach.start ⟨1, by decide, rfl⟩
  exact ⟨s, hs, nodes_match (hstart.follow waitRun hs)⟩

end NeonixWaitStates
