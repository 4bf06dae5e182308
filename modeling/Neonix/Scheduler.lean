import Neonix.RoundRobin
import Neonix.Task

/-! # `task_search` and the clock: who runs, and when

    The clock interrupt takes a tick from the running task and switches when none
    is left.  `task_search` prefers more ticks, or an earlier time; the two
    tests are one after the other along the table.  Where all slices are full
    that is a round robin, and where they are not a task may never run again. -/

namespace NeonixScheduler

open NeonixMachine NeonixTask NeonixRoundRobin

/-- The scheduler and `jiffies`. -/
structure Clock where
  sched : Sched
  jiffies : BitVec 32

/-- What the clock does to the running task. -/
def spend (jiffies : BitVec 32) (task : Task) : Task :=
  { task with jiffies := jiffies.toNat, ticks := task.ticks - 1 }

/-- `clock_handler`, when no timer is due. -/
def clockHandler (s : Clock) : Res Clock := do
  let jiffies := s.jiffies + 1
  let task ← runningTask s.sched
  let sched := s.sched.modify s.sched.current (spend jiffies)
  return {
    sched := if (spend jiffies task).ticks = 0 then schedule sched .ticks else sched
    jiffies := jiffies }

/-- So many interrupts of the clock. -/
def ticking : Nat → Clock → Res Clock
  | 0, s => .ok s
  | n + 1, s => clockHandler s >>= ticking n

/-! ## The search along the table -/

/-- The tasks that wait for the processor, the idle task apart. -/
def waiting (s : Sched) : Finset Nat :=
  (Finset.range TASK_NR).filter fun i => i ≠ s.current ∧ i ≠ idle_task ∧
    (s.task_table i).map (·.state) = some .ready

/-- The scheduler as a server of its tasks. -/
def turnsOf (s : Sched) : Turns Nat :=
  ⟨s.current, waiting s, fun i => ((s.task_table i).map (·.jiffies)).getD 0⟩

/-- The waiting tasks have a full slice of `p` ticks, and the idle task has less. -/
structure FullSlices (p : Nat) (s : Sched) : Prop where
  full : ∀ i ∈ waiting s, ∀ t, s.task_table i = some t → t.ticks = p ∧ t.priority = p
  idle : ∀ t, s.task_table idle_task = some t → t.state = .ready → t.ticks < p

variable {s s' : Sched} {i j p : Nat} {t : Task}

theorem mem_waiting : i ∈ waiting s ↔ i < TASK_NR ∧ i ≠ s.current ∧ i ≠ idle_task ∧
    ∃ t, s.task_table i = some t ∧ t.state = .ready := by
  rw [waiting, Finset.mem_filter, Finset.mem_range, Option.map_eq_some_iff]

theorem stamp_eq (h : s.task_table i = some t) : (turnsOf s).stamp i = t.jiffies := by
  show ((s.task_table i).map (·.jiffies)).getD 0 = _
  rw [h]
  rfl

/-- The search over the first `n` slots: the idle task or none while nobody waits there,
    else the one that has its turn first. -/
theorem search_range (h : FullSlices p s) (n : Nat) (hn : n ≤ TASK_NR) :
    ((∀ i ∈ waiting s, n ≤ i) ∧
      ∀ i t, (List.range n).foldl (searchStep s .ready) none = some (i, t) →
        i = idle_task ∧ t.ticks < p) ∨
    ∃ i t, (List.range n).foldl (searchStep s .ready) none = some (i, t) ∧
      s.task_table i = some t ∧ i ∈ waiting s ∧ i < n ∧
      ∀ j ∈ waiting s, j < n → j ≠ i → (turnsOf s).Before i j := by
  induction n with
  | zero =>
      refine Or.inl ⟨fun i _ => Nat.zero_le i, ?_⟩
      rintro i t ⟨⟩
  | succ n ih =>
      rw [List.range_succ, List.foldl_append, List.foldl_cons, List.foldl_nil]
      specialize ih (by omega)
      have hfirst : n = idle_task → (List.range n).foldl (searchStep s .ready) none = none := by
        rintro rfl
        rfl
      generalize (List.range n).foldl (searchStep s .ready) none = best at ih hfirst ⊢
      by_cases hmem : n ∈ waiting s
      · obtain ⟨-, hne, -, t, ht, hs⟩ := mem_waiting.mp hmem
        obtain ⟨hticks, -⟩ := h.full n hmem t ht
        -- slot `n` is taken when it is the first one that waits, or comes before the best
        rcases ih with ⟨hnone, hidle⟩ | ⟨i, u, rfl, hu, hi, hlt, hleast⟩
        · refine Or.inr ⟨n, t, ?_, ht, hmem, Nat.lt_succ_self n, fun j hj hjn hjne => ?_⟩
          · cases best with
            | none => simp [searchStep, ht, hs, hne]
            | some b =>
                obtain ⟨k, v⟩ := b
                obtain ⟨-, hless⟩ := hidle k v rfl
                have hmore : v.ticks < t.ticks := by omega
                simp [searchStep, ht, hs, hne, hmore]
          · have hge := hnone j hj
            omega
        · obtain ⟨hfull, -⟩ := h.full i hi u hu
          have hsame : ¬ u.ticks < t.ticks := by omega
          have hstamp := stamp_eq ht
          have hstamp' := stamp_eq hu
          by_cases hearlier : t.jiffies < u.jiffies
          · refine Or.inr ⟨n, t, ?_, ht, hmem, Nat.lt_succ_self n, fun j hj hjn hjne => ?_⟩
            · simp [searchStep, ht, hs, hne, hearlier]
            · have hbefore : (turnsOf s).Before n i := Or.inl (by omega)
              by_cases hji : j = i
              · rw [hji]
                exact hbefore
              · rcases hleast j hj (by omega) hji with hlt' | ⟨heq, -⟩
                · exact Or.inl (by omega)
                · exact Or.inl (by omega)
          · refine Or.inr ⟨i, u, ?_, hu, hi, by omega, fun j hj hjn hjne => ?_⟩
            · simp [searchStep, ht, hs, hne, hearlier, hsame]
            · by_cases hjn' : j = n
              · subst hjn'
                by_cases heq : u.jiffies = t.jiffies
                · exact Or.inr ⟨by omega, hlt⟩
                · exact Or.inl (by omega)
              · exact hleast j hj (by omega) hjne
      · by_cases htaken : n ≠ s.current ∧ ∃ t, s.task_table n = some t ∧ t.state = .ready
        · -- a ready task that does not wait is the idle task, in the first slot
          obtain ⟨hne, t, ht, hs⟩ := htaken
          have hidle : n = idle_task := by
            by_contra hidle
            exact hmem (mem_waiting.mpr ⟨by omega, hne, hidle, t, ht, hs⟩)
          have hnone := hfirst hidle
          subst hnone
          refine Or.inl ⟨fun i hi => ?_, fun i u hu => ?_⟩
          · have hne := (mem_waiting.mp hi).2.2.1
            rw [idle_task] at hidle hne
            omega
          · have hstep : searchStep s .ready none n = some (n, t) := by
              simp [searchStep, ht, hs, hne]
            rw [hstep] at hu
            obtain ⟨rfl, rfl⟩ := Prod.mk.inj (Option.some.inj hu)
            refine ⟨hidle, h.idle t ?_ hs⟩
            rw [← hidle]
            exact ht
        · have hsame : searchStep s .ready best n = best := by
            rw [searchStep]
            cases ht : s.task_table n with
            | none => rfl
            | some t =>
                by_cases hs : t.state = .ready
                · have hcurrent : n = s.current := by
                    by_contra hne
                    exact htaken ⟨hne, t, ht, hs⟩
                  dsimp only
                  rw [if_neg (not_not_intro hs), if_pos hcurrent]
                · exact if_pos hs
          have hlater : ∀ i ∈ waiting s, n ≤ i → n + 1 ≤ i := by
            intro i hi hle
            rcases Nat.lt_or_eq_of_le hle with hlt | rfl
            · exact hlt
            · exact absurd hi hmem
          rw [hsame]
          rcases ih with ⟨hnone, hidle⟩ | ⟨i, u, hbest, hu, hi, hlt, hleast⟩
          · exact Or.inl ⟨fun i hi => hlater i hi (hnone i hi), hidle⟩
          · refine Or.inr ⟨i, u, hbest, hu, hi, by omega, fun j hj hjn hjne => ?_⟩
            refine hleast j hj ?_ hjne
            by_contra hge
            have hgt := hlater j hj (by omega)
            omega

/-- With full slices the search takes the task that waited longest. -/
theorem taskSearch_least (h : FullSlices p s) (hi : i ∈ waiting s) :
    taskSearch s ∈ waiting s ∧
      ∀ j ∈ waiting s, j ≠ taskSearch s → (turnsOf s).Before (taskSearch s) j := by
  rcases search_range h TASK_NR (le_refl _) with ⟨hnone, -⟩ | ⟨k, u, hbest, -, hk, -, hleast⟩
  · have hlt := (mem_waiting.mp hi).1
    have hge := hnone i hi
    omega
  · have hsearch : taskSearch s = k := by
      rw [taskSearch, slots, hbest]
    rw [hsearch]
    exact ⟨hk, fun j hj hne => hleast j hj (mem_waiting.mp hj).1 hne⟩

/-! ## One tick -/

/-- A running task among tasks with full slices, none of which ran later than now. -/
structure Fair (p : Nat) (s : Clock) : Prop where
  slices : FullSlices p s.sched
  running : ∃ t, s.sched.task_table s.sched.current = some t ∧ t.state = .running ∧
    t.priority = p ∧ 0 < t.ticks ∧ t.ticks ≤ p
  place : s.sched.current < TASK_NR ∧ s.sched.current ≠ idle_task
  stamps : ∀ i ∈ waiting s.sched, ∀ t, s.sched.task_table i = some t → t.jiffies ≤ s.jiffies.toNat

theorem modify_map (s : Sched) (i : Nat) (f : Task → Task) :
    (s.modify i f).task_table i = (s.task_table i).map f :=
  Function.update_self _ _ _

theorem modify_self (h : s.task_table i = some t) (f : Task → Task) :
    (s.modify i f).task_table i = some (f t) := by
  rw [modify_map, h]
  rfl

theorem modify_ne (f : Task → Task) (h : j ≠ i) :
    (s.modify i f).task_table j = s.task_table j :=
  Function.update_of_ne h _ _

/-- What waits is not the running task, so a store to that one leaves it alone. -/
theorem waiting_modify (s : Sched) (f : Task → Task) :
    waiting (s.modify s.current f) = waiting s := by
  ext i
  rw [mem_waiting, mem_waiting]
  constructor
  · rintro ⟨hlt, hne, hidle, t, ht, hs⟩
    exact ⟨hlt, hne, hidle, t, (modify_ne f hne).symm.trans ht, hs⟩
  · rintro ⟨hlt, hne, hidle, t, ht, hs⟩
    refine ⟨hlt, hne, hidle, t, ?_, hs⟩
    rw [modify_ne f hne]
    exact ht

theorem FullSlices.modify (h : FullSlices p s) (hidle : s.current ≠ idle_task) (f : Task → Task) :
    FullSlices p (s.modify s.current f) := by
  constructor
  · intro i hi t ht
    rw [waiting_modify] at hi
    rw [modify_ne f (mem_waiting.mp hi).2.1] at ht
    exact h.full i hi t ht
  · intro t ht hs
    rw [modify_ne f (Ne.symm hidle)] at ht
    exact h.idle t ht hs

theorem stamp_modify (f : Task → Task) (hi : i ∈ waiting s) :
    (turnsOf (s.modify s.current f)).stamp i = (turnsOf s).stamp i := by
  obtain ⟨-, hne, -, t, ht, -⟩ := mem_waiting.mp hi
  rw [stamp_eq ht, stamp_eq ((modify_ne f hne).trans ht)]

/-- The counter, one tick later. -/
theorem jiffies_succ {jiffies : BitVec 32} (h : jiffies.toNat + 1 < 2 ^ 32) :
    (jiffies + 1).toNat = jiffies.toNat + 1 := by
  rw [BitVec.toNat_add]
  exact Nat.mod_eq_of_lt h

/-- A tick that is not the last one of the slice. -/
theorem tick_quiet {s : Clock} (h : Fair p s) (hnow : s.jiffies.toNat + 1 < 2 ^ 32)
    (ht : s.sched.task_table s.sched.current = some t) (hmore : 1 < t.ticks) :
    ∃ s', clockHandler s = .ok s' ∧ Fair p s' ∧ s'.jiffies.toNat = s.jiffies.toNat + 1 ∧
      s'.sched = s.sched.modify s.sched.current (spend (s.jiffies + 1)) := by
  have hticks : ¬ (spend (s.jiffies + 1) t).ticks = 0 := by
    show ¬ t.ticks - 1 = 0
    omega
  refine ⟨⟨s.sched.modify s.sched.current (spend (s.jiffies + 1)), s.jiffies + 1⟩, ?_, ?_,
    jiffies_succ hnow, rfl⟩
  · rw [clockHandler, runningTask, ht]
    dsimp only
    rw [bind_ok, if_neg hticks]
    rfl
  · obtain ⟨u, hu, hs, hprio, hpos, hle⟩ := h.running
    obtain rfl := Option.some.inj (hu.symm.trans ht)
    refine ⟨h.slices.modify h.place.2 _, ?_, h.place, fun i hi v hv => ?_⟩
    · refine ⟨_, modify_self ht _, hs, hprio, ?_, ?_⟩
      · show 0 < u.ticks - 1
        omega
      · show u.ticks - 1 ≤ p
        omega
    · have hmem : i ∈ waiting s.sched := by
        rw [← waiting_modify s.sched (spend (s.jiffies + 1))]
        exact hi
      have hstay : s.sched.task_table i = some v := by
        rw [← modify_ne (spend (s.jiffies + 1)) (mem_waiting.mp hmem).2.1]
        exact hv
      have hold := h.stamps i hmem v hstay
      show v.jiffies ≤ (s.jiffies + 1).toNat
      rw [jiffies_succ hnow]
      omega

/-- What a switch stores to the task that ran. -/
def refill (t : Task) : Task :=
  { t with
    state := if t.state = .running then .ready else t.state
    ticks := if t.ticks = 0 then t.priority else t.ticks }

theorem schedule_table (hne : taskSearch s ≠ s.current) (i : Nat) :
    (schedule s .ticks).task_table i =
      if i = taskSearch s then (s.task_table i).map fun t => { t with state := .running }
      else if i = s.current then (s.task_table i).map refill else s.task_table i := by
  show ((s.modify s.current refill).modify (taskSearch s) fun t =>
    { t with state := .running }).task_table i = _
  by_cases hnext : i = taskSearch s
  · subst hnext
    rw [if_pos rfl, modify_map, modify_ne refill hne]
  · rw [if_neg hnext, modify_ne _ hnext]
    by_cases hcurrent : i = s.current
    · subst hcurrent
      rw [if_pos rfl, modify_map]
    · rw [if_neg hcurrent, modify_ne _ hcurrent]

/-- A switch from a running task out of ticks serves the one that waited longest. -/
theorem schedule_serves (h : FullSlices p s) (hi : i ∈ waiting s)
    (ht : s.task_table s.current = some t) (hstate : t.state = .running)
    (hzero : t.ticks = 0) (hprio : t.priority = p) (hplace : s.current < TASK_NR)
    (hidle : s.current ≠ idle_task) (hfresh : ∀ j ∈ waiting s, (turnsOf s).stamp j < t.jiffies) :
    Serves (turnsOf s) (turnsOf (schedule s .ticks)) ∧ FullSlices p (schedule s .ticks) ∧
      (schedule s .ticks).task_table s.current =
        some { t with state := .ready, ticks := t.priority } ∧
      ∃ u, (schedule s .ticks).task_table (taskSearch s) = some { u with state := .running } ∧
        s.task_table (taskSearch s) = some u ∧ taskSearch s ∈ waiting s := by
  obtain ⟨hmem, hleast⟩ := taskSearch_least h hi
  obtain ⟨hlt, hne, hnidle, u, hu, hs⟩ := mem_waiting.mp hmem
  have htable := schedule_table hne
  have hself : (schedule s .ticks).task_table s.current =
      some { t with state := .ready, ticks := t.priority } := by
    rw [htable, if_neg (Ne.symm hne), if_pos rfl, ht, Option.map_some, refill, if_pos hstate,
      if_pos hzero]
  have hother : ∀ j, j ≠ taskSearch s → j ≠ s.current →
      (schedule s .ticks).task_table j = s.task_table j := fun j hj hj' => by
    rw [htable, if_neg hj, if_neg hj']
  have hnext : (schedule s .ticks).task_table (taskSearch s) =
      some { u with state := .running } := by
    rw [htable, if_pos rfl, hu]
    rfl
  have hwaiting : waiting (schedule s .ticks) = insert s.current ((waiting s).erase (taskSearch s)) := by
    ext j
    rw [Finset.mem_insert, Finset.mem_erase, mem_waiting, mem_waiting]
    constructor
    · rintro ⟨hj, hjne, hjidle, v, hv, hvs⟩
      by_cases hcurrent : j = s.current
      · exact Or.inl hcurrent
      · rw [hother j hjne hcurrent] at hv
        exact Or.inr ⟨hjne, hj, hcurrent, hjidle, v, hv, hvs⟩
    · rintro (rfl | ⟨hjne, hj, hcurrent, hjidle, v, hv, hvs⟩)
      · exact ⟨hplace, Ne.symm hne, hidle, _, hself, rfl⟩
      · refine ⟨hj, hjne, hjidle, v, ?_, hvs⟩
        rw [hother j hjne hcurrent]
        exact hv
  refine ⟨⟨hmem, hleast, hwaiting, fun j hj => ?_, fun j hj => ?_⟩, ⟨fun j hj v hv => ?_,
    fun v hv hvs => ?_⟩, hself, u, hnext, hu, hmem⟩
  · obtain ⟨-, hjne, -, v, hv, -⟩ := mem_waiting.mp hj
    by_cases hjn : j = taskSearch s
    · subst hjn
      obtain rfl := Option.some.inj (hu.symm.trans hv)
      rw [stamp_eq hnext, stamp_eq hu]
    · rw [stamp_eq hv, stamp_eq ((hother j hjn hjne).trans hv)]
  · show _ < (turnsOf (schedule s .ticks)).stamp s.current
    rw [stamp_eq hself]
    exact hfresh j hj
  · rw [hwaiting, Finset.mem_insert, Finset.mem_erase] at hj
    rcases hj with rfl | ⟨hjne, hj⟩
    · obtain rfl := Option.some.inj (hself.symm.trans hv)
      exact ⟨congrArg Int.ofNat hprio, hprio⟩
    · rw [hother j hjne (mem_waiting.mp hj).2.1] at hv
      exact h.full j hj v hv
  · rw [hother idle_task (Ne.symm hnidle) (Ne.symm hidle)] at hv
    exact h.idle v hv hvs

/-- The last tick of a slice is one service of the round robin. -/
theorem tick_switch {s : Clock} (h : Fair p s) (hnow : s.jiffies.toNat + 1 < 2 ^ 32)
    (ht : s.sched.task_table s.sched.current = some t) (hlast : t.ticks = 1)
    (hi : i ∈ waiting s.sched) :
    ∃ s', clockHandler s = .ok s' ∧ Fair p s' ∧ s'.jiffies.toNat = s.jiffies.toNat + 1 ∧
      Serves (turnsOf s.sched) (turnsOf s'.sched) ∧
      ∀ u, s'.sched.task_table s'.sched.current = some u → u.ticks = p := by
  obtain ⟨v, hv, hs, hprio, hpos, hle⟩ := h.running
  obtain rfl := Option.some.inj (hv.symm.trans ht)
  have hnext := jiffies_succ hnow
  let spent := s.sched.modify s.sched.current (spend (s.jiffies + 1))
  have hticks : (spend (s.jiffies + 1) v).ticks = 0 := by
    show v.ticks - 1 = 0
    omega
  have hmem : ∀ j, j ∈ waiting spent ↔ j ∈ waiting s.sched := fun j => by
    rw [show waiting spent = waiting s.sched from waiting_modify _ _]
  obtain ⟨hserves, hslices, hself, u, hu, hold, hsearch⟩ := schedule_serves (h.slices.modify h.place.2 _)
    ((hmem i).mpr hi) (modify_self ht (spend (s.jiffies + 1))) hs hticks hprio h.place.1 h.place.2
    fun j hj => by
      obtain ⟨-, -, -, w, hw, -⟩ := mem_waiting.mp ((hmem j).mp hj)
      rw [stamp_modify _ ((hmem j).mp hj), stamp_eq hw]
      have hstamp := h.stamps j ((hmem j).mp hj) w hw
      show w.jiffies < (s.jiffies + 1).toNat
      omega
  obtain ⟨hfull, hfullprio⟩ := (h.slices.modify h.place.2 (spend (s.jiffies + 1))).full _ hsearch u hold
  obtain ⟨hlt, hne, hnidle, -⟩ := mem_waiting.mp hsearch
  have hserve : Serves (turnsOf s.sched) (turnsOf (schedule spent .ticks)) :=
    hserves.congr rfl (waiting_modify _ _).symm fun j hj =>
      (stamp_modify _ ((hmem j).mp hj)).symm
  refine ⟨⟨schedule spent .ticks, s.jiffies + 1⟩, ?_, ⟨hslices, ⟨_, hu, rfl, hfullprio, ?_, ?_⟩,
    ⟨hlt, hnidle⟩, fun j hj w hw => ?_⟩, hnext, hserve, fun w hw => ?_⟩
  · rw [clockHandler, runningTask, ht]
    dsimp only
    rw [bind_ok, if_pos hticks]
    rfl
  · show 0 < u.ticks
    omega
  · show u.ticks ≤ p
    omega
  · -- what waits now waited before, or is the task that ran until now
    have hwait : j ∈ (turnsOf (schedule spent .ticks)).waiting := hj
    rw [hserve.waiting, Finset.mem_insert, Finset.mem_erase] at hwait
    show w.jiffies ≤ (s.jiffies + 1).toNat
    rcases hwait with rfl | ⟨-, hwait⟩
    · obtain rfl := Option.some.inj (hself.symm.trans hw)
      exact le_refl _
    · have hkept := hserve.kept j hwait
      obtain ⟨-, -, -, x, hx, -⟩ := mem_waiting.mp hwait
      rw [stamp_eq hw, stamp_eq hx] at hkept
      have hstamp := h.stamps j hwait x hx
      omega
  · obtain rfl := Option.some.inj (hu.symm.trans hw)
    exact hfull

/-! ## A slice, and the turns after it -/

theorem ticking_add (m n : Nat) (s : Clock) : ticking (m + n) s = ticking m s >>= ticking n := by
  induction m generalizing s with
  | zero =>
      rw [Nat.zero_add]
      rfl
  | succ m ih =>
      rw [Nat.succ_add, ticking, ticking]
      cases clockHandler s with
      | error e => rfl
      | ok s' => exact ih s'

/-- A slice: the task runs until its last tick, which serves the next one. -/
theorem slice {s : Clock} {m : Nat} (h : Fair p s) (hi : i ∈ waiting s.sched)
    (hm : ∀ t, s.sched.task_table s.sched.current = some t → t.ticks = m + 1)
    (hnow : s.jiffies.toNat + (m + 1) < 2 ^ 32) :
    (∀ k ≤ m, ∃ s', ticking k s = .ok s' ∧ s'.sched.current = s.sched.current) ∧
      ∃ s', ticking (m + 1) s = .ok s' ∧ Fair p s' ∧
        s'.jiffies.toNat = s.jiffies.toNat + (m + 1) ∧
        Serves (turnsOf s.sched) (turnsOf s'.sched) ∧
        ∀ u, s'.sched.task_table s'.sched.current = some u → u.ticks = p := by
  obtain ⟨t, ht, -⟩ := h.running
  have hticks := hm t ht
  induction m generalizing s t with
  | zero =>
      obtain ⟨s', hrun, hfair, hjiffies, hserves, hfull⟩ := tick_switch h hnow ht hticks hi
      refine ⟨fun k hk => ⟨s, ?_, rfl⟩, s', ?_, hfair, hjiffies, hserves, hfull⟩
      · rw [Nat.le_zero.mp hk]
        rfl
      · rw [ticking, hrun]
        rfl
  | succ m ih =>
      obtain ⟨s', hrun, hfair, hjiffies, hsched⟩ := tick_quiet h (by omega) ht (by omega)
      have hwaiting : waiting s'.sched = waiting s.sched := by
        rw [hsched, waiting_modify]
      have hcurrent : s'.sched.current = s.sched.current := by
        rw [hsched]
        rfl
      have htask : s'.sched.task_table s'.sched.current = some (spend (s.jiffies + 1) t) := by
        rw [hcurrent, hsched]
        exact modify_self ht _
      have hless : (spend (s.jiffies + 1) t).ticks = m + 1 := by
        show t.ticks - 1 = m + 1
        omega
      obtain ⟨hstay, u, hu, hfairu, hjiffiesu, hserves, hfull⟩ := ih hfair (hwaiting ▸ hi)
        (fun v hv => by rw [Option.some.inj (hv.symm.trans htask)]; exact hless) (by omega)
        _ htask hless
      refine ⟨fun k hk => ?_, u, ?_, hfairu, by omega, ?_, hfull⟩
      · cases k with
        | zero => exact ⟨s, rfl, rfl⟩
        | succ k =>
            obtain ⟨v, hv, hvc⟩ := hstay k (by omega)
            refine ⟨v, ?_, hvc.trans hcurrent⟩
            rw [ticking, hrun]
            exact hv
      · rw [ticking, hrun]
        exact hu
      · refine hserves.congr hcurrent.symm hwaiting.symm fun j hj => ?_
        have hmem : j ∈ waiting s.sched := hwaiting ▸ hj
        rw [hsched, stamp_modify _ hmem]

/-- **EXACT ROUND ROBIN**: among tasks that only compute and have the same slice, a task runs
    when the rest of the running slice and one slice for each task ahead of it are over, and
    not one tick earlier. -/
theorem runs_at_its_turn {s : Clock} {m : Nat} (h : Fair p s) (hi : i ∈ waiting s.sched)
    (hm : ∀ t, s.sched.task_table s.sched.current = some t → t.ticks = m)
    (hnow : s.jiffies.toNat + (m + ((turnsOf s.sched).ahead i).card * p) < 2 ^ 32) :
    (∃ s', ticking (m + ((turnsOf s.sched).ahead i).card * p) s = .ok s' ∧
        s'.sched.current = i) ∧
      ∀ k < m + ((turnsOf s.sched).ahead i).card * p,
        ∃ s', ticking k s = .ok s' ∧ s'.sched.current ≠ i := by
  induction hr : ((turnsOf s.sched).ahead i).card generalizing s m with
  | zero =>
      rw [hr] at hnow
      obtain ⟨t, ht, -, -, hpos, -⟩ := h.running
      have hticks := hm t ht
      obtain ⟨m, rfl⟩ : ∃ n, m = n + 1 := ⟨m - 1, by omega⟩
      obtain ⟨hstay, s', hrun, -, -, hserves, -⟩ := slice h hi hm (by omega)
      rw [Nat.zero_mul, Nat.add_zero]
      refine ⟨⟨s', hrun, ?_⟩, fun k hk => ?_⟩
      · rcases hserves.turn hi with ⟨hcurrent, -⟩ | ⟨-, -, hmore⟩
        · exact hcurrent
        · omega
      · obtain ⟨u, hu, hcurrent⟩ := hstay k (by omega)
        exact ⟨u, hu, hcurrent ▸ Ne.symm (mem_waiting.mp hi).2.1⟩
  | succ r ih =>
      rw [hr, Nat.succ_mul] at hnow
      obtain ⟨t, ht, -, -, hpos, -⟩ := h.running
      have hticks := hm t ht
      obtain ⟨m, rfl⟩ : ∃ n, m = n + 1 := ⟨m - 1, by omega⟩
      obtain ⟨hstay, s', hrun, hfair, hjiffies, hserves, hfull⟩ := slice h hi hm (by omega)
      rcases hserves.turn hi with ⟨-, hnone⟩ | ⟨hne, hwait, hless⟩
      · omega
      -- the task that was next is served, and one less is ahead
      have hahead : ((turnsOf s'.sched).ahead i).card = r := by omega
      obtain ⟨⟨v, hv, hvi⟩, hbefore⟩ := ih hfair hwait hfull (by rw [hahead]; omega) hahead
      have hsum : m + 1 + (r + 1) * p = m + 1 + (p + r * p) := by
        rw [Nat.succ_mul, Nat.add_comm p]
      have hlater : ∀ k, ticking (m + 1 + k) s = ticking k s' := fun k => by
        rw [ticking_add, hrun]
        rfl
      rw [hsum]
      refine ⟨⟨v, (hlater _).trans hv, hvi⟩, fun k hk => ?_⟩
      by_cases hfirst : k ≤ m
      · obtain ⟨u, hu, hcurrent⟩ := hstay k hfirst
        exact ⟨u, hu, hcurrent ▸ Ne.symm (mem_waiting.mp hi).2.1⟩
      · obtain ⟨k', rfl⟩ : ∃ k', k = m + 1 + k' := ⟨k - (m + 1), by omega⟩
        obtain ⟨u, hu, hne⟩ := hbefore k' (by omega)
        exact ⟨u, (hlater k').trans hu, hne⟩

/-- A task in its slot, with what is left of its slice. -/
def taskOf (i : Nat) (state : TaskState) (priority : Nat) (ticks : Int) : Task where
  state := state
  node := none
  uid := NORMAL_USER
  pid := i
  ppid := 0
  status := 0
  waitpid := 0
  pc := .user
  priority := priority
  ticks := ticks
  jiffies := 0
  sid := 0
  signal := 0

/-- The idle task, one that runs and two that wait. -/
def threeTasks : Clock where
  sched :=
    { task_table := fun i => match i with
        | 0 => some (taskOf 0 .ready 1 1)
        | 1 => some (taskOf 1 .running 5 2)
        | 2 => some (taskOf 2 .ready 5 5)
        | 3 => some (taskOf 3 .ready 5 5)
        | _ => none
      current := 1
      waiters := []
      timers := [] }
  jiffies := 0

theorem threeTasks_waiting (h : threeTasks.sched.task_table i = some t) (hi : i ∈ waiting threeTasks.sched) :
    t = taskOf i .ready 5 5 := by
  obtain ⟨-, hne, hidle, -⟩ := mem_waiting.mp hi
  match i, h with
  | 0, _ => exact absurd rfl hidle
  | 1, _ => exact absurd rfl hne
  | 2, h => exact (Option.some.inj h).symm
  | 3, h => exact (Option.some.inj h).symm

theorem threeTasks_fair : Fair 5 threeTasks := by
  refine ⟨⟨fun i hi t ht => ?_, fun t ht _ => ?_⟩, ⟨_, rfl, rfl, rfl, by decide, by decide⟩,
    ⟨by decide, by decide⟩, fun i hi t ht => ?_⟩
  · rw [threeTasks_waiting ht hi]
    exact ⟨rfl, rfl⟩
  · rw [← Option.some.inj ht]
    exact (by decide : (1 : Int) < 5)
  · rw [threeTasks_waiting ht hi]
    exact Nat.zero_le _

theorem runs_at_its_turn_three :
    (∃ s', ticking 7 threeTasks = .ok s' ∧ s'.sched.current = 3) ∧
      ∀ k < 7, ∃ s', ticking k threeTasks = .ok s' ∧ s'.sched.current ≠ 3 := by
  have hmem : 3 ∈ waiting threeTasks.sched :=
    mem_waiting.mpr ⟨by decide, by decide, by decide, _, rfl, rfl⟩
  have hahead : ((turnsOf threeTasks.sched).ahead 3).card = 1 := by decide
  have h := @runs_at_its_turn 3 5 threeTasks 2 threeTasks_fair hmem
    (fun t ht => by rw [← Option.some.inj ht]; rfl) (by rw [hahead]; decide)
  rw [hahead] at h
  exact h

end NeonixScheduler
