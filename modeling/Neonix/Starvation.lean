import Neonix.Runs
import Neonix.Scheduler

/-! # A ready task that never runs

    The search drops its candidate for a task with more ticks further along the
    table.  Where two tasks behind a ready one only compute, one of them is ready
    with a full slice at every switch, and the search never comes back. -/

namespace NeonixStarvation

open NeonixMachine NeonixTask NeonixRuns NeonixScheduler

/-- What happens between two switches, and what makes one. -/
inductive Event where
  /-- the clock interrupt -/
  | tick
  /-- `task_yield` -/
  | yield
  /-- `task_block` -/
  | block (list : WaitList) (state : TaskState)
  /-- `task_unblock` by whoever the task waits for -/
  | unblock (i : Nat) (reason : Int)
  /-- `task_fork` -/
  | fork
  /-- `task_exit` -/
  | exit (status : Int)
  /-- `kill` -/
  | kill (pid sig : Nat)

/-- A call of the running task, in which the clock does not count. -/
def calling (s : Clock) (call : Sched → Res Sched) : Res Clock := do
  let sched ← call s.sched
  return { s with sched := sched }

def exec (s : Clock) : Event → Res Clock
  | .tick => clockHandler s
  | .yield => calling s fun k => .ok (schedule k .ticks)
  | .block list state => calling s fun k => taskBlock k list state .ticks
  | .unblock i reason => calling s fun k => .ok (taskUnblock k i reason)
  | .fork => calling s fun k => do
      let r ← taskFork k
      return r.2
  | .exit status => calling s fun k => taskExit k status .ticks
  | .kill pid sig => calling s fun k => .ok (sysKill k pid sig)

/-- A task is woken where it waits. -/
def enabled (s : Clock) : Event → Prop
  | .unblock i _ => ∀ t, s.sched.task_table i = some t → t.state ≠ .ready ∧ t.state ≠ .running
  | _ => True

/-- The tasks `a` and `b` only compute: they do not give up the processor. -/
def computing (a b : Nat) (s : Clock) : Event → Prop
  | .yield => s.sched.current ≠ a ∧ s.sched.current ≠ b
  | .block _ _ => s.sched.current ≠ a ∧ s.sched.current ≠ b
  | .exit _ => s.sched.current ≠ a ∧ s.sched.current ≠ b
  | _ => True

def system : System Clock Event := execSystem (fun _ => True) enabled exec

/-! ## What the search passes over -/

variable {s s' : Sched} {left : Int} {a b i v x : Nat} {t : Task}

/-- A candidate other than `v` is replaced by others only, where `v` is not met. -/
theorem fold_avoids (l : List Nat) (hl : v ∉ l) : ∀ best : Option (Nat × Task),
    (∃ j u, best = some (j, u) ∧ j ≠ v) →
    ∃ j u, l.foldl (searchStep s .ready) best = some (j, u) ∧ j ≠ v := by
  induction l with
  | nil => exact fun best h => h
  | cons k l ih =>
      rintro best ⟨j, u, rfl, hj⟩
      rw [List.mem_cons, not_or] at hl
      rw [List.foldl_cons]
      refine ih hl.2 _ ?_
      rw [searchStep]
      cases s.task_table k with
      | none => exact ⟨j, u, rfl, hj⟩
      | some ptr =>
          dsimp only
          split_ifs
          · exact ⟨j, u, rfl, hj⟩
          · exact ⟨j, u, rfl, hj⟩
          · exact ⟨k, ptr, rfl, Ne.symm hl.1⟩
          · exact ⟨j, u, rfl, hj⟩

/-- A candidate is a task of the table. -/
theorem fold_entry (l : List Nat) : ∀ best : Option (Nat × Task),
    (∀ i t, best = some (i, t) → s.task_table i = some t) →
    ∀ i t, l.foldl (searchStep s .ready) best = some (i, t) → s.task_table i = some t := by
  induction l with
  | nil => exact fun best h => h
  | cons k l ih =>
      intro best h
      rw [List.foldl_cons]
      refine ih _ fun i t hstep => ?_
      rw [searchStep] at hstep
      cases hk : s.task_table k with
      | none =>
          rw [hk] at hstep
          exact h i t hstep
      | some ptr =>
          have htaken : some (k, ptr) = some (i, t) → s.task_table i = some t := by
            rintro heq
            obtain ⟨rfl, rfl⟩ := Prod.mk.inj (Option.some.inj heq)
            exact hk
          rw [hk] at hstep
          dsimp only at hstep
          split_ifs at hstep with hstate hcurrent
          · exact h i t hstep
          · exact h i t hstep
          · cases best with
            | none => exact htaken hstep
            | some b =>
                dsimp only at hstep
                split_ifs at hstep
                · exact htaken hstep
                · exact h i t hstep

/-- A ready task with more ticks further along the table hides a task. -/
theorem search_passes (hv : ∀ t, s.task_table v = some t → t.ticks = left) (hlt : v < x)
    (hx : x < TASK_NR) (hne : x ≠ s.current) (ht : s.task_table x = some t)
    (hs : t.state = .ready) (hmore : left < t.ticks) : taskSearch s ≠ v := by
  obtain ⟨before, behind, hsplit⟩ := List.append_of_mem (List.mem_range.mpr hx)
  have hsorted := List.pairwise_lt_range (n := TASK_NR)
  rw [hsplit] at hsorted
  have hbehind : v ∉ behind := fun hmem => by
    have hlater := (List.pairwise_cons.mp (List.pairwise_append.mp hsorted).2.1).1 v hmem
    omega
  have hentry := fold_entry (s := s) before none (by rintro i u ⟨⟩)
  have hstep : ∃ j u, searchStep s .ready (before.foldl (searchStep s .ready) none) x =
      some (j, u) ∧ j ≠ v := by
    generalize before.foldl (searchStep s .ready) none = best at hentry
    rw [searchStep, ht]
    dsimp only
    rw [if_neg (not_not_intro hs), if_neg hne]
    cases best with
    | none => exact ⟨x, t, rfl, by omega⟩
    | some b =>
        obtain ⟨j, u⟩ := b
        dsimp only
        by_cases hj : j = v
        · subst hj
          have hless := hv u (hentry j u rfl)
          rw [if_pos (Or.inl (by omega))]
          exact ⟨x, t, rfl, by omega⟩
        · split_ifs
          · exact ⟨x, t, rfl, by omega⟩
          · exact ⟨j, u, rfl, hj⟩
  obtain ⟨j, u, hlast, hj⟩ := fold_avoids behind hbehind _ hstep
  rw [taskSearch, slots, hsplit, List.foldl_append, List.foldl_cons, hlast]
  exact hj

/-! ## The invariant -/

/-- What the search and the clock look at. -/
def counters (t : Task) : TaskState × Int × Nat := (t.state, t.ticks, t.priority)

/-- A task that computes: it runs, or is ready with more than `left` ticks. -/
def Computes (left : Int) (s : Sched) (x : Nat) : Prop :=
  ∃ t, s.task_table x = some t ∧ left < t.priority ∧
    (x = s.current ∧ t.state = .running ∧ 0 < t.ticks ∨
      x ≠ s.current ∧ t.state = .ready ∧ left < t.ticks)

/-- A ready task with `left` ticks, and two tasks behind it that compute. -/
structure Starved (left : Int) (v a b : Nat) (s : Sched) : Prop where
  nonneg : 0 ≤ left
  behind : v < a ∧ v < b ∧ a ≠ b ∧ a < TASK_NR ∧ b < TASK_NR
  victim : v ≠ s.current ∧ ∃ t, s.task_table v = some t ∧ t.state = .ready ∧ t.ticks = left
  first : Computes left s a
  second : Computes left s b

/-- A step that leaves the counters of a task alone. -/
def Untouched (s s' : Sched) (i : Nat) : Prop :=
  (s'.task_table i).map counters = (s.task_table i).map counters

theorem Untouched.get (h : Untouched s s' i) (ht : s.task_table i = some t) :
    ∃ t', s'.task_table i = some t' ∧ t'.state = t.state ∧ t'.ticks = t.ticks ∧
      t'.priority = t.priority := by
  rw [Untouched, ht] at h
  obtain ⟨t', ht', heq⟩ := Option.map_eq_some_iff.mp h
  obtain ⟨hs, hrest⟩ := Prod.mk.inj heq
  obtain ⟨hticks, hprio⟩ := Prod.mk.inj hrest
  exact ⟨t', ht', hs, hticks, hprio⟩

theorem Untouched.trans {s'' : Sched} (h : Untouched s s' i) (h' : Untouched s' s'' i) :
    Untouched s s'' i := Eq.trans h' h

theorem untouched_modify {f : Task → Task} (h : i ≠ x ∨ ∀ t, counters (f t) = counters t) :
    Untouched s (s.modify x f) i := by
  by_cases hi : i = x
  · subst hi
    rw [Untouched, modify_map]
    cases s.task_table i with
    | none => rfl
    | some t => exact congrArg some ((h.resolve_left fun hne => hne rfl) t)
  · rw [Untouched, modify_ne f hi]

theorem untouched_forEach {f : Nat → Task → Task} (h : ∀ t, counters (f i t) = counters t) :
    Untouched s (s.forEach f) i := by
  show ((s.task_table i).map (f i)).map counters = _
  cases s.task_table i with
  | none => rfl
  | some t => exact congrArg some (h t)

theorem Computes.congr (h : Computes left s x) (hcurrent : s'.current = s.current)
    (hu : Untouched s s' x) : Computes left s' x := by
  obtain ⟨t, ht, hprio, hrest⟩ := h
  obtain ⟨t', ht', hs, hticks, hprio'⟩ := hu.get ht
  refine ⟨t', ht', hprio' ▸ hprio, ?_⟩
  rw [hcurrent, hs, hticks]
  exact hrest

theorem Starved.congr (h : Starved left v a b s) (hcurrent : s'.current = s.current)
    (hv : Untouched s s' v) (ha : Untouched s s' a) (hb : Untouched s s' b) :
    Starved left v a b s' := by
  obtain ⟨hne, t, ht, hs, hticks⟩ := h.victim
  obtain ⟨t', ht', hs', hticks', -⟩ := hv.get ht
  exact ⟨h.nonneg, h.behind, ⟨hcurrent ▸ hne, t', ht', hs'.trans hs, hticks'.trans hticks⟩,
    h.first.congr hcurrent ha, h.second.congr hcurrent hb⟩

/-! ## The steps -/

/-- A task that computes, at a switch: its slice is over, or it is ready. -/
def AtSwitch (left : Int) (s : Sched) (x : Nat) : Prop :=
  ∃ t, s.task_table x = some t ∧ left < t.priority ∧
    (x = s.current ∧ t.state = .running ∧ t.ticks = 0 ∨
      x ≠ s.current ∧ t.state = .ready ∧ left < t.ticks)

theorem AtSwitch.computes (h : AtSwitch left s x) (hleft : 0 ≤ left)
    (hne : taskSearch s ≠ s.current) : Computes left (schedule s .ticks) x := by
  obtain ⟨t, ht, hprio, hrest⟩ := h
  have htable := schedule_table hne x
  rw [ht] at htable
  have hcurrent : (schedule s .ticks).current = taskSearch s := rfl
  rcases hrest with ⟨rfl, hs, hzero⟩ | ⟨hx, hs, hmore⟩
  · rw [if_neg (Ne.symm hne), if_pos rfl, Option.map_some, refill, if_pos hs, if_pos hzero] at htable
    exact ⟨_, htable, hprio, Or.inr ⟨hcurrent ▸ Ne.symm hne, rfl, hprio⟩⟩
  · by_cases hnext : x = taskSearch s
    · rw [if_pos hnext] at htable
      refine ⟨_, htable, hprio, Or.inl ⟨hnext, rfl, ?_⟩⟩
      show 0 < t.ticks
      omega
    · rw [if_neg hnext, if_neg hx] at htable
      exact ⟨t, htable, hprio, Or.inr ⟨hnext, hs, hmore⟩⟩

/-- No switch takes the victim. -/
theorem starved_schedule (hleft : 0 ≤ left)
    (hbehind : v < a ∧ v < b ∧ a ≠ b ∧ a < TASK_NR ∧ b < TASK_NR)
    (hvictim : v ≠ s.current ∧ ∃ t, s.task_table v = some t ∧ t.state = .ready ∧ t.ticks = left)
    (ha : AtSwitch left s a) (hb : AtSwitch left s b) :
    Starved left v a b (schedule s .ticks) := by
  obtain ⟨hva, hvb, hab, halt, hblt⟩ := hbehind
  obtain ⟨hv, t, ht, hs, hticks⟩ := hvictim
  -- one of the two is ready
  obtain ⟨x, u, hvx, hx, hne, hu, hus, hmore⟩ : ∃ x u, v < x ∧ x < TASK_NR ∧ x ≠ s.current ∧
      s.task_table x = some u ∧ u.state = .ready ∧ left < u.ticks := by
    obtain ⟨u, hu, -, hrest⟩ := ha
    obtain ⟨w, hw, -, hrest'⟩ := hb
    rcases hrest with ⟨hcurrent, -⟩ | ⟨hne, hus, hmore⟩
    · rcases hrest' with ⟨hcurrent', -⟩ | ⟨hne, hws, hmore⟩
      · exact absurd (hcurrent.trans hcurrent'.symm) hab
      · exact ⟨b, w, hvb, hblt, hne, hw, hws, hmore⟩
    · exact ⟨a, u, hva, halt, hne, hu, hus, hmore⟩
  have hpass : taskSearch s ≠ v := search_passes
    (fun w hw => by rw [Option.some.inj (hw.symm.trans ht), hticks]) hvx hx hne hu hus hmore
  have hswitch : taskSearch s ≠ s.current := by
    rcases taskSearch_canPick s with ⟨-, hother, -⟩ | ⟨-, hnone⟩
    · exact hother
    · exact absurd hus (hnone x (List.mem_range.mpr hx) hne u hu)
  refine ⟨hleft, ⟨hva, hvb, hab, halt, hblt⟩, ⟨Ne.symm hpass, t, ?_, hs, hticks⟩,
    ha.computes hleft hswitch, hb.computes hleft hswitch⟩
  rw [schedule_table hswitch, if_neg (Ne.symm hpass), if_neg hv]
  exact ht

/-- A task that does not run is as it is at a switch. -/
theorem Computes.atSwitch (h : Computes left s x) (hne : s.current ≠ x) : AtSwitch left s x := by
  obtain ⟨t, ht, hprio, ⟨hcurrent, -⟩ | hready⟩ := h
  · exact absurd hcurrent.symm hne
  · exact ⟨t, ht, hprio, Or.inr hready⟩

/-- A switch by a task that is none of the three. -/
theorem Starved.schedule (h : Starved left v a b s) (ha : s.current ≠ a) (hb : s.current ≠ b) :
    Starved left v a b (schedule s .ticks) :=
  starved_schedule h.nonneg h.behind h.victim (h.first.atSwitch ha) (h.second.atSwitch hb)

/-- A tick, of one of the two or of another task. -/
theorem Starved.tick {c c' : Clock} (h : Starved left v a b c.sched)
    (hrun : clockHandler c = .ok c') : Starved left v a b c'.sched := by
  rw [clockHandler, runningTask] at hrun
  cases ht : c.sched.task_table c.sched.current with
  | none =>
      rw [ht] at hrun
      cases hrun
  | some t =>
      rw [ht] at hrun
      obtain rfl := Except.ok.inj hrun
      have hself := modify_self ht (spend (c.jiffies + 1))
      have hothers : ∀ x, x ≠ c.sched.current →
          Untouched c.sched (c.sched.modify c.sched.current (spend (c.jiffies + 1))) x :=
        fun x hx => untouched_modify (Or.inl hx)
      obtain ⟨hv, u, hu, hs, hticks⟩ := h.victim
      obtain ⟨u', hu', hs', hticks', -⟩ := (hothers v hv).get hu
      by_cases hzero : (spend (c.jiffies + 1) t).ticks = 0
      · -- the slice is over
        have hat : ∀ x, Computes left c.sched x →
            AtSwitch left (c.sched.modify c.sched.current (spend (c.jiffies + 1))) x := by
          rintro x ⟨w, hw, hprio, ⟨rfl, hws, hpos⟩ | ⟨hx, hws, hmore⟩⟩
          · obtain rfl := Option.some.inj (hw.symm.trans ht)
            exact ⟨_, hself, hprio, Or.inl ⟨rfl, hws, hzero⟩⟩
          · obtain ⟨w', hw', hws', hwt, hwp⟩ := (hothers x hx).get hw
            exact ⟨w', hw', hwp ▸ hprio, Or.inr ⟨hx, hws'.trans hws, hwt ▸ hmore⟩⟩
        show Starved left v a b (if (spend (c.jiffies + 1) t).ticks = 0 then _ else _)
        rw [if_pos hzero]
        exact starved_schedule h.nonneg h.behind
          ⟨hv, u', hu', hs'.trans hs, hticks'.trans hticks⟩ (hat a h.first) (hat b h.second)
      · have hgo : ∀ x, Computes left c.sched x →
            Computes left (c.sched.modify c.sched.current (spend (c.jiffies + 1))) x := by
          rintro x ⟨w, hw, hprio, ⟨rfl, hws, hpos⟩ | ⟨hx, hws, hmore⟩⟩
          · obtain rfl := Option.some.inj (hw.symm.trans ht)
            refine ⟨_, hself, hprio, Or.inl ⟨rfl, hws, ?_⟩⟩
            have hleft : ¬ w.ticks - 1 = 0 := hzero
            show 0 < w.ticks - 1
            omega
          · obtain ⟨w', hw', hws', hwt, hwp⟩ := (hothers x hx).get hw
            exact ⟨w', hw', hwp ▸ hprio, Or.inr ⟨hx, hws'.trans hws, hwt ▸ hmore⟩⟩
        show Starved left v a b (if (spend (c.jiffies + 1) t).ticks = 0 then _ else _)
        rw [if_neg hzero]
        exact ⟨h.nonneg, h.behind, ⟨hv, u', hu', hs'.trans hs, hticks'.trans hticks⟩,
          hgo a h.first, hgo b h.second⟩

/-! ## Calls of the running task -/

/-- A task that is ready or runs. -/
def Live (s : Sched) (i : Nat) : Prop :=
  ∃ t, s.task_table i = some t ∧ (t.state = .ready ∨ t.state = .running)

/-- A call that neither switches nor looks after task `i`. -/
def Keeps (i : Nat) (s s' : Sched) : Prop := s'.current = s.current ∧ Untouched s s' i

theorem Keeps.refl (i : Nat) (s : Sched) : Keeps i s s := ⟨rfl, rfl⟩

theorem Keeps.trans {s'' : Sched} (h : Keeps i s s') (h' : Keeps i s' s'') : Keeps i s s'' :=
  ⟨h'.1.trans h.1, h.2.trans h'.2⟩

theorem Keeps.live (h : Keeps i s s') (hlive : Live s i) : Live s' i := by
  obtain ⟨t, ht, hs⟩ := hlive
  obtain ⟨t', ht', hs', -⟩ := h.2.get ht
  exact ⟨t', ht', hs' ▸ hs⟩

theorem Starved.live (h : Starved left v a b s) : Live s v ∧ Live s a ∧ Live s b := by
  have hlive : ∀ x, Computes left s x → Live s x := by
    rintro x ⟨t, ht, -, ⟨-, hs, -⟩ | ⟨-, hs, -⟩⟩
    · exact ⟨t, ht, Or.inr hs⟩
    · exact ⟨t, ht, Or.inl hs⟩
  obtain ⟨-, t, ht, hs, -⟩ := h.victim
  exact ⟨⟨t, ht, Or.inl hs⟩, hlive a h.first, hlive b h.second⟩

theorem Starved.keeps (h : Starved left v a b s) (hk : ∀ i, (i = v ∨ i = a ∨ i = b) → Keeps i s s') :
    Starved left v a b s' :=
  h.congr (hk v (Or.inl rfl)).1 (hk v (Or.inl rfl)).2 (hk a (Or.inr (Or.inl rfl))).2
    (hk b (Or.inr (Or.inr rfl))).2

theorem keeps_unblock {j : Nat} (reason : Int) (hlive : Live s i)
    (hj : ∀ t, s.task_table j = some t → t.state ≠ .ready ∧ t.state ≠ .running) :
    Keeps i s (taskUnblock s j reason) := by
  refine ⟨rfl, untouched_modify (Or.inl ?_)⟩
  rintro rfl
  obtain ⟨t, ht, hs | hs⟩ := hlive
  · exact (hj t ht).1 hs
  · exact (hj t ht).2 hs

theorem waits_apart {state : TaskState} (h : state = .waiting ∨ state = .sleeping) :
    state ≠ .ready ∧ state ≠ .running := by
  rcases h with rfl | rfl
  · exact ⟨by decide, by decide⟩
  · exact ⟨by decide, by decide⟩

theorem keeps_kill (pid sig : Nat) (hlive : Live s i) : Keeps i s (sysKill s pid sig) := by
  rw [sysKill]
  by_cases hsig : sig < MINSIG ∨ sig > MAXSIG
  · rw [if_pos hsig]
    exact Keeps.refl i s
  rw [if_neg hsig]
  cases getTask s pid with
  | none => exact Keeps.refl i s
  | some j =>
      dsimp only
      cases hj : s.task_table j with
      | none => exact Keeps.refl i s
      | some t =>
          have hsignal : Keeps i s (s.modify j fun t => { t with signal := t.signal ||| sigmask sig }) :=
            ⟨rfl, untouched_modify (Or.inr fun _ => rfl)⟩
          dsimp only
          split_ifs with _ _ hwaits
          · exact Keeps.refl i s
          · exact Keeps.refl i s
          · refine hsignal.trans (keeps_unblock _ (hsignal.live hlive) fun u hu => ?_)
            obtain rfl := Option.some.inj (hu.symm.trans (modify_self hj _))
            exact waits_apart hwaits
          · exact hsignal

theorem keeps_fork {pid : Nat} (hlive : Live s i) (h : taskFork s = .ok (pid, s')) :
    Keeps i s s' := by
  obtain ⟨task, -, h⟩ := bind_eq_ok h
  obtain ⟨_, -, h⟩ := bind_eq_ok h
  cases hfree : freeSlot s with
  | none =>
      rw [hfree] at h
      cases h
  | some j =>
      rw [hfree] at h
      obtain ⟨rfl, rfl⟩ := Prod.mk.inj (Except.ok.inj h)
      have hnone := List.find?_some hfree
      obtain ⟨t, ht, -⟩ := hlive
      have hij : i ≠ j := by
        rintro rfl
        rw [ht] at hnone
        cases hnone
      exact ⟨rfl, congrArg (Option.map counters) (Function.update_of_ne hij _ _)⟩

theorem keeps_killSession (task : Task) : Keeps i s (taskKillSession s task) := by
  rw [taskKillSession]
  split_ifs
  · exact Keeps.refl i s
  · refine ⟨rfl, untouched_forEach fun t => ?_⟩
    split_ifs <;> rfl

theorem keeps_tellFather {task : Task} (h : taskTellFather s task = .ok s') : Keeps i s s' := by
  rw [taskTellFather] at h
  split_ifs at h
  · obtain rfl := Except.ok.inj h
    exact Keeps.refl i s
  · split at h
    · cases h
    · obtain rfl := Except.ok.inj h
      exact ⟨rfl, untouched_modify (Or.inr fun _ => rfl)⟩

theorem keeps_exitMark {status : Int} (hne : i ≠ s.current) (h : exitMark s status = .ok s') :
    Keeps i s s' := by
  obtain ⟨task, -, h⟩ := bind_eq_ok h
  obtain ⟨_, -, h⟩ := bind_eq_ok h
  obtain ⟨k, hk, h⟩ := bind_eq_ok h
  obtain rfl := Except.ok.inj h
  have hmark : Keeps i s (s.modify s.current fun t =>
      { t with state := .died, status := status, pc := .inExit }) :=
    ⟨rfl, untouched_modify (Or.inl hne)⟩
  have htold := keeps_tellFather (i := i) hk
  exact (hmark.trans (keeps_killSession task)).trans ⟨htold.1, htold.2⟩

theorem keeps_wakeFather {task : Task} (hlive : Live s i) (h : wakeFather s task = .ok s') :
    Keeps i s s' := by
  rw [wakeFather] at h
  cases hp : s.task_table task.ppid with
  | none =>
      rw [hp] at h
      cases h
  | some parent =>
      rw [hp] at h
      dsimp only at h
      split_ifs at h with hwaits
      · obtain rfl := Except.ok.inj h
        refine keeps_unblock _ hlive fun t ht => ?_
        obtain rfl := Option.some.inj (ht.symm.trans hp)
        exact waits_apart (Or.inl hwaits.1)
      · obtain rfl := Except.ok.inj h
        exact Keeps.refl i s

theorem keeps_reparent (task : Task) : Keeps i s (reparent s task) := by
  refine ⟨rfl, untouched_forEach fun t => ?_⟩
  split_ifs <;> rfl

/-- What ends in a switch by a task that does not compute. -/
theorem Starved.switched (h : Starved left v a b s) (ha : s.current ≠ a) (hb : s.current ≠ b)
    (hk : ∀ i, (i = v ∨ i = a ∨ i = b) → Keeps i s s') :
    Starved left v a b (NeonixTask.schedule s' .ticks) := by
  have hcurrent := (hk v (Or.inl rfl)).1
  exact (h.keeps hk).schedule (hcurrent ▸ ha) (hcurrent ▸ hb)

/-- **NO STEP HELPS THE VICTIM**. -/
theorem Starved.exec {c c' : Clock} {e : Event} (h : Starved left v a b c.sched)
    (hg : computing a b c e) (he : enabled c e) (hrun : exec c e = .ok c') :
    Starved left v a b c'.sched := by
  obtain ⟨hlv, hla, hlb⟩ := h.live
  have hlive : ∀ i, (i = v ∨ i = a ∨ i = b) → Live c.sched i := by
    rintro i (rfl | rfl | rfl)
    · exact hlv
    · exact hla
    · exact hlb
  cases e with
  | tick => exact h.tick hrun
  | yield =>
      obtain rfl := Except.ok.inj hrun
      exact h.schedule hg.1 hg.2
  | block list state =>
      obtain ⟨k, hk, hc⟩ := bind_eq_ok hrun
      obtain rfl := Except.ok.inj hc
      obtain ⟨task, -, hk⟩ := bind_eq_ok hk
      obtain ⟨_, -, hk⟩ := bind_eq_ok hk
      obtain ⟨_, -, hk⟩ := bind_eq_ok hk
      obtain rfl := Except.ok.inj hk
      refine h.switched hg.1 hg.2 ?_
      rintro i (rfl | rfl | rfl)
      · exact ⟨rfl, untouched_modify (Or.inl h.victim.1)⟩
      · exact ⟨rfl, untouched_modify (Or.inl (Ne.symm hg.1))⟩
      · exact ⟨rfl, untouched_modify (Or.inl (Ne.symm hg.2))⟩
  | unblock i reason =>
      obtain rfl := Except.ok.inj hrun
      exact h.keeps fun j hj => keeps_unblock reason (hlive j hj) he
  | fork =>
      obtain ⟨k, hk, hc⟩ := bind_eq_ok hrun
      obtain rfl := Except.ok.inj hc
      obtain ⟨r, hr, hk⟩ := bind_eq_ok hk
      obtain rfl := Except.ok.inj hk
      exact h.keeps fun j hj => keeps_fork (hlive j hj) hr
  | exit status =>
      obtain ⟨k, hk, hc⟩ := bind_eq_ok hrun
      obtain rfl := Except.ok.inj hc
      obtain ⟨m, hm, hk⟩ := bind_eq_ok hk
      obtain ⟨task, -, hk⟩ := bind_eq_ok hk
      obtain ⟨w, hw, hk⟩ := bind_eq_ok hk
      obtain rfl := Except.ok.inj hk
      have hmark : ∀ j, (j = v ∨ j = a ∨ j = b) → Keeps j c.sched m := by
        rintro j (rfl | rfl | rfl)
        · exact keeps_exitMark h.victim.1 hm
        · exact keeps_exitMark (Ne.symm hg.1) hm
        · exact keeps_exitMark (Ne.symm hg.2) hm
      refine h.switched hg.1 hg.2 fun j hj => ?_
      have hto := (hmark j hj).trans (keeps_reparent task)
      exact hto.trans (keeps_wakeFather (hto.live (hlive j hj)) hw)
  | kill pid sig =>
      obtain rfl := Except.ok.inj hrun
      exact h.keeps fun j hj => keeps_kill pid sig (hlive j hj)

/-- **STARVATION**: a ready task that has used part of its slice, with two tasks behind it in
    the table that only compute and have more, does not run in any state of any run, whatever
    the other tasks do. -/
theorem starves {c c' : Clock} {es : List Event} (h : Starved left v a b c.sched)
    (hrun : Run system (computing a b) c es c') :
    c'.sched.current ≠ v ∧
      ∃ t, c'.sched.task_table v = some t ∧ t.state = .ready ∧ t.ticks = left := by
  have hstep : ∀ (s : Clock) (e : Event) (t : Clock), Starved left v a b s.sched →
      computing a b s e → system.step s e t → Starved left v a b t.sched :=
    fun _ _ _ hs hg hstep => hs.exec hg hstep.1 hstep.2
  have hend := hrun.preserves hstep h
  exact ⟨Ne.symm hend.victim.1, hend.victim.2⟩

/-- One task that used a part of its slice, before two that compute. -/
def hungry : Clock where
  sched :=
    { task_table := fun i => match i with
        | 0 => some (taskOf 0 .ready 1 1)
        | 1 => some (taskOf 1 .ready 5 4)
        | 2 => some (taskOf 2 .running 5 1)
        | 3 => some (taskOf 3 .ready 5 5)
        | _ => none
      current := 2
      waiters := []
      timers := [] }
  jiffies := 0

theorem hungry_starved : Starved 4 1 2 3 hungry.sched :=
  ⟨by decide, ⟨by decide, by decide, by decide, by decide, by decide⟩,
    ⟨by decide, _, rfl, rfl, rfl⟩, ⟨_, rfl, by decide, Or.inl ⟨rfl, rfl, by decide⟩⟩,
    ⟨_, rfl, by decide, Or.inr ⟨by decide, rfl, by decide⟩⟩⟩

theorem starves_hungry : ∃ c', Run system (computing 2 3) hungry [.tick] c' ∧
    c'.sched.current ≠ 1 ∧
      ∃ t, c'.sched.task_table 1 = some t ∧ t.state = .ready ∧ t.ticks = 4 := by
  obtain ⟨c', hc'⟩ : ∃ c', clockHandler hungry = .ok c' := ⟨_, rfl⟩
  have hrun : Run system (computing 2 3) hungry ([] ++ [.tick]) c' :=
    (Run.nil hungry).snoc trivial ⟨trivial, hc'⟩
  exact ⟨c', hrun, starves hungry_starved hrun⟩

end NeonixStarvation
