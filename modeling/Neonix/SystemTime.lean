import Neonix.TimerList

/-! # `kernel/clock.c`: the time of the system

    The clock interrupt counts `jiffies`, and `sys_time` makes seconds of the
    count.  It multiplies before it divides, in `u32`, so the product wraps when
    the count is a tenth of what it can be. -/

namespace NeonixSystemTime

open NeonixMachine NeonixRuns NeonixTimerList
open NeonixTimers (JIFFY)

variable {H : Type}

/-- What the clock keeps of the running task. -/
structure Task where
  jiffies : BitVec 32
  ticks : BitVec 32

structure State (H : Type) where
  /-- `jiffies` and the timers -/
  clock : NeonixTimerList.State H
  task : Task
  startup_time : BitVec 32

/-- `clock_handler`, where `next` is the task that `schedule` takes. -/
def clockHandler (vector : Nat) (next : Task) (s : State H) : Res (State H) := do
  check (vector = 0x20)
  let clock ← timerWakeup { s.clock with jiffies := s.clock.jiffies + 1 }
  let task : Task := { jiffies := clock.jiffies, ticks := s.task.ticks - 1 }
  return { s with clock := clock, task := if task.ticks = 0 then next else task }

/-- `sys_time`. -/
def sysTime (s : State H) : BitVec 32 := s.startup_time + s.clock.jiffies * JIFFY / 1000

inductive Event (H : Type) where
  | interrupt (vector : Nat) (next : Task)
  | add (task : Nat) (expire_ms : BitVec 32) (handler : Option H) (arg : Nat)
  | put (number : Nat)
  | remove (task : Nat)

def exec (s : State H) : Event H → Res (State H)
  | .interrupt vector next => clockHandler vector next s
  | .add task expire_ms handler arg =>
      .ok { s with clock := timerAdd s.clock task expire_ms handler arg }
  | .put number => do
      let clock ← timerPut s.clock number
      return { s with clock := clock }
  | .remove task => .ok { s with clock := timerRemove s.clock task }

/-- The system starts with no tick counted. -/
def system (startup_time : BitVec 32) : System (State H) (Event H) :=
  execSystem (fun s => s.clock = NeonixTimerList.boot ∧ s.startup_time = startup_time)
    (fun _ _ => True) exec

/-- The clock interrupts among the events. -/
def ticks : List (Event H) → Nat
  | [] => 0
  | .interrupt .. :: es => ticks es + 1
  | _ :: es => ticks es

/-! ## What `sys_time` counts -/

/-- The sum of `sys_time`, before it is cut to a `u32`. -/
def sum (s : State H) : Nat := s.startup_time.toNat + (s.clock.jiffies * JIFFY / 1000).toNat

variable {startup_time : BitVec 32} {s t : State H} {e : Event H} {es es' : List (Event H)}

theorem sysTime_eq (s : State H) : sysTime s = BitVec.ofNat 32 (sum s) := by
  rw [sum, BitVec.ofNat_add, BitVec.ofNat_toNat, BitVec.ofNat_toNat, BitVec.setWidth_eq,
    BitVec.setWidth_eq]
  rfl

@[simp] theorem ticks_append (es es' : List (Event H)) :
    ticks (es ++ es') = ticks es + ticks es' := by
  induction es with
  | nil => exact (Nat.zero_add _).symm
  | cons e es ih =>
      cases e with
      | interrupt _ _ =>
          show ticks (es ++ es') + 1 = ticks es + 1 + ticks es'
          omega
      | add _ _ _ _ | put _ | remove _ => exact ih

/-- The timers do not change the count. -/
theorem wakeup_jiffies (l : List (Timer H)) (c d : NeonixTimerList.State H)
    (h : wakeupLoop l c = .ok d) : d.jiffies = c.jiffies := by
  induction l generalizing c with
  | nil =>
      rw [wakeupLoop] at h
      split at h
      · cases h
      · rw [← Except.ok.inj h]
  | cons timer l ih =>
      rw [wakeupLoop] at h
      split at h
      · have hrest := ih _ h
        exact hrest
      · rw [← Except.ok.inj h]

/-- An event counts where it is an interrupt of the clock. -/
theorem exec_jiffies (h : exec s e = .ok t) : t.startup_time = s.startup_time ∧
    t.clock.jiffies = s.clock.jiffies + BitVec.ofNat 32 (ticks [e]) := by
  cases e with
  | interrupt vector next =>
      obtain ⟨_, -, h⟩ := bind_eq_ok h
      obtain ⟨clock, hclock, ht⟩ := bind_eq_ok h
      obtain rfl := Except.ok.inj ht
      exact ⟨rfl, wakeup_jiffies _ _ _ hclock⟩
  | add task expire_ms handler arg =>
      obtain rfl := Except.ok.inj h
      exact ⟨rfl, (BitVec.add_zero _).symm⟩
  | put number =>
      obtain ⟨clock, hclock, ht⟩ := bind_eq_ok h
      obtain rfl := Except.ok.inj ht
      refine ⟨rfl, ?_⟩
      rw [timerPut] at hclock
      split at hclock
      · obtain rfl := Except.ok.inj hclock
        exact (BitVec.add_zero _).symm
      · cases hclock
  | remove task =>
      obtain rfl := Except.ok.inj h
      exact ⟨rfl, (BitVec.add_zero _).symm⟩

/-- A run counts its interrupts of the clock. -/
theorem run_jiffies (h : Run (system startup_time) free s es t) :
    t.startup_time = s.startup_time ∧
      t.clock.jiffies = s.clock.jiffies + BitVec.ofNat 32 (ticks es) := by
  induction h with
  | nil => exact ⟨rfl, (BitVec.add_zero _).symm⟩
  | snoc _ _ hstep ih =>
      obtain ⟨hstart, hcount⟩ := exec_jiffies hstep.2
      refine ⟨hstart.trans ih.1, ?_⟩
      rw [hcount, ih.2, ticks_append, BitVec.ofNat_add, BitVec.add_assoc]

/-- The sum after so many ticks. -/
theorem sum_eq (hstart : s.startup_time = startup_time) {n : Nat} (hn : n < 2 ^ 32)
    (hcount : s.clock.jiffies = BitVec.ofNat 32 n) :
    sum s = startup_time.toNat + n * 10 % 2 ^ 32 / 1000 := by
  rw [sum, hstart, hcount, BitVec.toNat_udiv, BitVec.toNat_mul, BitVec.toNat_ofNat,
    Nat.mod_eq_of_lt hn]
  rfl

/-! ## The time of a run -/

/-- Along the run `sys_time` is the second of the tick, and goes forward only. -/
def Kept (startup_time : BitVec 32) (s : State H) (es : List (Event H)) : Prop :=
  ∀ es₁ es₂ es₃ u v, es = es₁ ++ es₂ ++ es₃ → Run (system startup_time) free s es₁ u →
    Run (system startup_time) free u es₂ v →
      sum u = startup_time.toNat + ticks es₁ / 100 ∧
        sysTime u = BitVec.ofNat 32 (startup_time.toNat + ticks es₁ / 100) ∧ sum u ≤ sum v

/-- The sum a run from the start leads to. -/
theorem run_sum (h0 : (system startup_time).init s) (h : Run (system startup_time) free s es t)
    (hn : ticks es < 2 ^ 32) : sum t = startup_time.toNat + ticks es * 10 % 2 ^ 32 / 1000 := by
  obtain ⟨hstart, hcount⟩ := run_jiffies h
  refine sum_eq (hstart.trans h0.2) hn ?_
  rw [hcount, h0.1]
  exact BitVec.zero_add _

/-- The product stands for the time up to its first wrap. -/
theorem product_iff {n : Nat} : n * 10 % 2 ^ 32 / 1000 = n / 100 ↔ n * 10 < 2 ^ 32 := by
  omega

/-- The runs whose time is right are those in which ten times the ticks make a
    `u32`. -/
theorem time_kept (h0 : (system startup_time).init s) (h : Run (system startup_time) free s es t)
    (hn : ticks es < 2 ^ 32) : Kept startup_time s es ↔ ticks es * 10 < 2 ^ 32 := by
  constructor
  · intro hk
    have hall := (hk es [] [] t t (by rw [List.append_nil, List.append_nil]) h (.nil t)).1
    rw [run_sum h0 h hn] at hall
    exact product_iff.mp (Nat.add_left_cancel hall)
  · intro hlt es₁ es₂ es₃ u v hes hu hv
    -- both states are reached with fewer ticks than the whole run has
    have hticks : ticks es = ticks es₁ + ticks es₂ + ticks es₃ := by
      rw [hes, ticks_append, ticks_append]
    have hsum : sum u = startup_time.toNat + ticks es₁ / 100 := by
      rw [run_sum h0 hu (by omega), product_iff.mpr (by omega)]
    refine ⟨hsum, ?_, ?_⟩
    · rw [sysTime_eq, hsum]
    · obtain ⟨hstart, hcount⟩ := run_jiffies hv
      obtain ⟨hstart', hcount'⟩ := run_jiffies hu
      have hboth : v.clock.jiffies = BitVec.ofNat 32 (ticks es₁ + ticks es₂) := by
        rw [hcount, hcount', h0.1, BitVec.ofNat_add]
        exact congrArg (· + _) (BitVec.zero_add _)
      have hlater := sum_eq (hstart.trans (hstart'.trans h0.2)) (by omega) hboth
      rw [product_iff.mpr (by omega)] at hlater
      rw [hsum, hlater]
      exact Nat.add_le_add_left (Nat.div_le_div_right (Nat.le_add_right _ _)) _

/-- The system before the first tick. -/
def start (startup_time : BitVec 32) : State H :=
  { clock := NeonixTimerList.boot, task := ⟨0, 5⟩, startup_time := startup_time }

/-- An interrupt of the clock. -/
def tick : Event H := .interrupt 0x20 ⟨0, 5⟩

/-- The system after a number of ticks without a timer. -/
theorem idle (startup_time : BitVec 32) (n : Nat) (hn : n < 2 ^ 32 - 1) :
    ∃ t : State H, Run (system startup_time) free (start startup_time) (List.replicate n tick) t ∧
      ticks (List.replicate n (tick : Event H)) = n ∧ t.clock.timer_list = [] := by
  induction n with
  | zero => exact ⟨_, .nil _, rfl, rfl⟩
  | succ n ih =>
      obtain ⟨t, hrun, hticks, hlist⟩ := ih (by omega)
      have hcount : t.clock.jiffies + 1 = BitVec.ofNat 32 (n + 1) := by
        rw [(run_jiffies hrun).2, hticks, BitVec.ofNat_add, BitVec.add_assoc]
        exact BitVec.zero_add _
      have hlt : t.clock.jiffies + 1 < NeonixTimers.EOF := by
        rw [hcount, BitVec.lt_def, eof_toNat, BitVec.toNat_ofNat, Nat.mod_eq_of_lt (by omega)]
        exact hn
      have hwake := tick_eq hlt
      rw [hlist] at hwake
      obtain ⟨u, hu, hnone⟩ : ∃ u : State H, exec t tick = .ok u ∧ u.clock.timer_list = [] := by
        show ∃ u, clockHandler 0x20 ⟨0, 5⟩ t = .ok u ∧ u.clock.timer_list = []
        rw [clockHandler, check_pos rfl, bind_ok]
        replace hwake : timerWakeup { t.clock with jiffies := t.clock.jiffies + 1 } = _ := hwake
        rw [hwake]
        exact ⟨_, rfl, rfl⟩
      rw [List.replicate_succ', ticks_append, hticks]
      exact ⟨u, hrun.snoc trivial ⟨trivial, hu⟩, rfl, hnone⟩

/-- Two ticks of the clock, with an alarm set between them. -/
theorem time_kept_two : Kept 1000 (start 1000 : State Unit) [tick, .add 1 500 none 0, tick] ↔
    ticks [(tick : Event Unit), .add 1 500 none 0, tick] * 10 < 2 ^ 32 := by
  have hnone : Run (system 1000) free (start 1000 : State Unit) [] (start 1000) := .nil _
  have hfirst := hnone.snoc (e := tick) trivial ⟨trivial, rfl⟩
  have hsecond := hfirst.snoc (e := .add 1 500 none 0) trivial ⟨trivial, rfl⟩
  have hthird := hsecond.snoc (e := tick) trivial ⟨trivial, rfl⟩
  exact time_kept ⟨rfl, rfl⟩ hthird (by decide)

/-- With the tick after 49 days the time falls back to the time of the start. -/
theorem time_back : ∃ (es : List (Event Unit)) (u v : State Unit), ticks es = 429496729 ∧
    Run (system 1000) free (start 1000) es u ∧
    Run (system 1000) free (start 1000) (es ++ [tick]) v ∧
    sysTime u = 4295967 ∧ sysTime v = 1000 ∧ ¬ Kept 1000 (start 1000) (es ++ [tick]) := by
  obtain ⟨v, hrun, hticks, -⟩ := idle (H := Unit) 1000 429496730 (by omega)
  rw [show List.replicate 429496730 (tick : Event Unit) =
    List.replicate 429496729 tick ++ [tick] from List.replicate_succ'] at hrun hticks
  obtain ⟨u, hbefore, hcount, -⟩ := idle (H := Unit) 1000 429496729 (by omega)
  have h0 : (system 1000).init (start 1000 : State Unit) := ⟨rfl, rfl⟩
  have hsumu := run_sum h0 hbefore (by omega)
  have hsumv := run_sum h0 hrun (by omega)
  rw [hcount] at hsumu
  rw [hticks] at hsumv
  refine ⟨_, u, v, hcount, hbefore, hrun, ?_, ?_, fun hk => ?_⟩
  · rw [sysTime_eq, hsumu]
    rfl
  · rw [sysTime_eq, hsumv]
    rfl
  · have hlast := (hk _ [] [] v v (by rw [List.append_nil, List.append_nil]) hrun (.nil v)).1
    rw [hsumv, hticks] at hlast
    revert hlast
    decide

end NeonixSystemTime
