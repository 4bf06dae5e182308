import Mathlib.Logic.Function.Basic
import Neonix.Mutex
import Neonix.Runs
import Neonix.Task

/-! # Any number of tasks on one lock

    A step is one call of `lock_acquire` or `lock_release` up to the point
    where it blocks, yields or returns, or the next turn of a task that was
    switched away from inside of one.  `task_block` puts the task on the list
    of waiters and `task_unblock` takes it off and makes it ready; a task may
    be switched away from between two calls as it pleases.

    `depth` counts the calls of `lock_acquire` a task has returned from and not
    undone by `lock_release`. -/

namespace NeonixLocks

open NeonixMachine NeonixMutex NeonixRuns NeonixTask

/-- Where a task stands. -/
inductive Pc where
  /-- outside the lock -/
  | user
  /-- in the loop of `mutex_lock` -/
  | locking
  /-- in the `task_yield` of `mutex_unlock` -/
  | unlocking
  deriving DecidableEq

structure State where
  lock : Lock
  pc : Nat → Pc
  state : Nat → TaskState
  depth : Nat → Nat

def State.setPc (s : State) (t : Nat) (p : Pc) : State :=
  { s with pc := Function.update s.pc t p }

def State.setState (s : State) (t : Nat) (x : TaskState) : State :=
  { s with state := Function.update s.state t x }

def State.setDepth (s : State) (t n : Nat) : State :=
  { s with depth := Function.update s.depth t n }

inductive Event where
  | acquire (t : Nat)
  | release (t : Nat)
  /-- the task goes on from where it stands -/
  | resume (t : Nat)

/-- `lock_acquire` after a turn. -/
def acquireTurn (s : State) (t : Nat) : Lock × Turn → State
  | (lock, .acquired) =>
      ({ s with lock := lock }.setPc t .user).setDepth t (s.depth t + 1)
  | (lock, .waits) =>
      ({ s with lock := lock }.setPc t .locking).setState t .blocked

/-- `lock_release` up to its `task_yield`. -/
def releaseTurn (s : State) (t : Nat) : Lock × Option Nat → State
  | (lock, none) => { s with lock := lock }.setDepth t (s.depth t - 1)
  | (lock, some woken) =>
      (({ s with lock := lock }.setDepth t (s.depth t - 1)).setPc t .unlocking).setState woken .ready

/-- The step of an event that can happen. -/
def exec (s : State) : Event → Res State
  | .acquire t => do return acquireTurn s t (← lockAcquire s.lock t)
  | .release t => do return releaseTurn s t (← lockRelease s.lock t)
  | .resume t =>
      match s.pc t with
      | .user => .ok s
      | .locking => do return acquireTurn s t (← mutexTurn s.lock t)
      | .unlocking => .ok (s.setPc t .user)

/-- When an event can happen: a task calls from outside the lock, releases what
    it acquired, and runs only when it is ready. -/
def Enabled (s : State) : Event → Prop
  | .acquire t => s.pc t = .user ∧ s.state t = .ready
  | .release t => s.pc t = .user ∧ s.state t = .ready ∧ 0 < s.depth t
  | .resume t => s.state t = .ready

instance (s : State) : (e : Event) → Decidable (Enabled s e)
  | .acquire _ => inferInstanceAs (Decidable (_ ∧ _))
  | .release _ => inferInstanceAs (Decidable (_ ∧ _))
  | .resume _ => inferInstanceAs (Decidable (_ = _))

/-- `lock_init`, with every task ready and outside the lock. -/
def bootState : State where
  lock := lockInit
  pc := fun _ => .user
  state := fun _ => .ready
  depth := fun _ => 0

def system : System State Event := execSystem (· = bootState) Enabled exec

/-- A lock that works: its fields agree, it knows its holder's depth, only the
    holder is inside, a waiter of a free lock has been woken, and no assertion
    is in the way of a task. -/
structure Correct (s : State) : Prop where
  holder : s.lock.value = true ↔ s.lock.holder ≠ none
  repeats : s.lock.value = true ↔ 1 ≤ s.lock.repeats
  depth : ∀ t, s.lock.holder = some t → s.lock.repeats = s.depth t
  exclusive : ∀ t, 0 < s.depth t → s.lock.holder = some t
  awake : s.lock.value = false → s.lock.waiters ≠ [] →
    ∃ t, s.pc t = .locking ∧ s.state t = .ready ∧ t ∉ s.lock.waiters
  asserts : ∀ e, Enabled s e → ∃ s', exec s e = .ok s'

/-- No task nests its calls so deep that the counter wraps. -/
def Shallow (s : State) : Event → Prop
  | .acquire t => s.depth t + 1 < 2 ^ 32
  | .release _ | .resume _ => True

instance (s : State) : (e : Event) → Decidable (Shallow s e)
  | .acquire _ => inferInstanceAs (Decidable (_ < _))
  | .release _ | .resume _ => inferInstanceAs (Decidable True)

/-! ## The invariant -/

/-- A lock nobody is inside of. -/
structure Free (s : State) : Prop where
  unheld : s.lock.Unheld
  depth : ∀ t, s.depth t = 0

/-- A lock one task is inside of. -/
structure Held (s : State) (h : Nat) : Prop where
  value : s.lock.value = true
  holder : s.lock.holder = some h
  repeats : s.lock.repeats = s.depth h
  entered : 1 ≤ s.depth h
  bound : s.depth h < 2 ^ 32
  others : ∀ t, t ≠ h → s.depth t = 0
  outside : s.pc h = .user

structure LockInv (s : State) : Prop where
  inside : Free s ∨ ∃ h, Held s h
  waiters : ∀ t, t ∈ s.lock.waiters ↔ s.pc t = .locking ∧ s.state t = .blocked
  nodup : s.lock.waiters.Nodup
  states : ∀ t, s.state t = .ready ∨ s.pc t = .locking ∧ s.state t = .blocked
  awake : s.lock.value = false → s.lock.waiters ≠ [] →
    ∃ t, s.pc t = .locking ∧ s.state t = .ready

variable {s s' : State} {t : Nat}

theorem LockInv.outside (h : LockInv s) (hpc : s.pc t ≠ .locking) : t ∉ s.lock.waiters := by
  intro hmem
  exact hpc ((h.waiters t).mp hmem).1

theorem LockInv.ready_outside (h : LockInv s) (hs : s.state t = .ready) : t ∉ s.lock.waiters := by
  intro hmem
  have hb := ((h.waiters t).mp hmem).2
  rw [hs] at hb
  cases hb

/-- A task that is inside is the holder. -/
theorem LockInv.held (h : LockInv s) (hd : 0 < s.depth t) : Held s t := by
  rcases h.inside with hf | ⟨u, hu⟩
  · have h0 := hf.depth t
    omega
  · by_cases htu : t = u
    · rw [htu]
      exact hu
    · have h0 := hu.others t htu
      omega

/-- A list without its last element, which stands on it once. -/
theorem mem_dropLast {l : List Nat} {x u : Nat} (hn : l.Nodup) (hx : l.getLast? = some x) :
    u ∈ l.dropLast ↔ u ∈ l ∧ u ≠ x := by
  have hl : l.dropLast ++ [x] = l := by
    obtain ⟨ys, rfl⟩ := List.getLast?_eq_some_iff.mp hx
    rw [List.dropLast_concat]
  rw [← hl, List.nodup_append] at hn
  constructor
  · intro hu
    refine ⟨List.dropLast_subset l hu, ?_⟩
    exact hn.2.2 u hu x List.mem_cons_self
  · rintro ⟨hu, hne⟩
    rw [← hl] at hu
    rcases List.mem_append.mp hu with hu | hu
    · exact hu
    · exact absurd (List.mem_singleton.mp hu) hne

/-! ## One step -/

/-- A turn of the loop of `mutex_lock`. -/
theorem LockInv.turn (h : LockInv s) (hs : s.state t = .ready) (hd : s.depth t = 0) :
    ∃ r, mutexTurn s.lock t = .ok r ∧ LockInv (acquireTurn s t r) := by
  have hout := h.ready_outside hs
  rcases h.inside with hf | ⟨u, hu⟩
  · refine ⟨_, mutexTurn_unheld hf.unheld, ?_⟩
    have hpc : ∀ v, v ≠ t → (Function.update s.pc t Pc.user) v = s.pc v :=
      fun v hv => Function.update_of_ne hv ..
    constructor
    · refine Or.inr ⟨t, rfl, rfl, ?_, ?_, ?_, ?_, Function.update_self ..⟩
      · show 1 = Function.update s.depth t (s.depth t + 1) t
        rw [Function.update_self, hd]
      · show 1 ≤ Function.update s.depth t (s.depth t + 1) t
        rw [Function.update_self]
        exact Nat.le_add_left 1 _
      · show Function.update s.depth t (s.depth t + 1) t < _
        rw [Function.update_self, hd]
        decide
      · intro v hv
        show Function.update s.depth t (s.depth t + 1) v = 0
        rw [Function.update_of_ne hv]
        exact hf.depth v
    · intro v
      show v ∈ s.lock.waiters ↔ Function.update s.pc t Pc.user v = .locking ∧ s.state v = .blocked
      by_cases hv : v = t
      · rw [hv, Function.update_self]
        exact iff_of_false hout (fun hx => nomatch hx.1)
      · rw [hpc v hv]
        exact h.waiters v
    · exact h.nodup
    · intro v
      show s.state v = .ready ∨ Function.update s.pc t Pc.user v = .locking ∧ s.state v = .blocked
      by_cases hv : v = t
      · rw [hv]
        exact Or.inl hs
      · rw [hpc v hv]
        exact h.states v
    · intro hvalue
      cases hvalue
  · refine ⟨_, by rw [mutexTurn, hu.value, if_pos rfl], ?_⟩
    have htu : u ≠ t := by
      rintro rfl
      have h1 := hu.entered
      omega
    have hpc : ∀ v, v ≠ t → (Function.update s.pc t Pc.locking) v = s.pc v :=
      fun v hv => Function.update_of_ne hv ..
    have hst : ∀ v, v ≠ t → (Function.update s.state t TaskState.blocked) v = s.state v :=
      fun v hv => Function.update_of_ne hv ..
    constructor
    · exact Or.inr ⟨u, rfl, hu.holder, hu.repeats, hu.entered, hu.bound, hu.others,
        (hpc u htu).trans hu.outside⟩
    · intro v
      show v ∈ t :: s.lock.waiters ↔ Function.update s.pc t Pc.locking v = .locking ∧
        Function.update s.state t TaskState.blocked v = .blocked
      by_cases hv : v = t
      · rw [hv, Function.update_self, Function.update_self]
        exact iff_of_true List.mem_cons_self ⟨rfl, rfl⟩
      · rw [hpc v hv, hst v hv, List.mem_cons]
        exact (or_iff_right hv).trans (h.waiters v)
    · exact List.nodup_cons.mpr ⟨hout, h.nodup⟩
    · intro v
      show Function.update s.state t TaskState.blocked v = .ready ∨
        Function.update s.pc t Pc.locking v = .locking ∧
          Function.update s.state t TaskState.blocked v = .blocked
      by_cases hv : v = t
      · rw [hv, Function.update_self, Function.update_self]
        exact Or.inr ⟨rfl, rfl⟩
      · rw [hpc v hv, hst v hv]
        exact h.states v
    · intro hvalue
      cases hvalue

/-- `lock_acquire` up to its first blocking point. -/
theorem LockInv.acquire (h : LockInv s) (hpc : s.pc t = .user) (hs : s.state t = .ready)
    (hb : s.depth t + 1 < 2 ^ 32) :
    ∃ r, lockAcquire s.lock t = .ok r ∧ LockInv (acquireTurn s t r) := by
  rw [lockAcquire]
  by_cases hh : s.lock.holder = some t
  · rw [if_neg (not_not.mpr hh)]
    refine ⟨_, rfl, ?_⟩
    rcases h.inside with hf | ⟨u, hu⟩
    · rw [hf.unheld.1] at hh
      cases hh
    obtain rfl := Option.some.inj (hu.holder.symm.trans hh)
    have hself : Function.update s.pc u Pc.user = s.pc := by
      rw [← hpc, Function.update_eq_self]
    constructor
    · refine Or.inr ⟨u, hu.value, hu.holder, ?_, ?_, ?_, ?_, Function.update_self ..⟩
      · show (s.lock.repeats + 1) % 2 ^ 32 = Function.update s.depth u (s.depth u + 1) u
        rw [Function.update_self, hu.repeats, Nat.mod_eq_of_lt hb]
      · show 1 ≤ Function.update s.depth u (s.depth u + 1) u
        rw [Function.update_self]
        exact Nat.le_add_left 1 _
      · show Function.update s.depth u (s.depth u + 1) u < _
        rw [Function.update_self]
        exact hb
      · intro v hv
        show Function.update s.depth u (s.depth u + 1) v = 0
        rw [Function.update_of_ne hv]
        exact hu.others v hv
    · intro v
      show v ∈ s.lock.waiters ↔ Function.update s.pc u Pc.user v = .locking ∧ s.state v = .blocked
      rw [hself]
      exact h.waiters v
    · exact h.nodup
    · intro v
      show s.state v = .ready ∨ Function.update s.pc u Pc.user v = .locking ∧ s.state v = .blocked
      rw [hself]
      exact h.states v
    · intro hvalue
      exact absurd (hu.value.symm.trans hvalue) (by decide)
  · rw [if_pos hh]
    refine h.turn hs ?_
    by_contra hd
    exact hh (h.held (Nat.pos_of_ne_zero hd)).holder

/-- `lock_release` of a task deeper inside. -/
theorem LockInv.releaseInner (h : LockInv s) (hd : 1 < s.depth t) :
    ∃ r, lockRelease s.lock t = .ok r ∧ LockInv (releaseTurn s t r) := by
  have hheld := h.held (Nat.lt_of_succ_lt hd)
  have hmany : 1 < s.lock.repeats := by
    rw [hheld.repeats]
    exact hd
  refine ⟨_, by rw [lockRelease, check_pos hheld.holder, bind_ok, if_pos hmany]; rfl, ?_⟩
  constructor
  · refine Or.inr ⟨t, hheld.value, hheld.holder, ?_, ?_, ?_, ?_, hheld.outside⟩
    · show s.lock.repeats - 1 = Function.update s.depth t (s.depth t - 1) t
      rw [Function.update_self, hheld.repeats]
    · show 1 ≤ Function.update s.depth t (s.depth t - 1) t
      rw [Function.update_self]
      omega
    · show Function.update s.depth t (s.depth t - 1) t < _
      rw [Function.update_self]
      have hb := hheld.bound
      omega
    · intro v hv
      show Function.update s.depth t (s.depth t - 1) v = 0
      rw [Function.update_of_ne hv]
      exact hheld.others v hv
  · exact h.waiters
  · exact h.nodup
  · exact h.states
  · exact h.awake

/-- The outermost `lock_release` frees the lock and wakes the last waiter. -/
theorem LockInv.releaseOuter (h : LockInv s) (hs : s.state t = .ready) (hd : s.depth t = 1) :
    ∃ r, lockRelease s.lock t = .ok r ∧ LockInv (releaseTurn s t r) := by
  have hheld := h.held (by rw [hd]; exact Nat.one_pos)
  have hout := h.ready_outside hs
  refine ⟨_, lockRelease_held ⟨hheld.holder, hheld.repeats.trans hd, hheld.value⟩, ?_⟩
  have hfree : ∀ v, Function.update s.depth t (s.depth t - 1) v = 0 := by
    intro v
    by_cases hv : v = t
    · rw [hv, Function.update_self, hd]
    · rw [Function.update_of_ne hv]
      exact hheld.others v hv
  cases hlast : s.lock.waiters.getLast? with
  | none =>
      have hnil := List.getLast?_eq_none_iff.mp hlast
      have hdrop : s.lock.waiters.dropLast = s.lock.waiters := by
        rw [hnil]
        rfl
      constructor
      · exact Or.inl ⟨⟨rfl, rfl, rfl⟩, hfree⟩
      · intro v
        show v ∈ s.lock.waiters.dropLast ↔ _
        rw [hdrop]
        exact h.waiters v
      · show s.lock.waiters.dropLast.Nodup
        rw [hdrop]
        exact h.nodup
      · exact h.states
      · intro _ hne
        refine absurd ?_ hne
        show s.lock.waiters.dropLast = []
        rw [hdrop, hnil]
  | some w =>
      have hw := (h.waiters w).mp (List.mem_of_getLast? hlast)
      have hwt : w ≠ t := by
        rintro rfl
        exact hout (List.mem_of_getLast? hlast)
      have hpcw : Function.update s.pc t Pc.unlocking w = .locking := by
        rw [Function.update_of_ne hwt]
        exact hw.1
      constructor
      · exact Or.inl ⟨⟨rfl, rfl, rfl⟩, hfree⟩
      · intro v
        show v ∈ s.lock.waiters.dropLast ↔ Function.update s.pc t Pc.unlocking v = .locking ∧
          Function.update s.state w TaskState.ready v = .blocked
        rw [mem_dropLast h.nodup hlast]
        by_cases hvw : v = w
        · rw [hvw, Function.update_self]
          exact iff_of_false (fun hx => hx.2 rfl) (fun hx => nomatch hx.2)
        · rw [Function.update_of_ne hvw]
          by_cases hvt : v = t
          · rw [hvt, Function.update_self]
            exact iff_of_false (fun hx => hout hx.1) (fun hx => nomatch hx.1)
          · rw [Function.update_of_ne hvt]
            exact (and_iff_left hvw).trans (h.waiters v)
      · exact h.nodup.sublist (List.dropLast_sublist _)
      · intro v
        show Function.update s.state w TaskState.ready v = .ready ∨
          Function.update s.pc t Pc.unlocking v = .locking ∧
            Function.update s.state w TaskState.ready v = .blocked
        by_cases hvw : v = w
        · rw [hvw, Function.update_self]
          exact Or.inl rfl
        · rw [Function.update_of_ne hvw]
          by_cases hvt : v = t
          · rw [hvt]
            exact Or.inl hs
          · rw [Function.update_of_ne hvt]
            exact h.states v
      · -- the waiter just woken is the one that will look at the mutex again
        intro _ _
        exact ⟨w, hpcw, Function.update_self ..⟩

/-- The task returns from the `task_yield` of `mutex_unlock`. -/
theorem LockInv.yielded (h : LockInv s) (hpc : s.pc t = .unlocking) :
    LockInv (s.setPc t .user) := by
  have hstate : s.state t = .ready := by
    rcases h.states t with hr | hb
    · exact hr
    · rw [hpc] at hb
      exact nomatch hb.1
  have hloop : ∀ v, Function.update s.pc t Pc.user v = .locking ↔ s.pc v = .locking := by
    intro v
    by_cases hv : v = t
    · rw [hv, Function.update_self, hpc]
      exact iff_of_false nofun nofun
    · rw [Function.update_of_ne hv]
  constructor
  · rcases h.inside with hf | ⟨u, hu⟩
    · exact Or.inl ⟨hf.unheld, hf.depth⟩
    · have hut : u ≠ t := by
        rintro rfl
        have hx := hu.outside.symm.trans hpc
        cases hx
      refine Or.inr ⟨u, hu.value, hu.holder, hu.repeats, hu.entered, hu.bound, hu.others, ?_⟩
      exact (Function.update_of_ne hut ..).trans hu.outside
  · intro v
    exact (h.waiters v).trans (and_congr_left' (hloop v).symm)
  · exact h.nodup
  · intro v
    exact (h.states v).imp id fun hb => ⟨(hloop v).mpr hb.1, hb.2⟩
  · intro hvalue hne
    obtain ⟨v, hv, hr⟩ := h.awake hvalue hne
    exact ⟨v, (hloop v).mpr hv, hr⟩

/-- An event that can happen has a step, and the step keeps the invariant. -/
theorem LockInv.step {e : Event} (h : LockInv s) (hg : Shallow s e) (he : Enabled s e) :
    ∃ s', exec s e = .ok s' ∧ LockInv s' := by
  cases e with
  | acquire t =>
      obtain ⟨r, hr, hinv⟩ := h.acquire he.1 he.2 hg
      exact ⟨_, by rw [exec, hr]; rfl, hinv⟩
  | release t =>
      have hrel : ∃ r, lockRelease s.lock t = .ok r ∧ LockInv (releaseTurn s t r) := by
        by_cases hd : s.depth t = 1
        · exact h.releaseOuter he.2.1 hd
        · refine h.releaseInner ?_
          have hpos := he.2.2
          omega
      obtain ⟨r, hr, hinv⟩ := hrel
      exact ⟨_, by rw [exec, hr]; rfl, hinv⟩
  | resume t =>
      rw [exec]
      cases hpc : s.pc t with
      | user => exact ⟨s, rfl, h⟩
      | locking =>
          have hd : s.depth t = 0 := by
            by_contra hd
            have hout := (h.held (Nat.pos_of_ne_zero hd)).outside
            rw [hpc] at hout
            cases hout
          obtain ⟨r, hr, hinv⟩ := h.turn he hd
          exact ⟨_, by rw [hr]; rfl, hinv⟩
      | unlocking => exact ⟨_, rfl, h.yielded hpc⟩

/-! ## Whole runs -/

theorem lockInv_boot : LockInv bootState := by
  constructor
  · exact Or.inl ⟨⟨rfl, rfl, rfl⟩, fun _ => rfl⟩
  · intro t
    exact iff_of_false List.not_mem_nil fun h => nomatch h.1
  · exact List.nodup_nil
  · intro t
    exact Or.inl rfl
  · intro _ hne
    exact absurd rfl hne

/-- The invariant makes the lock correct. -/
theorem LockInv.correct (h : LockInv s) : Correct s := by
  have hfree : Free s → s.lock.value = false ∧ s.lock.holder = none ∧ s.lock.repeats = 0 :=
    fun hf => ⟨hf.unheld.2.2, hf.unheld.1, hf.unheld.2.1⟩
  constructor
  · rcases h.inside with hf | ⟨u, hu⟩
    · rw [(hfree hf).1, (hfree hf).2.1]
      exact iff_of_false (by decide) (fun hx => hx rfl)
    · rw [hu.value, hu.holder]
      exact iff_of_true rfl (Option.some_ne_none u)
  · rcases h.inside with hf | ⟨u, hu⟩
    · rw [(hfree hf).1, (hfree hf).2.2]
      exact iff_of_false (by decide) (by decide)
    · rw [hu.value, hu.repeats]
      exact iff_of_true rfl hu.entered
  · intro t ht
    rcases h.inside with hf | ⟨u, hu⟩
    · rw [(hfree hf).2.1] at ht
      cases ht
    · obtain rfl := Option.some.inj (hu.holder.symm.trans ht)
      exact hu.repeats
  · intro t hd
    exact (h.held hd).holder
  · intro hvalue hne
    obtain ⟨t, hpc, hs⟩ := h.awake hvalue hne
    exact ⟨t, hpc, hs, h.ready_outside hs⟩
  · intro e he
    by_cases hg : Shallow s e
    · obtain ⟨s', hs', -⟩ := h.step hg he
      exact ⟨s', hs'⟩
    · cases e with
      | acquire t =>
          -- a holder that goes deeper meets no assertion, however deep it is
          have hdeep : 0 < s.depth t := by
            by_contra hd
            refine hg ?_
            show s.depth t + 1 < 2 ^ 32
            omega
          exact ⟨_, by rw [exec, lockAcquire, if_neg (not_not.mpr (h.held hdeep).holder)]; rfl⟩
      | release t => exact absurd trivial hg
      | resume t => exact absurd trivial hg

/-- In the runs in which no task nests 2^32 calls the lock is correct in every
    state. -/
theorem locks_correct (h : Reach system Shallow s) : Correct s := by
  have hinit : ∀ s, system.init s → LockInv s := by
    rintro s rfl
    exact lockInv_boot
  have hstep : ∀ s e s', LockInv s → Shallow s e → system.step s e s' → LockInv s' := by
    rintro s e s' hs hg ⟨he, hx⟩
    obtain ⟨u, hu, hinv⟩ := hs.step hg he
    rw [← Except.ok.inj (hu.symm.trans hx)]
    exact hinv
  exact (h.invariant hinit hstep).correct

/-- Task 2 waits for task 1, is woken, finds the lock taken by task 3 and waits
    again; task 3 wakes it once more. -/
theorem locks_correct_overtaken : ∃ s : State,
    (s.lock.waiters, s.lock.value, s.pc 2, s.state 2) = ([4], false, .locking, .ready) ∧
      Correct s := by
  have hrun : (follow Shallow Enabled exec bootState
      [.acquire 1, .acquire 1, .acquire 2, .release 1, .release 1, .acquire 3, .resume 2,
        .acquire 4, .resume 1, .release 3]).map
      (fun s => (s.lock.waiters, s.lock.value, s.pc 2, s.state 2)) =
      some ([4], false, .locking, .ready) := by
    decide
  obtain ⟨s, hs, hobs⟩ := Option.map_eq_some_iff.mp hrun
  exact ⟨s, hobs, locks_correct (Reach.follow _ (.start rfl) hs)⟩

/-! ## The counter wraps -/

/-- A task that has called `lock_acquire` so many times. -/
structure Nested (s : State) (n : Nat) : Prop where
  reach : Reach system free s
  pc : s.pc 1 = .user
  ready : s.state 1 = .ready
  holder : s.lock.holder = some 1
  value : s.lock.value = true
  repeats : s.lock.repeats = n % 2 ^ 32

/-- One call more. -/
theorem Nested.acquire {n : Nat} (h : Nested s n) : ∃ s', Nested s' (n + 1) := by
  have hx : exec s (.acquire 1) = .ok (acquireTurn s 1
      ({ s.lock with repeats := (s.lock.repeats + 1) % 2 ^ 32 }, .acquired)) := by
    rw [exec, lockAcquire, if_neg (not_not.mpr h.holder)]
    rfl
  have hen : Enabled s (.acquire 1) := ⟨h.pc, h.ready⟩
  have hpc : Function.update s.pc 1 Pc.user 1 = .user := Function.update_self ..
  refine ⟨_, h.reach.step trivial ⟨hen, hx⟩, hpc, h.ready, h.holder, h.value, ?_⟩
  show (s.lock.repeats + 1) % 2 ^ 32 = (n + 1) % 2 ^ 32
  rw [h.repeats, Nat.mod_add_mod]

theorem nested_all (n : Nat) : ∃ s, Nested s (n + 1) := by
  induction n with
  | zero =>
      have hx : exec bootState (.acquire 1) = .ok (acquireTurn bootState 1
          ({ lockInit with value := true, holder := some 1, repeats := 1 }, .acquired)) := rfl
      have hen : Enabled bootState (.acquire 1) := ⟨rfl, rfl⟩
      exact ⟨_, Reach.step (.start rfl) trivial ⟨hen, hx⟩, rfl, rfl, rfl, rfl, rfl⟩
  | succ n ih =>
      obtain ⟨s, hs⟩ := ih
      exact hs.acquire

/-- A task that nests 2^32 calls holds a lock that counts none of them. -/
theorem lock_counter_wraps : ¬ ∀ s : State, Reach system free s → Correct s := by
  intro hall
  obtain ⟨s, hs⟩ := nested_all (2 ^ 32 - 1)
  have hcount := (hall s hs.reach).repeats.mp hs.value
  rw [hs.repeats] at hcount
  exact absurd hcount (by decide)

end NeonixLocks
