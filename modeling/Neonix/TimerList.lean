import Neonix.Timers

/-! # `kernel/timer.c`: the list of timers

    Any timers, of any handlers.  A handler touches no timer, so what is kept of
    the call of one is which timer it got and when.  The list is sorted by the
    time a timer expires as an `int`, the clock compares the times as `u32` and
    looks at the head of the list only.  With an empty list it compares with
    `EOF`. -/

namespace NeonixTimerList

open NeonixMachine NeonixRuns NeonixLinkedList
open NeonixTimers (JIFFY EOF)

variable {H : Type}

/-- `timer_t`, with two fields of no use to the kernel: which call of `timer_add`
    made it, and when. -/
structure Timer (H : Type) where
  task : Nat
  expires : BitVec 32
  /-- `none` is the default handler -/
  handler : Option H
  arg : Nat
  active : Bool
  number : Nat
  since : BitVec 32

structure State (H : Type) where
  timer_list : List (Timer H)
  jiffies : BitVec 32
  /-- the calls of `timer_add` -/
  added : Nat
  /-- the timers whose handlers ran, with the clock of that moment -/
  ran : List (Timer H × BitVec 32)
  /-- the timers that were removed -/
  removed : List (Timer H × BitVec 32)

/-- `element_node_key` of a timer. -/
def key (timer : Timer H) : Int := timer.expires.toInt

/-- `timer_add`. -/
def timerAdd (s : State H) (task : Nat) (expire_ms : BitVec 32) (handler : Option H) (arg : Nat) :
    State H :=
  let timer : Timer H :=
    { task := task, expires := s.jiffies + expire_ms / JIFFY, handler := handler, arg := arg,
      active := false, number := s.added, since := s.jiffies }
  { s with timer_list := insertSort key timer s.timer_list, added := s.added + 1 }

/-- The timers that are not kept leave the list. -/
def dropTimers (s : State H) (keep : Timer H → Bool) : State H :=
  { s with
    timer_list := s.timer_list.filter keep
    removed := (s.timer_list.filter fun timer => !keep timer).map (·, s.jiffies) ++ s.removed }

/-- `timer_put` of the timer a call of `timer_add` made; one that was freed is on
    no list. -/
def timerPut (s : State H) (number : Nat) : Res (State H) :=
  if number ∈ s.timer_list.map Timer.number then
    .ok (dropTimers s fun timer => timer.number ≠ number)
  else .error .outOfBounds

/-- `timer_remove`. -/
def timerRemove (s : State H) (task : Nat) : State H := dropTimers s fun timer => timer.task ≠ task

/-- The loop of `timer_wakeup`.  With an empty list the head is no timer. -/
def wakeupLoop : List (Timer H) → State H → Res (State H)
  | [], s => if EOF ≤ s.jiffies then .error .outOfBounds else .ok { s with timer_list := [] }
  | timer :: rest, s =>
      if timer.expires ≤ s.jiffies then
        wakeupLoop rest { s with ran := ({ timer with active := true }, s.jiffies) :: s.ran }
      else .ok { s with timer_list := timer :: rest }

/-- `timer_wakeup`. -/
def timerWakeup (s : State H) : Res (State H) := wakeupLoop s.timer_list s

inductive Event (H : Type) where
  | add (task : Nat) (expire_ms : BitVec 32) (handler : Option H) (arg : Nat)
  | put (number : Nat)
  | remove (task : Nat)
  /-- `jiffies++` and `timer_wakeup` of the clock interrupt -/
  | tick

def exec (s : State H) : Event H → Res (State H)
  | .add task expire_ms handler arg => .ok (timerAdd s task expire_ms handler arg)
  | .put number => timerPut s number
  | .remove task => .ok (timerRemove s task)
  | .tick => timerWakeup { s with jiffies := s.jiffies + 1 }

/-- After `timer_init`. -/
def boot : State H := { timer_list := [], jiffies := 0, added := 0, ran := [], removed := [] }

def system : System (State H) (Event H) := execSystem (fun s => s = boot) (fun _ _ => True) exec

/-- No computed time reaches the greatest `u32`. -/
def Computed (s : State H) : Event H → Prop
  | .add _ expire_ms _ _ => s.jiffies.toNat + (expire_ms / JIFFY).toNat < 2 ^ 32 - 1
  | _ => True

instance (s : State H) : (e : Event H) → Decidable (Computed s e)
  | .add .. => inferInstanceAs (Decidable (_ < _))
  | .put _ | .remove _ | .tick => .isTrue trivial

/-! ## What a run is to have -/

/-- The clock of the first tick from which on a timer is due: the time it
    expires, or the tick after its `timer_add`. -/
def due (timer : Timer H) : Nat := max timer.expires.toNat (timer.since.toNat + 1)

/-- The handlers of the timers run on time. -/
structure Punctual (s : State H) : Prop where
  /-- each timer is on the list, has run once, or was removed once -/
  once : (s.timer_list.map Timer.number ++ (s.ran.map fun r => r.1.number) ++
    s.removed.map fun r => r.1.number).Perm (List.range s.added)
  /-- one on the list is not due yet -/
  listed : ∀ timer ∈ s.timer_list, s.jiffies.toNat < due timer
  /-- one that has run did so when it was due -/
  ran : ∀ r ∈ s.ran, r.2.toNat = due r.1
  /-- one that was removed was not due yet -/
  removed : ∀ r ∈ s.removed, r.2.toNat < due r.1

/-- `timer_wakeup` leaves no timer that has expired. -/
def Woken (s : State H) : Prop :=
  ∃ s', exec s .tick = .ok s' ∧ ∀ timer ∈ s'.timer_list, s'.jiffies < timer.expires

/-- A clock tick does not come to the greatest `u32`, and it does not find a timer
    of before `2 ^ 31` that has expired together with one from `2 ^ 31` on that
    has not. -/
def Parted (s : State H) : Prop :=
  s.jiffies + 1 < EOF ∧ ∀ x ∈ s.timer_list, ∀ y ∈ s.timer_list,
    x.expires ≤ s.jiffies + 1 → s.jiffies + 1 < y.expires →
      ¬ (x.expires.toNat < 2 ^ 31 ∧ 2 ^ 31 ≤ y.expires.toNat)

instance (s : State H) : Decidable (Parted s) := inferInstanceAs (Decidable (_ ∧ _))

/-- The steps of a run that is on time. -/
def Timely (s : State H) (e : Event H) : Prop := e = .tick → Parted s

instance (s : State H) : (e : Event H) → Decidable (Timely s e)
  | .add .. | .put _ | .remove _ => .isTrue nofun
  | .tick => decidable_of_iff (Parted s) ⟨fun h _ => h, fun h => h rfl⟩

variable {s s' : State H} {l : List (Timer H)} {x y : Timer H}

/-! ## `timer_wakeup` -/

theorem eof_toNat : EOF.toNat = 2 ^ 32 - 1 := rfl

theorem zero_ne_eof : (0 : BitVec 32).toNat ≠ EOF.toNat := by decide

theorem lt_eof {b : BitVec 32} : b < EOF ↔ b ≠ EOF := by
  rw [BitVec.lt_def, Ne, ← BitVec.toNat_inj, eof_toNat]
  have hb := b.isLt
  omega

/-- The head of the list decides: what is taken off is what stands before the
    first timer that has not expired. -/
theorem wakeupLoop_eq (l : List (Timer H)) (s : State H) (hs : s.jiffies < EOF) :
    wakeupLoop l s = .ok { s with
      timer_list := l.dropWhile fun x => x.expires ≤ s.jiffies
      ran := ((l.takeWhile fun x => x.expires ≤ s.jiffies).map fun x =>
        ({ x with active := true }, s.jiffies)).reverse ++ s.ran } := by
  induction l generalizing s with
  | nil =>
      rw [wakeupLoop, if_neg (BitVec.not_le.mpr hs)]
      rfl
  | cons x l ih =>
      rw [wakeupLoop]
      by_cases hx : x.expires ≤ s.jiffies
      · rw [if_pos hx]
        refine (ih { s with ran := ({ x with active := true }, s.jiffies) :: s.ran } hs).trans ?_
        simp [hx]
      · rw [if_neg hx]
        simp [hx]

/-- At the greatest `u32` every timer has expired, and then the list is empty. -/
theorem wakeupLoop_last (l : List (Timer H)) (s : State H) (hs : s.jiffies = EOF) :
    wakeupLoop l s = .error .outOfBounds := by
  induction l generalizing s with
  | nil =>
      rw [wakeupLoop, if_pos]
      rw [hs]
      exact BitVec.le_refl _
  | cons x l ih =>
      have hx : x.expires ≤ s.jiffies := by
        rw [BitVec.le_def, hs, eof_toNat]
        have hlt := x.expires.isLt
        omega
      rw [wakeupLoop, if_pos hx]
      exact ih _ hs

/-- What a clock tick does below the greatest `u32`. -/
theorem tick_eq (hs : s.jiffies + 1 < EOF) : exec s .tick = .ok { s with
    jiffies := s.jiffies + 1
    timer_list := s.timer_list.dropWhile fun x => x.expires ≤ s.jiffies + 1
    ran := ((s.timer_list.takeWhile fun x => x.expires ≤ s.jiffies + 1).map fun x =>
      ({ x with active := true }, s.jiffies + 1)).reverse ++ s.ran } :=
  wakeupLoop_eq s.timer_list { s with jiffies := s.jiffies + 1 } hs

/-! ## A list in the order of `list_insert_sort` -/

/-- No timer's key is greater than that of one behind it. -/
def Sorted (l : List (Timer H)) : Prop := l.Pairwise fun x y => key x ≤ key y

/-- Of two timers that are in the order of their keys and not in that of their
    times, the first is one from `2 ^ 31` on. -/
theorem key_le_iff : key x ≤ key y ↔
    (y.expires.toNat < 2 ^ 31 ∧ 2 ^ 31 ≤ x.expires.toNat) ∨
    (x.expires.toNat ≤ y.expires.toNat ∧
      (y.expires.toNat < 2 ^ 31 ↔ x.expires.toNat < 2 ^ 31)) := by
  rw [key, key, BitVec.toInt_eq_toNat_cond, BitVec.toInt_eq_toNat_cond]
  have hx := x.expires.isLt
  have hy := y.expires.isLt
  split_ifs <;> omega

/-- Behind a timer that has not expired there is none that has, unless the two
    are on different sides of `2 ^ 31`. -/
theorem dropWhile_expired {b : BitVec 32} (hl : Sorted l)
    (hp : ∀ x ∈ l, ∀ y ∈ l, x.expires ≤ b → b < y.expires →
      ¬ (x.expires.toNat < 2 ^ 31 ∧ 2 ^ 31 ≤ y.expires.toNat)) :
    ∀ x ∈ l.dropWhile fun x => x.expires ≤ b, b < x.expires := by
  induction l with
  | nil => exact fun x hx => nomatch hx
  | cons y l ih =>
      obtain ⟨hy, hl'⟩ := List.pairwise_cons.mp hl
      rw [List.dropWhile_cons]
      by_cases hexp : y.expires ≤ b
      · rw [if_pos (decide_eq_true hexp)]
        exact ih hl' fun x hx z hz => hp x (List.mem_cons_of_mem _ hx) z (List.mem_cons_of_mem _ hz)
      · rw [if_neg (by rw [decide_eq_true_eq]; exact hexp)]
        intro x hx
        rcases List.mem_cons.mp hx with rfl | hx'
        · exact BitVec.not_le.mp hexp
        by_contra hlt
        have hpart := hp x hx y List.mem_cons_self (BitVec.not_lt.mp hlt) (BitVec.not_le.mp hexp)
        have hkey := key_le_iff.mp (hy x hx')
        rw [BitVec.not_lt, BitVec.le_def] at hlt
        rw [BitVec.le_def] at hexp
        omega

/-- A timer from `2 ^ 31` on that has not expired keeps one of before `2 ^ 31`. -/
theorem mem_dropWhile {b : BitVec 32} (hl : Sorted l) (hx : x ∈ l) (hy : y ∈ l)
    (hyb : b < y.expires) (hxlow : x.expires.toNat < 2 ^ 31) (hyhigh : 2 ^ 31 ≤ y.expires.toNat) :
    x ∈ l.dropWhile fun x => x.expires ≤ b := by
  induction l with
  | nil => cases hx
  | cons z l ih =>
      obtain ⟨hz, hl'⟩ := List.pairwise_cons.mp hl
      rw [List.dropWhile_cons]
      by_cases hexp : z.expires ≤ b
      · rw [if_pos (decide_eq_true hexp)]
        have hzy : y ≠ z := by
          rintro rfl
          exact absurd hexp (BitVec.not_le.mpr hyb)
        have hy' : y ∈ l := (List.mem_cons.mp hy).resolve_left hzy
        refine ih hl' ((List.mem_cons.mp hx).resolve_left ?_) hy'
        -- the first timer has the least key, and this one has not
        rintro rfl
        have hkey := key_le_iff.mp (hz y hy')
        omega
      · rw [if_neg (by rw [decide_eq_true_eq]; exact hexp)]
        exact hx

/-- A tick wakes up all that has expired exactly if it finds the list so. -/
theorem woken_iff (hl : Sorted s.timer_list) : Woken s ↔ Parted s := by
  constructor
  · rintro ⟨s', hs', hleft⟩
    have hlt : s.jiffies + 1 < EOF := by
      refine lt_eof.mpr fun hlast => ?_
      rw [show exec s .tick = _ from wakeupLoop_last s.timer_list { s with jiffies := s.jiffies + 1 }
        hlast] at hs'
      cases hs'
    cases (tick_eq hlt).symm.trans hs'
    refine ⟨hlt, fun x hx y hy hxe hye hsides => ?_⟩
    exact absurd hxe (BitVec.not_le.mpr (hleft x (mem_dropWhile hl hx hy hye hsides.1 hsides.2)))
  · rintro ⟨hlt, hp⟩
    exact ⟨_, tick_eq hlt, dropWhile_expired hl hp⟩

/-! ## The steps -/

/-- What the steps keep, for the claim about them. -/
structure Kept (s : State H) : Prop where
  punctual : Punctual s
  sorted : Sorted s.timer_list
  clock : s.jiffies < EOF
  since : ∀ x ∈ s.timer_list, x.since ≤ s.jiffies

theorem kept_boot : Kept (boot : State H) := by
  refine ⟨⟨.refl _, ?_, ?_, ?_⟩, .nil, lt_eof.mpr ?_, ?_⟩
  case refine_4 => exact fun he => absurd (congrArg BitVec.toNat he) zero_ne_eof
  all_goals exact fun _ hx => nomatch hx

theorem Kept.timerAdd (h : Kept s) (task : Nat) (ms : BitVec 32) (handler : Option H) (arg : Nat) :
    Kept (timerAdd s task ms handler arg) := by
  obtain ⟨x, hx⟩ : ∃ x : Timer H, x =
    { task := task, expires := s.jiffies + ms / JIFFY, handler := handler, arg := arg,
      active := false, number := s.added, since := s.jiffies } := ⟨_, rfl⟩
  have hadd : NeonixTimerList.timerAdd s task ms handler arg =
      { s with timer_list := insertSort key x s.timer_list, added := s.added + 1 } := by
    rw [hx]
    rfl
  have hnumber : x.number = s.added := by rw [hx]
  have hsince : x.since = s.jiffies := by rw [hx]
  rw [hadd]
  refine ⟨⟨?_, ?_, h.punctual.ran, h.punctual.removed⟩, sorted_insertSort h.sorted, h.clock, ?_⟩
  · refine List.perm_iff_count.mpr fun n => ?_
    have hold := h.punctual.once.count_eq n
    have hnew := ((insertSort_perm key x s.timer_list).map Timer.number).count_eq n
    rw [List.map_cons, List.count_cons, hnumber] at hnew
    simp only [List.count_append, List.range_succ, List.count_singleton] at hold hnew ⊢
    omega
  · intro y hy
    rcases mem_insertSort.mp hy with rfl | hy'
    · show s.jiffies.toNat < due y
      rw [due, hsince]
      omega
    · exact h.punctual.listed y hy'
  · intro y hy
    rcases mem_insertSort.mp hy with rfl | hy'
    · rw [hsince]
      exact BitVec.le_refl _
    · exact h.since y hy'

theorem Kept.dropTimers (h : Kept s) (keep : Timer H → Bool) : Kept (dropTimers s keep) := by
  refine ⟨⟨?_, ?_, h.punctual.ran, ?_⟩, h.sorted.filter _, h.clock, ?_⟩
  · refine List.perm_iff_count.mpr fun n => ?_
    have hold := h.punctual.once.count_eq n
    have hsplit := ((List.filter_append_perm keep s.timer_list).map Timer.number).count_eq n
    simp only [NeonixTimerList.dropTimers, List.map_append, List.map_map, List.count_append]
      at hold hsplit ⊢
    have hcomp : ((fun r : Timer H × BitVec 32 => r.1.number) ∘ fun x => (x, s.jiffies)) =
        Timer.number := rfl
    rw [hcomp]
    omega
  · exact fun x hx => h.punctual.listed x (List.mem_filter.mp hx).1
  · intro r hr
    rcases List.mem_append.mp hr with hr' | hr'
    · obtain ⟨x, hx, rfl⟩ := List.mem_map.mp hr'
      exact h.punctual.listed x (List.mem_filter.mp hx).1
    · exact h.punctual.removed r hr'
  · exact fun x hx => h.since x (List.mem_filter.mp hx).1

/-- On a tick, a timer that was not due and has expired is due. -/
theorem due_of_expired (hj : (s.jiffies + 1).toNat = s.jiffies.toNat + 1)
    (hx : s.jiffies.toNat < due x)
    (hsince : x.since ≤ s.jiffies) (hexp : x.expires ≤ s.jiffies + 1) :
    (s.jiffies + 1).toNat = due x := by
  rw [due] at hx ⊢
  rw [BitVec.le_def] at hsince hexp
  omega

theorem Kept.tick (h : Kept s) (hp : Parted s) (hs : exec s .tick = .ok s') : Kept s' := by
  cases (tick_eq hp.1).symm.trans hs
  have hj : (s.jiffies + 1).toNat = s.jiffies.toNat + 1 := by
    have hclock := h.clock
    rw [BitVec.lt_def, eof_toNat] at hclock
    rw [BitVec.toNat_add]
    exact Nat.mod_eq_of_lt (by simpa using Nat.add_lt_of_lt_sub hclock)
  have hdrop : (s.timer_list.dropWhile fun x => x.expires ≤ s.jiffies + 1).Sublist s.timer_list :=
    List.dropWhile_sublist _
  refine ⟨⟨?_, fun x hx => ?_, fun r hr => ?_, h.punctual.removed⟩, h.sorted.sublist hdrop, hp.1,
    fun x hx => ?_⟩
  · refine List.perm_iff_count.mpr fun n => ?_
    have hold := h.punctual.once.count_eq n
    have hsplit := congrArg (fun l => (l.map Timer.number).count n)
      (show (s.timer_list.takeWhile fun x => x.expires ≤ s.jiffies + 1) ++
        (s.timer_list.dropWhile fun x => x.expires ≤ s.jiffies + 1) = s.timer_list from
          List.takeWhile_append_dropWhile)
    simp only [List.map_append, List.map_reverse, List.map_map, List.count_append,
      List.count_reverse] at hold hsplit ⊢
    have hcomp : ((fun r : Timer H × BitVec 32 => r.1.number) ∘
        fun x => ({ x with active := true }, s.jiffies + 1)) = Timer.number := rfl
    rw [hcomp]
    omega
  · have hlate := dropWhile_expired h.sorted hp.2 x hx
    show (s.jiffies + 1).toNat < due x
    rw [BitVec.lt_def] at hlate
    rw [due]
    omega
  · rcases List.mem_append.mp hr with hr' | hr'
    · obtain ⟨x, hx, rfl⟩ := List.mem_map.mp (List.mem_reverse.mp hr')
      have hmem := (List.takeWhile_sublist _).mem hx
      have hexp := of_decide_eq_true (List.all_eq_true.mp List.all_takeWhile x hx)
      exact due_of_expired hj (h.punctual.listed x hmem) (h.since x hmem) hexp
    · exact h.punctual.ran r hr'
  · have hsince := h.since x (hdrop.mem hx)
    show x.since ≤ s.jiffies + 1
    rw [BitVec.le_def] at hsince ⊢
    omega

/-- The step lemma. -/
theorem Kept.exec (h : Kept s) {e : Event H} (he : Timely s e) (hs : exec s e = .ok s') :
    Kept s' := by
  cases e with
  | add task ms handler arg =>
      cases hs
      exact h.timerAdd task ms handler arg
  | put number =>
      rw [NeonixTimerList.exec, timerPut] at hs
      split_ifs at hs with hlisted
      cases hs
      exact h.dropTimers _
  | remove task =>
      cases hs
      exact h.dropTimers _
  | tick => exact h.tick (he rfl) hs

/-- The run lemma. -/
theorem reach_kept (h : Reach system Timely s) : Kept s := by
  refine h.invariant (fun s₀ hs => ?_) fun s₀ e s₁ hk he hstep => hk.exec he hstep.2
  rw [show s₀ = boot from hs]
  exact kept_boot

/-- In every run whose clock ticks all find the list parted, the handlers run on
    time: of the timers each is listed, has run once when it was due, or was
    removed before.  And there a tick wakes up all that has expired exactly if
    it finds the list parted. -/
theorem timers_punctual (h : Reach (system : System (State H) (Event H)) Timely s) :
    Punctual s ∧ (Woken s ↔ Parted s) :=
  ⟨(reach_kept h).punctual, woken_iff (reach_kept h).sorted⟩

/-- Two timers, of which the second expires with the first tick. -/
def twoTimers : List (Event Unit) := [.add 1 20 none 0, .add 2 10 none 0, .tick]

theorem timers_punctual_two : ∃ s, follow Timely (fun _ _ => True) exec boot twoTimers = some s ∧
    Punctual s ∧ (Woken s ↔ Parted s) := by
  have hrun : (follow Timely (fun _ _ => True) exec boot twoTimers).isSome = true := by decide
  obtain ⟨s, hs⟩ := Option.isSome_iff_exists.mp hrun
  have hstart : Reach (system : System (State Unit) (Event Unit)) Timely boot := Reach.start rfl
  exact ⟨s, hs, timers_punctual (hstart.follow twoTimers hs)⟩

/-- The clock after a number of ticks without a timer. -/
theorem reach_ticks (n : Nat) (hn : n < 2 ^ 32 - 1) :
    Reach system Computed { (boot : State H) with jiffies := BitVec.ofNat 32 n } := by
  induction n with
  | zero => exact Reach.start rfl
  | succ n ih =>
      refine (ih (by omega)).step (e := .tick) trivial ⟨trivial, ?_⟩
      have hnext : BitVec.ofNat 32 n + 1 = BitVec.ofNat 32 (n + 1) := (BitVec.ofNat_add _ _).symm
      have hlt : BitVec.ofNat 32 (n + 1) < EOF := by
        rw [BitVec.lt_def, eof_toNat, BitVec.toNat_ofNat, Nat.mod_eq_of_lt (by omega)]
        exact hn
      rw [tick_eq (by rw [hnext]; exact hlt), hnext]
      rfl

/-- The time of the last tick but one before `2 ^ 31`. -/
def eve : BitVec 32 := 0x7FFFFFFE

/-- Then a timer that expires with the next tick waits behind one that expires a
    tick later. -/
theorem timer_late : ∃ s s' : State Unit, Reach system Computed s ∧ exec s .tick = .ok s' ∧
    (∃ x ∈ s'.timer_list, x.expires ≤ s'.jiffies) ∧ ¬ Punctual s' := by
  have hstart : Reach system Computed { (boot : State Unit) with jiffies := eve } :=
    reach_ticks 0x7FFFFFFE (by decide)
  have hfirst := hstart.step (e := (.add 1 10 none 0 : Event Unit)) (show eve.toNat + 1 < 2 ^ 32 - 1 by decide)
    ⟨trivial, rfl⟩
  have hboth := hfirst.step (e := (.add 2 20 none 0 : Event Unit)) (show eve.toNat + 2 < 2 ^ 32 - 1 by decide)
    ⟨trivial, rfl⟩
  refine ⟨_, _, hboth, rfl, ⟨⟨1, 0x7FFFFFFF, none, 0, false, 0, eve⟩, ?_, ?_⟩, fun hp => ?_⟩
  · exact List.mem_cons_of_mem _ List.mem_cons_self
  · exact (by decide : (0x7FFFFFFF : BitVec 32) ≤ eve + 1)
  · have hnot := hp.listed _ (List.mem_cons_of_mem _ List.mem_cons_self)
    exact absurd hnot (by decide)

end NeonixTimerList
