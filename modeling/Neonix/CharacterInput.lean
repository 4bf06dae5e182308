import Neonix.FifoQueues
import Neonix.Mutex
import Neonix.Runs

/-! # `keyboard_read` and `serial_read`: tasks that share the bytes of a device

    An interrupt puts a byte into the queue of the device and wakes the task that
    waits for it; any number of tasks read.  A step is an interrupt, or the code
    of one task up to the next point where it is switched away from: the
    `task_block` of `mutex_lock` and of the empty queue, and the `task_yield` of
    `mutex_unlock`.  Interrupts are off in between.

    `arrived` and `taken` are all the bytes ever put into the queue and taken out
    of it by `fifo_get` of a reader, and `answers` the calls that are through. -/

namespace NeonixCharacterInput

open NeonixByteBits NeonixMachine NeonixMutex NeonixFifo NeonixFifoQueues NeonixRuns

/-- Where a task stands in the read function of the device. -/
inductive Pc where
  /-- outside -/
  | user
  /-- in the loop of `mutex_lock` -/
  | locking (count : Nat)
  /-- in the `task_block` of the empty queue, with the bytes it has stored so far -/
  | reading (count : Nat) (got : List Byte)
  /-- in the `task_yield` of `mutex_unlock` -/
  | unlocking
  deriving DecidableEq

/-- A call that is through. -/
structure Answer where
  task : Nat
  count : Nat
  bytes : List Byte

structure State where
  fifo : Fifo
  lock : Lock
  waiter : Option Nat
  block_list : List Nat
  pc : Nat → Pc
  arrived : List Byte
  taken : List Byte
  answers : List Answer

def State.setPc (s : State) (t : Nat) (p : Pc) : State :=
  { s with pc := Function.update s.pc t p }

/-- The end of the interrupt handler: `fifo_put`, and the waiter is woken. -/
def arrive (s : State) (byte : Byte) : Res State := do
  let fifo ← fifoPut s.fifo byte
  let s := { s with fifo := fifo, arrived := s.arrived ++ [byte] }
  match s.waiter with
  | some t => return { s with waiter := none, block_list := s.block_list.erase t }
  | none => return s

/-- The end of the read function. -/
def readDone (s : State) (t count : Nat) (got : List Byte) : Res State := do
  let (lock, woken) ← lockRelease s.lock t
  let s := { s with lock := lock, answers := s.answers ++ [Answer.mk t count got] }
  match woken with
  | some _ => return s.setPc t .unlocking
  | none => return s.setPc t .user

/-- The loop of the read function with so many bytes left; `serial_read` asserts that nobody
    else waits. -/
def readLoop (asserts : Bool) (t count : Nat) : (left : Nat) → (got : List Byte) → State → Res State
  | 0, got, s => readDone s t count got
  | left + 1, got, s =>
      if s.fifo.Empty then do
        check (asserts = true → s.waiter = none)
        check (t ∉ s.block_list)
        return { s with waiter := some t, block_list := t :: s.block_list }.setPc t
          (.reading count got)
      else do
        let (byte, fifo) ← fifoGet s.fifo
        readLoop asserts t count left (got ++ [byte])
          { s with fifo := fifo, taken := s.taken ++ [byte] }

/-- The read function after a turn of `mutex_lock`. -/
def readLocked (asserts : Bool) (s : State) (t count : Nat) : Lock × Turn → Res State
  | (lock, .acquired) => readLoop asserts t count count [] { s with lock := lock }
  | (lock, .waits) => .ok ({ s with lock := lock }.setPc t (.locking count))

inductive Event where
  | arrive (byte : Byte)
  | read (t count : Nat)
  /-- the task goes on from where it stands -/
  | resume (t : Nat)

def exec (asserts : Bool) (s : State) : Event → Res State
  | .arrive byte => arrive s byte
  | .read t count => do readLocked asserts s t count (← lockAcquire s.lock t)
  | .resume t =>
      match s.pc t with
      | .user => .ok s
      | .locking count => do readLocked asserts s t count (← mutexTurn s.lock t)
      | .reading count got => readLoop asserts t count (count - got.length) got s
      | .unlocking => .ok (s.setPc t .user)

/-- A task that stands there is not blocked. -/
def ReadyAt (s : State) (t : Nat) : Pc → Prop
  | .user | .unlocking => True
  | .locking _ => t ∉ s.lock.waiters
  | .reading _ _ => t ∉ s.block_list

instance (s : State) (t : Nat) : (p : Pc) → Decidable (ReadyAt s t p)
  | .user | .unlocking => inferInstanceAs (Decidable True)
  | .locking _ | .reading _ _ => inferInstanceAs (Decidable (_ ∉ _))

def Enabled (s : State) : Event → Prop
  | .arrive _ => True
  | .read t _ => s.pc t = .user
  | .resume t => ReadyAt s t (s.pc t)

instance (s : State) : (e : Event) → Decidable (Enabled s e)
  | .arrive _ => inferInstanceAs (Decidable True)
  | .read _ _ => inferInstanceAs (Decidable (_ = _))
  | .resume t => inferInstanceAs (Decidable (ReadyAt s t (s.pc t)))

/-- An empty queue, a new lock and nobody inside. -/
structure Init (length : Nat) (s : State) : Prop where
  length : s.fifo.length = length
  contents : s.fifo.contents = []
  lock : s.lock = lockInit
  waiter : s.waiter = none
  block_list : s.block_list = []
  pc : ∀ t, s.pc t = .user
  arrived : s.arrived = []
  taken : s.taken = []
  answers : s.answers = []

/-- The tasks that read from a device with a queue of so many cells. -/
def system (asserts : Bool) (length : Nat) : System State Event :=
  execSystem (Init length) Enabled (exec asserts)

/-! ## The queue -/

/-- The queue has what arrived last and was not taken; what it had no room for is missing. -/
structure Ordered (s : State) : Prop where
  order : (s.taken ++ s.fifo.contents).Sublist s.arrived
  newest : s.fifo.contents <:+ s.arrived

variable {s s' : State} {t u count left length : Nat} {got : List Byte} {byte : Byte}
  {asserts : Bool} {f g : Fifo} {lock : Lock}

/-- What `fifo_put` leaves, whether there is room or not. -/
theorem fifoPut_cases (byte : Byte) (h2 : 2 ≤ f.length) : ∃ g, fifoPut f byte = .ok g ∧ g.length = f.length ∧
    ∃ rest, rest <:+ f.contents ∧ g.contents = rest ++ [byte] ∧ (¬ f.Full → rest = f.contents) := by
  by_cases hf : f.Full
  · have hne := full_nonempty h2 hf
    refine ⟨_, fifoPut_full h2 hf, rfl, f.drop.contents, ?_,
      contents_append (drop_not_full hne hf) byte, fun h => absurd hf h⟩
    rw [contents_drop hne]
    exact List.suffix_cons _ _
  · exact ⟨_, fifoPut_ok hf byte, rfl, f.contents, List.suffix_rfl, contents_append hf byte,
      fun _ => rfl⟩

theorem append_not_empty (hc : g.contents = got ++ [byte]) : ¬ g.Empty := by
  rw [← contents_eq_nil, hc]
  exact List.append_ne_nil_of_right_ne_nil _ (List.cons_ne_nil _ _)

/-! ## The readers -/

/-- Nobody is reading. -/
structure Idle (s : State) : Prop where
  lock : s.lock.Unheld
  pc : ∀ u count got, s.pc u ≠ .reading count got
  waiter : s.waiter = none
  block_list : s.block_list = []
  taken : s.taken = s.answers.flatMap Answer.bytes

/-- A task has the lock and is reading. -/
structure Reads (t count : Nat) (got : List Byte) (s : State) : Prop where
  lock : s.lock.HeldBy t
  pc : ∀ u count got, u ≠ t → s.pc u ≠ .reading count got
  short : got.length ≤ count
  taken : s.taken = s.answers.flatMap Answer.bytes ++ got

/-- A reader waits for a byte, or one has arrived for it. -/
def Waits (t : Nat) (s : State) : Prop :=
  s.waiter = some t ∧ s.block_list = [t] ∧ s.fifo.Empty ∨
    s.waiter = none ∧ s.block_list = [] ∧ ¬ s.fifo.Empty

/-- The tasks that wait for the lock. -/
structure Queued (s : State) : Prop where
  waiters : ∀ u, u ∈ s.lock.waiters → ∃ count, s.pc u = .locking count
  nodup : s.lock.waiters.Nodup
  awake : s.lock.value = false → s.lock.waiters ≠ [] →
    ∃ u count, s.pc u = .locking count ∧ u ∉ s.lock.waiters

/-- What every step keeps. -/
structure Inv (length : Nat) (s : State) : Prop where
  length : s.fifo.length = length
  ordered : Ordered s
  queued : Queued s
  turn : Idle s ∨ ∃ t count got, Reads t count got s ∧ s.pc t = .reading count got ∧
    got.length < count ∧ Waits t s
  counts : ∀ a ∈ s.answers, a.bytes.length = a.count

/-- A reader in the middle of a step: it has the lock, and nobody waits for bytes. -/
structure Busy (length t count : Nat) (got : List Byte) (s : State) : Prop where
  length : s.fifo.length = length
  ordered : Ordered s
  reads : Reads t count got s
  waiter : s.waiter = none
  block_list : s.block_list = []
  waiters : ∀ u, u ∈ s.lock.waiters → u ≠ t ∧ ∃ count, s.pc u = .locking count
  nodup : s.lock.waiters.Nodup
  counts : ∀ a ∈ s.answers, a.bytes.length = a.count

theorem setPc_self (p : Pc) : (s.setPc t p).pc t = p := Function.update_self ..

theorem setPc_other {p : Pc} (h : u ≠ t) : (s.setPc t p).pc u = s.pc u := Function.update_of_ne h ..

/-- A byte arrives. -/
theorem inv_arrive (h : Inv length s) (h2 : 2 ≤ length) : ∃ s', arrive s byte = .ok s' ∧
    Inv length s' := by
  obtain ⟨g, hput, hlen, rest, hsuffix, hcontents, -⟩ :=
    fifoPut_cases byte (h.length.symm ▸ h2)
  have hordered : (s.taken ++ g.contents).Sublist (s.arrived ++ [byte]) ∧
      g.contents <:+ s.arrived ++ [byte] := by
    rw [hcontents, ← List.append_assoc]
    constructor
    · exact (((List.Sublist.refl _).append hsuffix.sublist).trans h.ordered.order).append (.refl _)
    · obtain ⟨front, hfront⟩ := hsuffix.trans h.ordered.newest
      refine ⟨front, ?_⟩
      rw [← List.append_assoc, hfront]
  have hne := append_not_empty hcontents
  rw [arrive, hput, bind_ok]
  cases hw : s.waiter with
  | none =>
      refine ⟨_, rfl, hlen.trans h.length, ⟨hordered.1, hordered.2⟩,
        ⟨h.queued.waiters, h.queued.nodup, h.queued.awake⟩, ?_, h.counts⟩
      rcases h.turn with hidle | ⟨t, count, got, hreads, hpc, hlt, hwaits⟩
      · exact Or.inl ⟨hidle.lock, hidle.pc, rfl, hidle.block_list, hidle.taken⟩
      · refine Or.inr ⟨t, count, got, ⟨hreads.lock, hreads.pc, hreads.short, hreads.taken⟩, hpc, hlt,
          Or.inr ⟨rfl, ?_, hne⟩⟩
        rcases hwaits with ⟨hwaiter, -⟩ | ⟨-, hblock, -⟩
        · cases hw.symm.trans hwaiter
        · exact hblock
  | some w =>
      refine ⟨_, rfl, hlen.trans h.length, ⟨hordered.1, hordered.2⟩,
        ⟨h.queued.waiters, h.queued.nodup, h.queued.awake⟩, ?_, h.counts⟩
      rcases h.turn with hidle | ⟨t, count, got, hreads, hpc, hlt, hwaits⟩
      · cases hw.symm.trans hidle.waiter
      · refine Or.inr ⟨t, count, got, ⟨hreads.lock, hreads.pc, hreads.short, hreads.taken⟩, hpc, hlt,
          Or.inr ⟨rfl, ?_, hne⟩⟩
        rcases hwaits with ⟨hwaiter, hblock, -⟩ | ⟨hwaiter, -⟩
        · obtain rfl := Option.some.inj (hw.symm.trans hwaiter)
          show s.block_list.erase w = []
          rw [hblock, List.erase_cons_head]
        · cases hw.symm.trans hwaiter

/-- The reader has all it asked for and gives the lock up. -/
theorem inv_readDone (h : Busy length t count got s) (hall : got.length = count) :
    ∃ s', readDone s t count got = .ok s' ∧ Inv length s' := by
  have hanswers : ∀ a ∈ s.answers ++ [Answer.mk t count got], a.bytes.length = a.count := by
    intro a ha
    rcases List.mem_append.mp ha with ha | ha
    · exact h.counts a ha
    · rw [List.mem_singleton.mp ha]
      exact hall
  have htaken : s.taken = (s.answers ++ [Answer.mk t count got]).flatMap Answer.bytes := by
    rw [h.reads.taken, List.flatMap_append, List.flatMap_singleton]
  -- whichever place the task goes on from, nobody is reading now
  have hend : ∀ p : Pc, (∀ count got, p ≠ .reading count got) → Inv length ({ s with
        lock := { holder := none, repeats := 0, value := false, waiters := s.lock.waiters.dropLast }
        answers := s.answers ++ [Answer.mk t count got] }.setPc t p) := by
    intro p hreading
    have hpc : ∀ u, u ≠ t → (s.setPc t p).pc u = s.pc u := fun u hu => setPc_other hu
    refine ⟨h.length, ⟨h.ordered.order, h.ordered.newest⟩, ⟨fun u hu => ?_, ?_, fun _ hne => ?_⟩,
      Or.inl ⟨⟨rfl, rfl, rfl⟩, fun u c g hu => ?_, h.waiter, h.block_list, htaken⟩, hanswers⟩
    · obtain ⟨hne, c, hc⟩ := h.waiters u (List.dropLast_subset _ hu)
      exact ⟨c, (hpc u hne).trans hc⟩
    · exact h.nodup.sublist (List.dropLast_sublist _)
    · cases hlast' : s.lock.waiters.getLast? with
      | none =>
          rw [List.getLast?_eq_none_iff] at hlast'
          have hne : s.lock.waiters.dropLast ≠ [] := hne
          rw [hlast'] at hne
          exact absurd rfl hne
      | some w =>
          have hw := List.mem_of_getLast? hlast'
          obtain ⟨hwt, c, hc⟩ := h.waiters w hw
          refine ⟨w, c, (hpc w hwt).trans hc, fun hin => ?_⟩
          have hin : w ∈ s.lock.waiters.dropLast := hin
          have hnodup := h.nodup
          rw [← List.dropLast_append_getLast? w hlast'] at hnodup
          exact (List.nodup_append.mp hnodup).2.2 w hin w (List.mem_singleton.mpr rfl) rfl
    · by_cases hut : u = t
      · subst hut
        exact hreading c g ((setPc_self (s := s) p).symm.trans hu)
      · exact h.reads.pc u c g hut ((hpc u hut).symm.trans hu)
  rw [readDone, lockRelease_held h.reads.lock, bind_ok]
  dsimp only
  cases s.lock.waiters.getLast? with
  | none => exact ⟨_, rfl, hend .user (by rintro c g ⟨⟩)⟩
  | some w => exact ⟨_, rfl, hend .unlocking (by rintro c g ⟨⟩)⟩

/-- The loop of a reader ends with all it asked for, or where it waits. -/
theorem inv_readLoop : ∀ (left : Nat) (got : List Byte) (s : State), Busy length t count got s →
    got.length + left = count →
    ∃ s', readLoop asserts t count left got s = .ok s' ∧ Inv length s' := by
  intro left
  induction left with
  | zero =>
      intro got s h hleft
      exact inv_readDone h hleft
  | succ left ih =>
      intro got s h hleft
      rw [readLoop]
      by_cases hempty : s.fifo.Empty
      · have hblock : t ∉ s.block_list := by
          rw [h.block_list]
          exact List.not_mem_nil
        rw [if_pos hempty, check_pos fun _ => h.waiter, bind_ok, check_pos hblock, bind_ok]
        have hpc : ∀ u, u ≠ t → (s.setPc t (.reading count got)).pc u = s.pc u :=
          fun u hu => setPc_other hu
        refine ⟨_, rfl, h.length, ⟨h.ordered.order, h.ordered.newest⟩,
          ⟨fun u hu => ?_, h.nodup, fun hvalue => ?_⟩,
          Or.inr ⟨t, count, got, ⟨h.reads.lock, fun u c g hu hpcu => ?_, h.reads.short,
            h.reads.taken⟩, setPc_self _, by omega, Or.inl ⟨rfl, ?_, hempty⟩⟩, h.counts⟩
        · obtain ⟨hne, c, hc⟩ := h.waiters u hu
          exact ⟨c, (hpc u hne).trans hc⟩
        · cases h.reads.lock.2.2.symm.trans hvalue
        · exact h.reads.pc u c g hu ((hpc u hu).symm.trans hpcu)
        · show t :: s.block_list = [t]
          rw [h.block_list]
      · rw [if_neg hempty, fifoGet_ok hempty, bind_ok]
        have hcontents := contents_drop hempty
        refine ih _ _ ⟨h.length, ⟨?_, ?_⟩, ⟨h.reads.lock, h.reads.pc, ?_, ?_⟩, h.waiter,
          h.block_list, h.waiters, h.nodup, h.counts⟩ ?_
        · have horder := h.ordered.order
          rw [hcontents] at horder
          rw [List.append_assoc]
          exact horder
        · have hnewest := h.ordered.newest
          rw [hcontents] at hnewest
          exact (List.suffix_cons _ _).trans hnewest
        · rw [List.length_append, List.length_singleton]
          omega
        · show s.taken ++ _ = _
          rw [h.reads.taken, List.append_assoc]
        · rw [List.length_append, List.length_singleton]
          omega

/-- A task that asks for the lock takes it and reads, or waits for it. -/
theorem inv_readLocked (asserts : Bool) (count : Nat) (h : Inv length s) (hpc : ∀ c g, s.pc t ≠ .reading c g)
    (hnot : t ∉ s.lock.waiters) : s.lock.holder ≠ some t ∧
      ∃ s', (mutexTurn s.lock t >>= readLocked asserts s t count) = .ok s' ∧ Inv length s' := by
  rcases h.turn with hidle | ⟨r, c, got, hreads, hr, hlt, hwaits⟩
  · refine ⟨fun heq => ?_, ?_⟩
    · cases hidle.lock.1.symm.trans heq
    · rw [mutexTurn_unheld hidle.lock, bind_ok]
      refine inv_readLoop count [] _ ⟨h.length, ⟨h.ordered.order, h.ordered.newest⟩,
        ⟨⟨rfl, rfl, rfl⟩, fun u c g _ => hidle.pc u c g, Nat.zero_le _, ?_⟩, hidle.waiter,
        hidle.block_list, fun u hu => ⟨?_, h.queued.waiters u hu⟩, h.queued.nodup, h.counts⟩
        (Nat.zero_add _)
      · rw [List.append_nil]
        exact hidle.taken
      · rintro rfl
        exact hnot hu
  · have hrt : r ≠ t := by
      rintro rfl
      exact hpc c got hr
    refine ⟨fun heq => hrt (Option.some.inj (hreads.lock.1.symm.trans heq)), ?_⟩
    rw [mutexTurn_held hreads.lock, bind_ok]
    have hother : ∀ u, u ≠ t → (s.setPc t (.locking count)).pc u = s.pc u := fun u hu =>
      setPc_other hu
    have hself : (s.setPc t (.locking count)).pc t = .locking count := setPc_self _
    refine ⟨_, rfl, h.length, ⟨h.ordered.order, h.ordered.newest⟩,
      ⟨fun u hu => ?_, List.nodup_cons.mpr ⟨hnot, h.queued.nodup⟩, fun hvalue => ?_⟩,
      Or.inr ⟨r, c, got, ⟨hreads.lock, fun u c' g hu hread => ?_, hreads.short, hreads.taken⟩,
        (hother r hrt).trans hr, hlt, hwaits⟩, h.counts⟩
    · by_cases hut : u = t
      · subst hut
        exact ⟨count, hself⟩
      · obtain ⟨c', hc⟩ := h.queued.waiters u ((List.mem_cons.mp hu).resolve_left hut)
        exact ⟨c', (hother u hut).trans hc⟩
    · cases hreads.lock.2.2.symm.trans hvalue
    · by_cases hut : u = t
      · subst hut
        cases hself.symm.trans hread
      · exact hreads.pc u c' g hu ((hother u hut).symm.trans hread)

/-- A task behind its `task_yield` returns. -/
theorem inv_return (h : Inv length s) (hpc : s.pc t = .unlocking) :
    Inv length (s.setPc t .user) := by
  have hother : ∀ u p, s.pc u = p → p ≠ .unlocking → (s.setPc t .user).pc u = p := by
    rintro u p rfl hp
    refine setPc_other ?_
    rintro rfl
    exact hp hpc
  have hread : ∀ u c g, (s.setPc t .user).pc u = .reading c g → s.pc u = .reading c g := by
    intro u c g hu
    by_cases hut : u = t
    · subst hut
      cases (setPc_self (s := s) Pc.user).symm.trans hu
    · exact (setPc_other hut).symm.trans hu
  refine ⟨h.length, ⟨h.ordered.order, h.ordered.newest⟩, ⟨fun u hu => ?_, h.queued.nodup,
    fun hvalue hne => ?_⟩, ?_, h.counts⟩
  · obtain ⟨c, hc⟩ := h.queued.waiters u hu
    exact ⟨c, hother u _ hc (by rintro ⟨⟩)⟩
  · obtain ⟨u, c, hc, hnot⟩ := h.queued.awake hvalue hne
    exact ⟨u, c, hother u _ hc (by rintro ⟨⟩), hnot⟩
  · rcases h.turn with hidle | ⟨r, c, got, hreads, hr, hlt, hwaits⟩
    · exact Or.inl ⟨hidle.lock, fun u c g hu => hidle.pc u c g (hread u c g hu), hidle.waiter,
        hidle.block_list, hidle.taken⟩
    · exact Or.inr ⟨r, c, got, ⟨hreads.lock, fun u c' g hu hu' =>
        hreads.pc u c' g hu (hread u c' g hu'), hreads.short, hreads.taken⟩,
        hother r _ hr (by rintro ⟨⟩), hlt, hwaits⟩

/-- No assertion stops an event that can happen. -/
theorem inv_exec (asserts : Bool) (h2 : 2 ≤ length) (h : Inv length s) {e : Event} (he : Enabled s e) :
    ∃ s', exec asserts s e = .ok s' ∧ Inv length s' := by
  cases e with
  | arrive byte => exact inv_arrive h h2
  | read t count =>
      have hpc : s.pc t = .user := he
      have hnot : t ∉ s.lock.waiters := fun hin => by
        obtain ⟨c, hc⟩ := h.queued.waiters t hin
        cases hpc.symm.trans hc
      obtain ⟨hholder, s', hs', hinv⟩ := inv_readLocked asserts count h
        (fun c g hr => by cases hpc.symm.trans hr) hnot
      refine ⟨s', ?_, hinv⟩
      rw [exec, lockAcquire, if_pos hholder]
      exact hs'
  | resume t =>
      rw [exec]
      have he : ReadyAt s t (s.pc t) := he
      cases hpc : s.pc t with
      | user => exact ⟨s, rfl, h⟩
      | locking count =>
          rw [hpc] at he
          obtain ⟨-, hs'⟩ := inv_readLocked asserts count h
            (fun c g hr => by cases hpc.symm.trans hr) he
          exact hs'
      | reading count got =>
          rw [hpc] at he
          rcases h.turn with hidle | ⟨r, c, g, hreads, hr, hlt, hwaits⟩
          · exact absurd hpc (hidle.pc t count got)
          · obtain rfl : t = r := by
              by_contra hne
              exact hreads.pc t count got hne hpc
            obtain ⟨rfl, rfl⟩ := Pc.reading.inj (hpc.symm.trans hr)
            rcases hwaits with ⟨-, hblock, -⟩ | ⟨hwaiter, hblock, -⟩
            · rw [ReadyAt, hblock] at he
              exact absurd List.mem_cons_self he
            · refine inv_readLoop _ _ _ ⟨h.length, h.ordered, hreads, hwaiter, hblock,
                fun u hu => ?_, h.queued.nodup, h.counts⟩ (by omega)
              obtain ⟨c, hc⟩ := h.queued.waiters u hu
              refine ⟨?_, c, hc⟩
              rintro rfl
              cases hpc.symm.trans hc
      | unlocking => exact ⟨_, rfl, inv_return h hpc⟩

theorem inv_init (h : Init length s) : Inv length s := by
  refine ⟨h.length, ⟨?_, ?_⟩, ⟨fun u hu => ?_, ?_, fun _ hne => ?_⟩, Or.inl ⟨?_, fun u c g hu => ?_,
    h.waiter, h.block_list, ?_⟩, fun a ha => ?_⟩
  · have hnone : s.taken ++ s.fifo.contents = s.arrived := by
      simp only [h.taken, h.contents, h.arrived, List.append_nil]
    exact hnone ▸ .refl _
  · have hnone : s.fifo.contents = s.arrived := by rw [h.contents, h.arrived]
    exact hnone ▸ List.suffix_rfl
  · rw [h.lock] at hu
    cases hu
  · rw [h.lock]
    exact List.nodup_nil
  · rw [h.lock] at hne
    exact absurd rfl hne
  · rw [h.lock]
    exact ⟨rfl, rfl, rfl⟩
  · cases (h.pc u).symm.trans hu
  · rw [h.taken, h.answers]
    rfl
  · rw [h.answers] at ha
    cases ha

/-! ## What the readers get -/

/-- The bytes went to the calls one after the other, as many as each asked for; only the call
    that is not through may have a part of its bytes. -/
structure Served (s : State) : Prop where
  ordered : Ordered s
  serial : ∃ rest, s.taken = s.answers.flatMap Answer.bytes ++ rest ∧
    (rest = [] ∨ ∃ t count, s.pc t = .reading count rest)
  counts : ∀ a ∈ s.answers, a.bytes.length = a.count
  /-- A blocked reader waits for a byte that has not come, and a byte that has come finds
      somebody who can run, if anybody is inside. -/
  awake : ∀ t, s.pc t ≠ .user → (∃ u, s.pc u ≠ .user ∧ ReadyAt s u (s.pc u)) ∨
    s.fifo.Empty ∧ ∃ u count got, s.pc u = .reading count got ∧ s.waiter = some u

theorem Inv.served (h : Inv length s) : Served s := by
  refine ⟨h.ordered, ?_, h.counts, fun t ht => ?_⟩
  · rcases h.turn with hidle | ⟨t, count, got, hreads, hpc, -, -⟩
    · exact ⟨[], by rw [List.append_nil]; exact hidle.taken, Or.inl rfl⟩
    · exact ⟨got, hreads.taken, Or.inr ⟨t, count, hpc⟩⟩
  · rcases h.turn with hidle | ⟨r, count, got, hreads, hpc, -, hwaits⟩
    · left
      by_cases hwaiters : s.lock.waiters = []
      · refine ⟨t, ht, ?_⟩
        cases hp : s.pc t with
        | user | unlocking => trivial
        | locking c =>
            rw [ReadyAt, hwaiters]
            exact List.not_mem_nil
        | reading c g => exact absurd hp (hidle.pc t c g)
      · obtain ⟨u, c, hc, hnot⟩ := h.queued.awake hidle.lock.2.2 hwaiters
        refine ⟨u, ?_, ?_⟩
        · rw [hc]
          rintro ⟨⟩
        · rw [hc]
          exact hnot
    · rcases hwaits with ⟨hwaiter, -, hempty⟩ | ⟨-, hblock, -⟩
      · exact Or.inr ⟨hempty, r, count, got, hpc, hwaiter⟩
      · refine Or.inl ⟨r, ?_, ?_⟩
        · rw [hpc]
          rintro ⟨⟩
        · rw [hpc, ReadyAt, hblock]
          exact List.not_mem_nil

theorem reach_inv (h2 : 2 ≤ length) (h : Reach (system asserts length) free s) : Inv length s := by
  have hstep : ∀ (m : State) (e : Event) (n : State), Inv length m → free m e →
      (system asserts length).step m e n → Inv length n := by
    rintro m e n hm - ⟨he, hn⟩
    obtain ⟨n', hn', hinv⟩ := inv_exec asserts h2 hm he
    rw [Except.ok.inj (hn.symm.trans hn')]
    exact hinv
  exact h.invariant (fun _ => inv_init) hstep

/-- A device nobody reads from. -/
def idleState (length : Nat) (h0 : 0 < length) (hlt : length < 2 ^ 32) : State where
  fifo := fifoInit (fun _ => 0) length h0 hlt
  lock := lockInit
  waiter := none
  block_list := []
  pc := fun _ => .user
  arrived := []
  taken := []
  answers := []

theorem idleState_init (h0 : 0 < length) (hlt : length < 2 ^ 32) :
    Init length (idleState length h0 hlt) :=
  ⟨rfl, contents_init h0 hlt, rfl, rfl, rfl, fun _ => rfl, rfl, rfl, rfl⟩

/-- No byte comes while the queue is full. -/
def InTime (s : State) : Event → Prop
  | .arrive _ => ¬ s.fifo.Full
  | .read _ _ | .resume _ => True

instance (s : State) : (e : Event) → Decidable (InTime s e)
  | .arrive _ => inferInstanceAs (Decidable (¬ _))
  | .read _ _ | .resume _ => inferInstanceAs (Decidable True)

/-- A reader moves bytes out of the queue and drops none. -/
structure Moves (s s' : State) : Prop where
  bytes : s'.taken ++ s'.fifo.contents = s.taken ++ s.fifo.contents
  arrived : s'.arrived = s.arrived

theorem moves_readDone (h : readDone s t count got = .ok s') : Moves s s' := by
  obtain ⟨⟨lock, woken⟩, -, h⟩ := bind_eq_ok h
  cases woken with
  | none =>
      rw [← Except.ok.inj h]
      exact ⟨rfl, rfl⟩
  | some _ =>
      rw [← Except.ok.inj h]
      exact ⟨rfl, rfl⟩

theorem moves_readLoop : ∀ (left : Nat) (got : List Byte) (s : State),
    readLoop asserts t count left got s = .ok s' → Moves s s' := by
  intro left
  induction left with
  | zero =>
      intro got s h
      exact moves_readDone h
  | succ left ih =>
      intro got s h
      rw [readLoop] at h
      by_cases hempty : s.fifo.Empty
      · rw [if_pos hempty] at h
        obtain ⟨_, -, h⟩ := bind_eq_ok h
        obtain ⟨_, -, h⟩ := bind_eq_ok h
        rw [← Except.ok.inj h]
        exact ⟨rfl, rfl⟩
      · rw [if_neg hempty, fifoGet_ok hempty, bind_ok] at h
        obtain ⟨hbytes, harrived⟩ := ih _ _ h
        refine ⟨hbytes.trans ?_, harrived⟩
        rw [contents_drop hempty, List.append_assoc]
        rfl

theorem moves_readLocked {r : Lock × Turn} (h : readLocked asserts s t count r = .ok s') :
    Moves s s' := by
  obtain ⟨lock, turn⟩ := r
  cases turn with
  | acquired =>
      obtain ⟨hbytes, harrived⟩ := moves_readLoop _ _ _ h
      exact ⟨hbytes, harrived⟩
  | waits =>
      rw [← Except.ok.inj h]
      exact ⟨rfl, rfl⟩

/-- What a task does. -/
theorem moves_resume (h : exec asserts s (.resume t) = .ok s') : Moves s s' := by
  rw [exec] at h
  cases hpc : s.pc t with
  | user =>
      rw [hpc] at h
      rw [← Except.ok.inj h]
      exact ⟨rfl, rfl⟩
  | locking count =>
      rw [hpc] at h
      obtain ⟨r, -, h⟩ := bind_eq_ok h
      exact moves_readLocked h
  | reading count got =>
      rw [hpc] at h
      exact moves_readLoop _ _ _ h
  | unlocking =>
      rw [hpc] at h
      rw [← Except.ok.inj h]
      exact ⟨rfl, rfl⟩

/-- **NOTHING IS LOST IN TIME**: in the runs where no byte comes while the queue is full, what
    arrived is what was taken and what the queue holds. -/
theorem arrived_eq (h : Reach (system asserts length) InTime s) :
    s.arrived = s.taken ++ s.fifo.contents := by
  have hstep : ∀ (m : State) (e : Event) (n : State), m.arrived = m.taken ++ m.fifo.contents →
      InTime m e → (system asserts length).step m e n → n.arrived = n.taken ++ n.fifo.contents := by
    rintro m e n hm hg ⟨-, hn⟩
    have hmoves : Moves m n → n.arrived = n.taken ++ n.fifo.contents := fun hkeep => by
      rw [hkeep.bytes, hkeep.arrived]
      exact hm
    cases e with
    | arrive byte =>
        obtain ⟨fifo, hput, hn⟩ := bind_eq_ok hn
        have hroom : ¬ m.fifo.Full := hg
        obtain rfl := Except.ok.inj ((fifoPut_ok hroom byte).symm.trans hput)
        have hall : m.arrived ++ [byte] = m.taken ++ (m.fifo.append byte).contents := by
          rw [contents_append hroom, hm, List.append_assoc]
        dsimp only at hn
        split at hn
        · rw [← Except.ok.inj hn]
          exact hall
        · rw [← Except.ok.inj hn]
          exact hall
    | read t count =>
        obtain ⟨r, -, hn⟩ := bind_eq_ok hn
        exact hmoves (moves_readLocked hn)
    | resume t => exact hmoves (moves_resume hn)
  refine h.invariant (fun m h0 => ?_) hstep
  rw [h0.arrived, h0.taken, h0.contents]
  rfl

end NeonixCharacterInput
