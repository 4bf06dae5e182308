import Neonix.PipeTurns

/-! # Pipes with one and with many users

    With one reader and one writer a pipe is a byte stream.  With more of them
    it is safe as long as each turn finds the waiter slot free where it has to
    wait and leaves something to a task that was woken. -/

namespace NeonixPipeSafety

open NeonixByteBits NeonixMachine NeonixFifo NeonixRuns NeonixTask NeonixPipes NeonixPipeTurns

variable {s s' : State} {t u r w : Nat} {count : Int} {buf : List Byte} {waited : Bool}
  {byte : Byte} {e : Event}

theorem pipeInv_init (h : Init s) : PipeInv s := by
  have hbr : ∀ t, ¬ (s.pc t).BehindRead := by
    intro t
    rw [h.pc]
    exact id
  have hbw : ∀ t, ¬ (s.pc t).BehindWrite := by
    intro t
    rw [h.pc]
    exact id
  refine ⟨h.length, ?_, ?_, fun t _ _ => h.state t⟩
  · rw [h.rxwaiter]
    exact ⟨fun t => iff_of_false nofun fun hx => hbr t hx.1, fun t _ ht => absurd ht (hbr t),
      fun hx => absurd rfl hx, fun t ht => absurd ht (hbr t)⟩
  · rw [h.txwaiter]
    exact ⟨fun t => iff_of_false nofun fun hx => hbw t hx.1, fun t _ ht => absurd ht (hbw t),
      fun hx => absurd rfl hx, fun t ht => absurd ht (hbw t)⟩

/-! ## Any number of readers and writers -/

/-- A reader that has been woken finds a byte and a writer finds room. -/
structure Resumable (s : State) : Prop where
  reader : ∀ t, (s.pc t).BehindRead → s.state t ≠ .blocked → ¬ s.pipe.fifo.Empty
  writer : ∀ t, (s.pc t).BehindWrite → s.state t ≠ .blocked → ¬ s.pipe.fifo.Full

/-- The pipe loses no byte but the oldest, to a reader. -/
def KeepsBytes (s s' : State) : Prop :=
  contents s' = contents s ∨ (∃ byte, contents s = byte :: contents s') ∨
    ∃ byte, contents s' = contents s ++ [byte]

/-- The step is made, and neither it nor what it leads to goes wrong. -/
def GoesWell (s : State) (e : Event) : Prop :=
  ∃ s', exec s e = .ok s' ∧ Resumable s' ∧ KeepsBytes s s'

theorem PipeInv.resumable (h : PipeInv s) : Resumable s :=
  ⟨h.rx.woken, h.tx.woken⟩

theorem Flow.keepsBytes (h : Flow s s' t) : KeepsBytes s s' := by
  cases h with
  | still pipe => exact Or.inl pipe
  | takes byte pipe => exact Or.inr (Or.inl ⟨byte, pipe⟩)
  | puts byte pipe => exact Or.inr (Or.inr ⟨byte, pipe⟩)

theorem PipeInv.goesWell (h : PipeInv s) (he : Enabled s e) (hc : Considerate s e) :
    GoesWell s e := by
  obtain ⟨s', hx, hinv, hflow⟩ := h.step he hc
  exact ⟨s', hx, PipeInv.resumable hinv, Flow.keepsBytes hflow⟩

/-- A reader that takes the last byte takes it from the one that was woken. -/
theorem PipeInv.readConsiderate (h : PipeInv s) (hpc : s.pc t = .reading count buf false)
    (hr : ∀ r, pipeReadTurn s.pipe t false = .ok r → Resumable (afterRead s t count buf r))
    (hok : ∃ r, pipeReadTurn s.pipe t false = .ok r) :
    if s.pipe.fifo.Empty then s.pipe.rxwaiter = none
    else (∀ u, ¬ (s.pc u).BehindRead) ∨ 2 ≤ s.pipe.fifo.used := by
  by_cases he : s.pipe.fifo.Empty
  · rw [if_pos he]
    obtain ⟨r, hr⟩ := hok
    rw [pipeReadTurn, if_pos ⟨rfl, he⟩] at hr
    obtain ⟨_, hw, -⟩ := bind_eq_ok hr
    exact of_check hw
  · rw [if_neg he]
    by_contra hno
    obtain ⟨hall, htwo⟩ := not_or.mp hno
    obtain ⟨u, hu⟩ := not_forall.mp hall
    have hu := not_not.mp hu
    have hturn : pipeReadTurn s.pipe t false = .ok (.takes
        { s.pipe with fifo := s.pipe.fifo.drop, txwaiter := none }
        (s.pipe.fifo.buf s.pipe.fifo.tail) s.pipe.txwaiter) := by
      rw [pipeReadTurn, if_neg fun hx => he hx.2, fifoGet_ok he]
      rfl
    have hut : u ≠ t := by
      rintro rfl
      exact Bool.false_ne_true ((behindRead_iff hpc).mp hu)
    have hres := (hr _ hturn).reader u
    rw [afterRead, unblock_pc, unblock_pipe] at hres
    refine hres ?_ ?_ ?_
    · show (Function.update s.pc t _ u).BehindRead
      rw [Function.update_of_ne hut]
      exact hu
    · rw [unblock_state]
      split
      · rintro ⟨⟩
      · exact h.rx.ready he hu
    · have hused := congrArg List.length (contents_drop he)
      rw [List.length_cons, length_contents, length_contents] at hused
      refine (empty_iff _).mpr ?_
      show s.pipe.fifo.drop.used = 0
      omega

/-- A writer that fills the pipe takes the room of the one that was woken. -/
theorem PipeInv.writeConsiderate (h : PipeInv s) (hpc : s.pc t = .writing (byte :: buf) false)
    (hr : ∀ r, pipeWriteTurn s.pipe t byte false = .ok r → Resumable (afterWrite s t byte buf r))
    (hok : ∃ r, pipeWriteTurn s.pipe t byte false = .ok r) :
    if s.pipe.fifo.Full then s.pipe.txwaiter = none
    else (∀ u, ¬ (s.pc u).BehindWrite) ∨ s.pipe.fifo.used + 2 < s.pipe.fifo.length := by
  by_cases hf : s.pipe.fifo.Full
  · rw [if_pos hf]
    obtain ⟨r, hr⟩ := hok
    rw [pipeWriteTurn, if_pos ⟨rfl, hf⟩] at hr
    obtain ⟨_, hw, -⟩ := bind_eq_ok hr
    exact of_check hw
  · rw [if_neg hf]
    by_contra hno
    obtain ⟨hall, htwo⟩ := not_or.mp hno
    obtain ⟨u, hu⟩ := not_forall.mp hall
    have hu := not_not.mp hu
    have hturn : pipeWriteTurn s.pipe t byte false = .ok (.puts
        { s.pipe with fifo := s.pipe.fifo.append byte, rxwaiter := none } s.pipe.rxwaiter) := by
      rw [pipeWriteTurn, if_neg fun hx => hf hx.2, fifoPut_ok hf]
      rfl
    have hut : u ≠ t := by
      rintro rfl
      exact Bool.false_ne_true ((behindWrite_iff hpc).mp hu)
    have hres := (hr _ hturn).writer u
    rw [afterWrite, unblock_pc, unblock_pipe] at hres
    refine hres ?_ ?_ ?_
    · show (Function.update s.pc t _ u).BehindWrite
      rw [Function.update_of_ne hut]
      exact hu
    · rw [unblock_state]
      split
      · rintro ⟨⟩
      · exact h.tx.ready hf hu
    · have hused := congrArg List.length (contents_append hf byte)
      rw [List.length_append, length_contents, length_contents, List.length_singleton] at hused
      have hlt := used_lt s.pipe.fifo
      have hroom : s.pipe.fifo.used + 1 ≠ s.pipe.fifo.length := fun hx => hf ((full_iff _).mpr hx)
      refine (full_iff _).mpr ?_
      show (s.pipe.fifo.append byte).used + 1 = s.pipe.fifo.length
      omega

/-- A turn goes well only where it meets the condition. -/
theorem PipeInv.considerate (h : PipeInv s) (hg : GoesWell s e) : Considerate s e := by
  obtain ⟨s', hx, hres, -⟩ := hg
  cases e with
  | read t count => trivial
  | write t buf => trivial
  | turn t =>
      rw [Considerate]
      rw [exec] at hx
      cases hpc : s.pc t with
      | user => trivial
      | reading count buf waited =>
          rw [hpc] at hx
          cases waited with
          | true => trivial
          | false =>
              intro hm
              simp only [hm, or_true, if_true] at hx
              obtain ⟨r, hr, hs'⟩ := bind_eq_ok hx
              refine PipeInv.readConsiderate h hpc (fun r' hr' => ?_) ⟨r, hr⟩
              rw [← Except.ok.inj (hr.symm.trans hr'), Except.ok.inj hs']
              exact hres
      | writing buf waited =>
          rw [hpc] at hx
          cases buf with
          | nil => trivial
          | cons byte buf =>
              cases waited with
              | true => trivial
              | false =>
                  obtain ⟨r, hr, hs'⟩ := bind_eq_ok hx
                  refine PipeInv.writeConsiderate h hpc (fun r' hr' => ?_) ⟨r, hr⟩
                  rw [← Except.ok.inj (hr.symm.trans hr'), Except.ok.inj hs']
                  exact hres

theorem pipeInv_reach (h : Reach system Considerate s) : PipeInv s := by
  refine h.invariant (fun s₀ (h0 : Init s₀) => pipeInv_init h0) fun s₀ e s₁ hs hc hst => ?_
  obtain ⟨s', hx, hinv, -⟩ := hs.step hst.1 hc
  rw [← Except.ok.inj (hx.symm.trans hst.2)]
  exact hinv

/-- In the runs whose turns all meet the condition every woken task finds what
    it waited for, and a turn goes well if and only if it meets the condition. -/
theorem pipe_safe (h : Reach system Considerate s) :
    Resumable s ∧ ∀ e, Enabled s e → (Considerate s e ↔ GoesWell s e) := by
  have hinv := pipeInv_reach h
  refine ⟨PipeInv.resumable hinv, fun e he => ⟨fun hc => ?_, fun hg => ?_⟩⟩
  · exact PipeInv.goesWell hinv he hc
  · exact PipeInv.considerate hinv hg

/-- A pipe as `get_pipe_inode` makes it, with a page for its bytes. -/
def bootState : State where
  pipe := { fifo := fifoInit (fun _ => 0) 4096 (by decide) (by decide)
            rxwaiter := none
            txwaiter := none }
  state := fun _ => .ready
  pc := fun _ => .user
  current := none
  returned := fun _ => []
  stored := []

theorem bootState_init : Init bootState where
  empty := rfl
  length := by decide
  rxwaiter := rfl
  txwaiter := rfl
  state := fun _ => rfl
  pc := fun _ => rfl
  current := rfl
  returned := fun _ => rfl
  stored := rfl

/-- No task that goes on takes the last byte or the last free cell. -/
def RoomyAt (s : State) : Pc → Prop
  | .reading count buf false =>
      (buf.length : Int) < count →
        if s.pipe.fifo.Empty then s.pipe.rxwaiter = none else 2 ≤ s.pipe.fifo.used
  | .writing (_ :: _) false =>
      if s.pipe.fifo.Full then s.pipe.txwaiter = none
      else s.pipe.fifo.used + 2 < s.pipe.fifo.length
  | .user | .reading _ _ true | .writing [] _ | .writing _ true => True

def Roomy (s : State) : Event → Prop
  | .turn t => RoomyAt s (s.pc t)
  | .read _ _ | .write _ _ => True

instance (s : State) : (p : Pc) → Decidable (RoomyAt s p)
  | .reading _ _ false => inferInstanceAs (Decidable (_ → ite _ _ _))
  | .writing (_ :: _) false => inferInstanceAs (Decidable (ite _ _ _))
  | .user | .reading _ _ true | .writing [] _ | .writing (_ :: _) true =>
      inferInstanceAs (Decidable True)

instance (s : State) : (e : Event) → Decidable (Roomy s e)
  | .turn t => inferInstanceAs (Decidable (RoomyAt s (s.pc t)))
  | .read _ _ | .write _ _ => inferInstanceAs (Decidable True)

theorem Roomy.considerate (h : Roomy s e) : Considerate s e := by
  cases e with
  | read t count => trivial
  | write t buf => trivial
  | turn t =>
      change RoomyAt s (s.pc t) at h
      rw [Considerate]
      cases hpc : s.pc t with
      | user => trivial
      | reading count buf waited =>
          rw [hpc] at h
          cases waited with
          | true => trivial
          | false =>
              intro hm
              have hroom := h hm
              split
              · rwa [if_pos ‹_›] at hroom
              · rw [if_neg ‹_›] at hroom
                exact Or.inr hroom
      | writing buf waited =>
          rw [hpc] at h
          cases buf with
          | nil => trivial
          | cons byte buf =>
              cases waited with
              | true => trivial
              | false =>
                  have hroom : ite _ _ _ := h
                  show ite _ _ _
                  split
                  · rwa [if_pos ‹_›] at hroom
                  · rw [if_neg ‹_›] at hroom
                    exact Or.inr hroom

/-- A reader waits and is woken, and the writer goes on before it runs. -/
theorem pipe_safe_woken : ∃ s : State,
    (contents s, s.state 1, s.pc 1) = ([7, 8], .ready, .reading 1 [] true) ∧ Resumable s ∧
      ∀ e, Enabled s e → (Considerate s e ↔ GoesWell s e) := by
  have hrun : (follow Roomy Enabled exec bootState
      [.read 1 1, .turn 1, .write 2 [7, 8], .turn 2, .turn 2, .turn 2]).map
      (fun s => (contents s, s.state 1, s.pc 1)) =
      some ([7, 8], .ready, .reading 1 [] true) := by
    decide
  obtain ⟨s, hs, hobs⟩ := Option.map_eq_some_iff.mp hrun
  have hreach : Reach system Roomy s := Reach.follow _ (.start bootState_init) hs
  exact ⟨s, hobs, pipe_safe (hreach.mono fun _ _ => Roomy.considerate)⟩

/-- Two readers of an empty pipe: the second finds the waiter slot taken. -/
theorem two_readers_stop :
    ¬ ∀ s : State, Reach system free s → ∀ e, Enabled s e → GoesWell s e := by
  intro hall
  have hrun : (follow free Enabled exec bootState [.read 1 1, .turn 1, .read 2 1]).map
      (fun s => (decide (Enabled s (.turn 2)), (exec s (.turn 2)).toOption.isSome)) =
      some (true, false) := by
    decide
  obtain ⟨s, hs, hobs⟩ := Option.map_eq_some_iff.mp hrun
  obtain ⟨hen, hstop⟩ := Prod.mk.inj hobs
  obtain ⟨s', hx, -⟩ := hall s (Reach.follow _ (.start bootState_init) hs) (.turn 2)
    (of_decide_eq_true hen)
  rw [hx] at hstop
  cases hstop

/-! ## One reader and one writer -/

/-- One task reads and one writes. -/
def OneEach (r w : Nat) (_ : State) : Event → Prop
  | .read t _ => t = r
  | .write t _ => t = w
  | .turn _ => True

instance (s : State) : (e : Event) → Decidable (OneEach r w s e)
  | .read _ _ | .write _ _ => inferInstanceAs (Decidable (_ = _))
  | .turn _ => inferInstanceAs (Decidable True)

def Reads : Pc → Prop
  | .reading _ _ _ => True
  | .user | .writing _ _ => False

def Writes : Pc → Prop
  | .writing _ _ => True
  | .user | .reading _ _ _ => False

/-- The pipe is a byte stream from the writer to the reader. -/
structure Stream (r w : Nat) (s : State) : Prop where
  /-- the bytes read and those in the pipe are the bytes written -/
  bytes : got s r ++ contents s = s.stored
  /-- no assertion is in the way, and no byte goes astray -/
  steps : ∀ e, Enabled s e → OneEach r w s e → GoesWell s e
  /-- a woken task finds what it waited for -/
  resumes : Resumable s
  /-- the two are not both blocked -/
  live : ¬ (s.state r = .blocked ∧ s.state w = .blocked)

/-- The tasks are where they belong, and the bytes as they should. -/
structure StreamInv (r w : Nat) (s : State) : Prop where
  pipe : PipeInv s
  reader : ∀ t, Reads (s.pc t) → t = r
  writer : ∀ t, Writes (s.pc t) → t = w
  bytes : got s r ++ contents s = s.stored

theorem behindRead_reads {p : Pc} (h : p.BehindRead) : Reads p := by
  cases p with
  | user => exact h.elim
  | reading count buf waited => trivial
  | writing buf waited => exact h.elim

theorem behindWrite_writes {p : Pc} (h : p.BehindWrite) : Writes p := by
  cases p with
  | user => exact h.elim
  | reading count buf waited => exact h.elim
  | writing buf waited => trivial

/-- Where one task reads and one writes, every turn meets the condition. -/
theorem StreamInv.considerate (h : StreamInv r w s) : Considerate s e := by
  cases e with
  | read t count => trivial
  | write t buf => trivial
  | turn t =>
      rw [Considerate]
      cases hpc : s.pc t with
      | user => trivial
      | reading count buf waited =>
          cases waited with
          | true => trivial
          | false =>
              intro _
              have hnone : ∀ u, ¬ (s.pc u).BehindRead := by
                intro u hu
                have htr := h.reader t (by rw [hpc]; trivial)
                rw [h.reader u (behindRead_reads hu), ← htr, hpc] at hu
                exact hu
              split
              · cases hw : s.pipe.rxwaiter with
                | none => rfl
                | some u => exact absurd ((h.pipe.rx.slot u).mp hw).1 (hnone u)
              · exact Or.inl hnone
      | writing buf waited =>
          cases buf with
          | nil => trivial
          | cons byte buf =>
              cases waited with
              | true => trivial
              | false =>
                  have hnone : ∀ u, ¬ (s.pc u).BehindWrite := by
                    intro u hu
                    have htw := h.writer t (by rw [hpc]; trivial)
                    rw [h.writer u (behindWrite_writes hu), ← htw, hpc] at hu
                    exact hu
                  show ite _ _ _
                  split
                  · cases hw : s.pipe.txwaiter with
                    | none => rfl
                    | some u => exact absurd ((h.pipe.tx.slot u).mp hw).1 (hnone u)
                  · exact Or.inl hnone

/-- A reader that moves stays a reader. -/
theorem afterRead_pc (s : State) (t : Nat) (count : Int) (buf : List Byte) (turn : ReadTurn) :
    ∃ buf' waited', (afterRead s t count buf turn).pc =
      Function.update s.pc t (.reading count buf' waited') := by
  cases turn with
  | waits pipe => exact ⟨buf, true, rfl⟩
  | takes pipe byte woken => exact ⟨buf ++ [byte], false, unblock_pc⟩

/-- A writer that moves stays a writer. -/
theorem afterWrite_pc (s : State) (t : Nat) (byte : Byte) (buf : List Byte) (turn : WriteTurn) :
    ∃ buf' waited', (afterWrite s t byte buf turn).pc =
      Function.update s.pc t (.writing buf' waited') := by
  cases turn with
  | waits pipe => exact ⟨byte :: buf, true, rfl⟩
  | puts pipe woken => exact ⟨buf, false, unblock_pc⟩

/-- Where the task of a step goes: into a call it makes, on in the one it is in,
    or out. -/
theorem exec_pc (hx : exec s e = .ok s') : ∃ p, s'.pc = Function.update s.pc e.task p ∧
    (Reads p → Reads (s.pc e.task) ∨ ∃ count, e = .read e.task count) ∧
    (Writes p → Writes (s.pc e.task) ∨ ∃ buf, e = .write e.task buf) := by
  cases e with
  | read t count =>
      rw [← Except.ok.inj hx]
      exact ⟨_, rfl, fun _ => Or.inr ⟨count, rfl⟩, fun h => h.elim⟩
  | write t buf =>
      rw [← Except.ok.inj hx]
      exact ⟨_, rfl, fun h => h.elim, fun _ => Or.inr ⟨buf, rfl⟩⟩
  | turn t =>
      rw [exec] at hx
      show ∃ p, _ = Function.update s.pc t p ∧ (_ → Reads (s.pc t) ∨ _) ∧ (_ → Writes (s.pc t) ∨ _)
      cases hpc : s.pc t with
      | user =>
          rw [hpc] at hx
          rw [← Except.ok.inj hx]
          refine ⟨.user, ?_, fun h => h.elim, fun h => h.elim⟩
          rw [← hpc, Function.update_eq_self]
      | reading count buf waited =>
          rw [hpc] at hx
          by_cases hm : waited = true ∨ (buf.length : Int) < count
          · simp only [if_pos hm] at hx
            obtain ⟨turn, -, hs'⟩ := bind_eq_ok hx
            obtain ⟨buf', waited', hafter⟩ := afterRead_pc s t count buf turn
            rw [← Except.ok.inj hs']
            exact ⟨_, hafter, fun _ => Or.inl trivial, fun h => h.elim⟩
          · simp only [if_neg hm] at hx
            rw [← Except.ok.inj hx]
            exact ⟨_, rfl, fun h => h.elim, fun h => h.elim⟩
      | writing buf waited =>
          rw [hpc] at hx
          cases buf with
          | nil =>
              rw [← Except.ok.inj hx]
              exact ⟨_, rfl, fun h => h.elim, fun h => h.elim⟩
          | cons byte buf =>
              obtain ⟨turn, -, hs'⟩ := bind_eq_ok hx
              obtain ⟨buf', waited', hafter⟩ := afterWrite_pc s t byte buf turn
              rw [← Except.ok.inj hs']
              exact ⟨_, hafter, fun h => h.elim, fun _ => Or.inl trivial⟩

/-- One step of the two tasks. -/
theorem StreamInv.step (h : StreamInv r w s) (he : Enabled s e) (hg : OneEach r w s e)
    (hx : exec s e = .ok s') : StreamInv r w s' := by
  obtain ⟨s₁, hs₁, hinv, hflow⟩ := h.pipe.step he h.considerate
  obtain rfl := Except.ok.inj (hs₁.symm.trans hx)
  obtain ⟨p, hpc, hreads, hwrites⟩ := exec_pc hx
  refine ⟨hinv, fun t ht => ?_, fun t ht => ?_, ?_⟩
  · rw [hpc] at ht
    by_cases htask : t = e.task
    · rw [htask, Function.update_self] at ht
      rcases hreads ht with hr | ⟨count, hr⟩
      · rw [htask]
        exact h.reader _ hr
      · rw [hr] at hg
        rw [htask]
        exact hg
    · rw [Function.update_of_ne htask] at ht
      exact h.reader t ht
  · rw [hpc] at ht
    by_cases htask : t = e.task
    · rw [htask, Function.update_self] at ht
      rcases hwrites ht with hr | ⟨buf, hr⟩
      · rw [htask]
        exact h.writer _ hr
      · rw [hr] at hg
        rw [htask]
        exact hg
    · rw [Function.update_of_ne htask] at ht
      exact h.writer t ht
  · cases hflow with
    | still pipe stored hgot => rw [pipe, stored, hgot, h.bytes]
    | takes byte pipe stored hgot reads =>
        obtain ⟨count, buf, waited, hread⟩ := reads
        have hr := h.reader e.task (by rw [hread]; trivial)
        rw [hgot, hr, Function.update_self, stored, ← h.bytes, pipe, List.append_assoc]
        rfl
    | puts byte pipe stored hgot => rw [pipe, stored, hgot, ← h.bytes, List.append_assoc]

theorem StreamInv.live (h : StreamInv r w s) (hne : r ≠ w) :
    ¬ (s.state r = .blocked ∧ s.state w = .blocked) := by
  rintro ⟨hr, hw⟩
  have hbr : (s.pc r).BehindRead := by
    by_contra hno
    have hbw : ¬ (s.pc r).BehindWrite := fun hx => hne (h.writer r (behindWrite_writes hx))
    have hready := h.pipe.ready r hno hbw
    rw [hr] at hready
    cases hready
  have hbw : (s.pc w).BehindWrite := by
    by_contra hno
    have hbr : ¬ (s.pc w).BehindRead := fun hx => hne (h.reader w (behindRead_reads hx)).symm
    have hready := h.pipe.ready w hbr hno
    rw [hw] at hready
    cases hready
  -- the reader waits at an empty pipe and the writer at a full one
  have hempty := h.pipe.rx.waits (by rw [(h.pipe.rx.slot r).mpr ⟨hbr, hr⟩]; exact nofun)
  have hfull := h.pipe.tx.waits (by rw [(h.pipe.tx.slot w).mpr ⟨hbw, hw⟩]; exact nofun)
  rw [empty_iff] at hempty
  rw [full_iff, hempty] at hfull
  have hlength := h.pipe.length
  omega

theorem streamInv_init (h : Init s) : StreamInv r w s := by
  refine ⟨pipeInv_init h, fun t ht => ?_, fun t ht => ?_, ?_⟩
  · rw [h.pc] at ht
    exact ht.elim
  · rw [h.pc] at ht
    exact ht.elim
  · rw [got, h.returned, h.pc, contents, h.empty, h.stored]
    rfl

/-- A pipe with one reader and one writer is a byte stream. -/
theorem pipe_stream (hne : r ≠ w) (h : Reach system (OneEach r w) s) : Stream r w s := by
  have hinit : ∀ s, system.init s → StreamInv r w s := fun _ h0 => streamInv_init h0
  have hstep : ∀ s e s', StreamInv r w s → OneEach r w s e → system.step s e s' →
      StreamInv r w s' := fun _ _ _ hs hg hst => hs.step hst.1 hg hst.2
  have hinv := h.invariant hinit hstep
  refine ⟨hinv.bytes, fun e he _ => ?_, PipeInv.resumable hinv.pipe, hinv.live hne⟩
  exact PipeInv.goesWell hinv.pipe he hinv.considerate

/-- Two bytes, one read before the writer returns. -/
theorem pipe_stream_between : ∃ s : State,
    (s.returned 1, contents s, s.stored) = ([7], [8], [7, 8]) ∧ Stream 1 2 s := by
  have hrun : (follow (OneEach 1 2) Enabled exec bootState
      [.read 1 1, .turn 1, .write 2 [7, 8], .turn 2, .turn 2, .turn 2, .turn 1, .turn 1]).map
      (fun s => (s.returned 1, contents s, s.stored)) = some ([7], [8], [7, 8]) := by
    decide
  obtain ⟨s, hs, hobs⟩ := Option.map_eq_some_iff.mp hrun
  exact ⟨s, hobs, pipe_stream (by decide) (Reach.follow _ (.start bootState_init) hs)⟩

end NeonixPipeSafety
