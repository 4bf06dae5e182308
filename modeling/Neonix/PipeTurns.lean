import Neonix.Pipes

/-! # What one turn does to a pipe

    At most one task is behind the test of each side: it waits while the side is
    stuck, or it has been woken and finds what it waited for.  A turn keeps this
    if it finds the waiter slot free where it has to wait, and if it leaves a
    byte, or a free cell, to a task that has been woken and has not run yet. -/

namespace NeonixPipeTurns

open NeonixByteBits NeonixMachine NeonixFifo NeonixRuns NeonixTask NeonixPipes

variable {s s' : State} {t u : Nat} {count : Int} {buf : List Byte} {waited : Bool} {byte : Byte}

/-- The bytes in the pipe. -/
def contents (s : State) : List Byte := s.pipe.fifo.contents

/-- The bytes a task has read, those of the call it is in included. -/
def got (s : State) (t : Nat) : List Byte := s.returned t ++ (s.pc t).buf

structure PipeInv (s : State) : Prop where
  length : 2 ≤ s.pipe.fifo.length
  rx : Side s.pipe.rxwaiter (fun t => (s.pc t).BehindRead) s.state s.pipe.fifo.Empty
  tx : Side s.pipe.txwaiter (fun t => (s.pc t).BehindWrite) s.state s.pipe.fifo.Full
  ready : ∀ t, ¬ (s.pc t).BehindRead → ¬ (s.pc t).BehindWrite → s.state t = .ready

/-- A task at the head of its loop finds the waiter slot free where it has to
    wait, and leaves something to a task that was woken where it does not. -/
def Considerate (s : State) : Event → Prop
  | .read _ _ | .write _ _ => True
  | .turn t =>
      match s.pc t with
      | .reading count buf false =>
          (buf.length : Int) < count →
            if s.pipe.fifo.Empty then s.pipe.rxwaiter = none
            else (∀ u, ¬ (s.pc u).BehindRead) ∨ 2 ≤ s.pipe.fifo.used
      | .writing (_ :: _) false =>
          if s.pipe.fifo.Full then s.pipe.txwaiter = none
          else (∀ u, ¬ (s.pc u).BehindWrite) ∨ s.pipe.fifo.used + 2 < s.pipe.fifo.length
      | .user | .reading _ _ true | .writing [] _ | .writing _ true => True

/-- A step of a task leaves the bytes alone, takes the oldest, or adds one. -/
inductive Flow (s s' : State) (t : Nat) : Prop where
  | still (pipe : contents s' = contents s) (stored : s'.stored = s.stored) (got : got s' = got s)
  | takes (byte : Byte) (pipe : contents s = byte :: contents s') (stored : s'.stored = s.stored)
      (got : got s' = Function.update (got s) t (got s t ++ [byte]))
      (reads : ∃ count buf waited, s.pc t = .reading count buf waited)
  | puts (byte : Byte) (pipe : contents s' = contents s ++ [byte])
      (stored : s'.stored = s.stored ++ [byte]) (got : got s' = got s)

/-! ## Stores -/

section Stores

variable {w : Option Nat}

@[simp] theorem unblock_pc : (s.unblock w).pc = s.pc := by
  cases w with
  | none => rfl
  | some u => rfl

@[simp] theorem unblock_pipe : (s.unblock w).pipe = s.pipe := by
  cases w with
  | none => rfl
  | some u => rfl

@[simp] theorem unblock_returned : (s.unblock w).returned = s.returned := by
  cases w with
  | none => rfl
  | some u => rfl

@[simp] theorem unblock_stored : (s.unblock w).stored = s.stored := by
  cases w with
  | none => rfl
  | some u => rfl

/-- `task_unblock` makes the waiter ready and nobody else. -/
theorem unblock_state (u : Nat) :
    (s.unblock w).state u = if w = some u then .ready else s.state u := by
  cases w with
  | none => rfl
  | some v =>
      show Function.update s.state v .ready u = _
      by_cases hu : u = v
      · rw [hu, Function.update_self, if_pos rfl]
      · rw [Function.update_of_ne hu, if_neg fun hx => hu (Option.some.inj hx).symm]

/-- A task that was ready stays so. -/
theorem unblock_ready (h : s.state u = .ready) : (s.unblock w).state u = .ready := by
  rw [unblock_state, h]
  exact ite_self _

/-- Nobody behind the test of a side is blocked once its waiter is woken. -/
theorem unblock_side {behind : Nat → Prop} {stuck : Prop} (h : Side w behind s.state stuck)
    (hu : behind u) : (s.unblock w).state u ≠ .blocked := by
  rw [unblock_state]
  by_cases hw : w = some u
  · rw [if_pos hw]
    exact nofun
  · rw [if_neg hw]
    exact fun hb => hw ((h.slot u).mpr ⟨hu, hb⟩)

end Stores

theorem behindRead_iff (h : s.pc t = .reading count buf waited) :
    (s.pc t).BehindRead ↔ waited = true := by
  rw [h]
  cases waited with
  | false => exact iff_of_false id Bool.false_ne_true
  | true => exact iff_of_true trivial rfl

theorem behindWrite_iff (h : s.pc t = .writing buf waited) :
    (s.pc t).BehindWrite ↔ waited = true := by
  rw [h]
  cases waited with
  | false => exact iff_of_false id Bool.false_ne_true
  | true => exact iff_of_true trivial rfl

section Moves

variable {P : Pc → Prop} {p : Pc}

/-- Who is behind a test once a task has moved. -/
theorem moved_iff (P : Pc → Prop) (f : Nat → Pc) (t : Nat) (p : Pc) (u : Nat) :
    P (Function.update f t p u) ↔ u = t ∧ P p ∨ u ≠ t ∧ P (f u) := by
  by_cases hu : u = t
  · rw [hu, Function.update_self]
    simp
  · rw [Function.update_of_ne hu]
    simp [hu]

/-- The task that moves is behind the test neither before nor after. -/
theorem moved_out {f : Nat → Pc} (hp : ¬ P p) (hs : ¬ P (f t)) (u : Nat) :
    P (Function.update f t p u) ↔ P (f u) := by
  refine (moved_iff P f t p u).trans ⟨?_, fun hu => ?_⟩
  · rintro (⟨-, hx⟩ | ⟨-, hx⟩)
    · exact absurd hx hp
    · exact hx
  · refine Or.inr ⟨?_, hu⟩
    rintro rfl
    exact hs hu

/-- The task that moves comes out from behind the test. -/
theorem moved_leaves {f : Nat → Pc} (hp : ¬ P p) (u : Nat) :
    P (Function.update f t p u) ↔ P (f u) ∧ u ≠ t := by
  refine (moved_iff P f t p u).trans ⟨?_, fun hu => Or.inr ⟨hu.2, hu.1⟩⟩
  rintro (⟨-, hx⟩ | ⟨hne, hx⟩)
  · exact absurd hx hp
  · exact ⟨hx, hne⟩

/-- The task that moves goes behind the test. -/
theorem moved_enters {f : Nat → Pc} (hp : P p) (u : Nat) :
    P (Function.update f t p u) ↔ P (f u) ∨ u = t := by
  refine (moved_iff P f t p u).trans ⟨?_, fun hx => ?_⟩
  · rintro (⟨hu, -⟩ | ⟨-, hx⟩)
    · exact Or.inr hu
    · exact Or.inl hx
  · by_cases hu : u = t
    · exact Or.inl ⟨hu, hp⟩
    · exact Or.inr ⟨hu, hx.resolve_right hu⟩

/-- A task that is behind no test after a move is ready. -/
theorem PipeInv.ready_moved (h : PipeInv s) (hpc : s'.pc = Function.update s.pc t p)
    (hself : p.BehindRead ∨ p.BehindWrite ∨ s'.state t = .ready)
    (hothers : ∀ u, u ≠ t → s.state u = .ready → s'.state u = .ready) (u : Nat)
    (hr : ¬ (s'.pc u).BehindRead) (hw : ¬ (s'.pc u).BehindWrite) : s'.state u = .ready := by
  by_cases hu : u = t
  · rw [hpc, hu, Function.update_self] at hr hw
    rw [hu]
    exact (hself.resolve_left hr).resolve_left hw
  · rw [hpc, Function.update_of_ne hu] at hr hw
    exact hothers u hu (h.ready u hr hw)

/-- The bytes the tasks have read, once one of them has moved. -/
theorem got_moved (hpc : s'.pc = Function.update s.pc t p) (hret : s'.returned = s.returned) :
    got s' = Function.update (got s) t (s.returned t ++ p.buf) := by
  funext u
  rw [got, hpc, hret]
  by_cases hu : u = t
  · rw [hu, Function.update_self, Function.update_self]
  · rw [Function.update_of_ne hu, Function.update_of_ne hu, got]

/-- A move that keeps the bytes of the call. -/
theorem got_same (hpc : s'.pc = Function.update s.pc t p) (hret : s'.returned = s.returned)
    (hbuf : p.buf = (s.pc t).buf) : got s' = got s := by
  rw [got_moved hpc hret, hbuf]
  exact Function.update_eq_self t (got s)

/-- A call of `pipe_read` returns the bytes it has read. -/
theorem got_return (hpc : s.pc t = .reading count buf waited) :
    got (readReturn s t buf) = got s := by
  funext u
  show Function.update s.returned t (s.returned t ++ buf) u ++
    (Function.update s.pc t .user u).buf = s.returned u ++ (s.pc u).buf
  by_cases hu : u = t
  · rw [hu, Function.update_self, Function.update_self, hpc]
    exact List.append_nil _
  · rw [Function.update_of_ne hu, Function.update_of_ne hu]

/-- A writer behind its test returns. -/
theorem PipeInv.leaves (h : PipeInv s) (hr : ¬ (s.pc t).BehindRead) (hs : s.state t = .ready)
    (hf : ¬ s.pipe.fifo.Full) : PipeInv ({ s with current := none }.setPc t .user) := by
  refine ⟨h.length, ?_, ?_, h.ready_moved rfl (Or.inr (Or.inr hs)) fun _ _ hu => hu⟩
  · exact h.rx.frame (moved_out (P := Pc.BehindRead) id hr) fun _ _ => rfl
  · show Side s.pipe.txwaiter _ _ _
    rw [h.tx.waiter_none hf]
    exact h.tx.pass (fun hx => absurd hx hf) (moved_leaves (P := Pc.BehindWrite) id)
      fun u _ hu => h.tx.ready hf hu

end Moves

/-! ## `pipe_read` -/

/-- A reader finds the pipe empty. -/
theorem PipeInv.readWaits (h : PipeInv s) (hpc : s.pc t = .reading count buf false)
    (he : s.pipe.fifo.Empty) (hw : s.pipe.rxwaiter = none) :
    ∃ r, pipeReadTurn s.pipe t false = .ok r ∧ PipeInv (afterRead s t count buf r) ∧
      Flow s (afterRead s t count buf r) t := by
  have hrx := h.rx
  rw [hw] at hrx
  have hbw : ¬ (s.pc t).BehindWrite := by
    rw [hpc]
    exact id
  refine ⟨_, by rw [pipeReadTurn, if_pos ⟨rfl, he⟩, check_pos hw]; rfl, ?_, ?_⟩
  · refine ⟨h.length, ?_, ?_, h.ready_moved rfl (Or.inl trivial) fun u hu hs =>
      (Function.update_of_ne hu ..).trans hs⟩
    · exact hrx.block he (moved_enters (P := Pc.BehindRead) trivial) (Function.update_self ..)
    · refine h.tx.frame (moved_out (P := Pc.BehindWrite) id hbw) fun u hu => ?_
      refine Function.update_of_ne ?_ ..
      rintro rfl
      exact hbw hu
  · exact .still rfl rfl (got_same rfl rfl (by rw [hpc]; rfl))

/-- A reader takes a byte and wakes the writer that waits. -/
theorem PipeInv.readTakes (h : PipeInv s) (hpc : s.pc t = .reading count buf waited)
    (hs : s.state t = .ready) (he : ¬ s.pipe.fifo.Empty)
    (hleft : s.pipe.fifo.drop.Empty → ∀ u, (s.pc u).BehindRead → u = t) :
    ∃ r, pipeReadTurn s.pipe t waited = .ok r ∧ PipeInv (afterRead s t count buf r) ∧
      Flow s (afterRead s t count buf r) t := by
  have hbytes := contents_drop he
  have hbw : ¬ (s.pc t).BehindWrite := by
    rw [hpc]
    exact id
  have hroom : ¬ s.pipe.fifo.drop.Full := by
    have hlength := congrArg List.length hbytes
    rw [List.length_cons, length_contents, length_contents] at hlength
    have hlt := used_lt s.pipe.fifo
    rw [full_iff]
    show s.pipe.fifo.drop.used + 1 ≠ s.pipe.fifo.length
    omega
  refine ⟨.takes { s.pipe with fifo := s.pipe.fifo.drop, txwaiter := none }
    (s.pipe.fifo.buf s.pipe.fifo.tail) s.pipe.txwaiter, ?_, ?_, ?_⟩
  · rw [pipeReadTurn, if_neg fun hx => he hx.2, fifoGet_ok he]
    rfl
  · have hnone := h.rx.waiter_none he
    refine ⟨?_, ?_, ?_, h.ready_moved unblock_pc (Or.inr (Or.inr ?_)) fun u _ hu =>
      unblock_ready hu⟩
    · rw [afterRead, unblock_pipe]
      exact h.length
    · rw [afterRead, unblock_pipe, unblock_pc]
      show Side s.pipe.rxwaiter _ _ s.pipe.fifo.drop.Empty
      rw [hnone]
      refine h.rx.pass hleft (moved_leaves (P := Pc.BehindRead) id) fun u _ hu => ?_
      rw [unblock_state]
      split
      · exact nofun
      · exact h.rx.ready he hu
    · rw [afterRead, unblock_pipe, unblock_pc]
      exact h.tx.serve hroom (moved_out (P := Pc.BehindWrite) id hbw) fun u hu =>
        unblock_side h.tx hu
    · exact unblock_ready hs
  · refine .takes (s.pipe.fifo.buf s.pipe.fifo.tail) ?_ ?_ ?_ ⟨count, buf, waited, hpc⟩
    · rw [contents, contents, afterRead, unblock_pipe]
      exact hbytes
    · exact unblock_stored
    · refine Eq.trans (got_moved (s := s) (t := t)
        (p := .reading count (buf ++ [s.pipe.fifo.buf s.pipe.fifo.tail]) false)
        unblock_pc unblock_returned) ?_
      rw [got, hpc, List.append_assoc]
      rfl

/-! ## `pipe_write` -/

/-- A writer finds the pipe full. -/
theorem PipeInv.writeWaits (h : PipeInv s) (hpc : s.pc t = .writing (byte :: buf) false)
    (hf : s.pipe.fifo.Full) (hw : s.pipe.txwaiter = none) :
    ∃ r, pipeWriteTurn s.pipe t byte false = .ok r ∧ PipeInv (afterWrite s t byte buf r) ∧
      Flow s (afterWrite s t byte buf r) t := by
  have htx := h.tx
  rw [hw] at htx
  have hbr : ¬ (s.pc t).BehindRead := by
    rw [hpc]
    exact id
  refine ⟨_, by rw [pipeWriteTurn, if_pos ⟨rfl, hf⟩, check_pos hw]; rfl, ?_, ?_⟩
  · refine ⟨h.length, ?_, ?_, h.ready_moved rfl (Or.inr (Or.inl trivial)) fun u hu hs =>
      (Function.update_of_ne hu ..).trans hs⟩
    · refine h.rx.frame (moved_out (P := Pc.BehindRead) id hbr) fun u hu => ?_
      refine Function.update_of_ne ?_ ..
      rintro rfl
      exact hbr hu
    · exact htx.block hf (moved_enters (P := Pc.BehindWrite) trivial) (Function.update_self ..)
  · exact .still rfl rfl (got_same rfl rfl (by rw [hpc]; rfl))

/-- A writer adds a byte and wakes the reader that waits. -/
theorem PipeInv.writePuts (h : PipeInv s) (hpc : s.pc t = .writing (byte :: buf) waited)
    (hs : s.state t = .ready) (hf : ¬ s.pipe.fifo.Full)
    (hleft : (s.pipe.fifo.append byte).Full → ∀ u, (s.pc u).BehindWrite → u = t) :
    ∃ r, pipeWriteTurn s.pipe t byte waited = .ok r ∧ PipeInv (afterWrite s t byte buf r) ∧
      Flow s (afterWrite s t byte buf r) t := by
  have hbytes := contents_append hf byte
  have hbr : ¬ (s.pc t).BehindRead := by
    rw [hpc]
    exact id
  have hfilled : ¬ (s.pipe.fifo.append byte).Empty := by
    rw [← contents_eq_nil, hbytes]
    exact List.append_ne_nil_of_right_ne_nil _ (List.cons_ne_nil _ _)
  refine ⟨.puts { s.pipe with fifo := s.pipe.fifo.append byte, rxwaiter := none }
    s.pipe.rxwaiter, ?_, ?_, ?_⟩
  · rw [pipeWriteTurn, if_neg fun hx => hf hx.2, fifoPut_ok hf]
    rfl
  · have hnone := h.tx.waiter_none hf
    refine ⟨?_, ?_, ?_, h.ready_moved unblock_pc (Or.inr (Or.inr ?_)) fun u _ hu =>
      unblock_ready hu⟩
    · rw [afterWrite, unblock_pipe]
      exact h.length
    · rw [afterWrite, unblock_pipe, unblock_pc]
      exact h.rx.serve hfilled (moved_out (P := Pc.BehindRead) id hbr) fun u hu =>
        unblock_side h.rx hu
    · rw [afterWrite, unblock_pipe, unblock_pc]
      show Side s.pipe.txwaiter _ _ (s.pipe.fifo.append byte).Full
      rw [hnone]
      refine h.tx.pass hleft (moved_leaves (P := Pc.BehindWrite) id) fun u _ hu => ?_
      rw [unblock_state]
      split
      · exact nofun
      · exact h.tx.ready hf hu
    · exact unblock_ready hs
  · refine .puts byte ?_ ?_ ?_
    · rw [contents, contents, afterWrite, unblock_pipe]
      exact hbytes
    · exact unblock_stored
    · exact got_same unblock_pc unblock_returned (by rw [hpc]; rfl)

/-! ## Every step -/

/-- A step that moves a task between places in front of the tests. -/
theorem PipeInv.inFront (h : PipeInv s) {p : Pc} (hpipe : s'.pipe = s.pipe)
    (hstate : s'.state = s.state) (hpc : s'.pc = Function.update s.pc t p)
    (hr : ¬ (s.pc t).BehindRead) (hw : ¬ (s.pc t).BehindWrite) (hr' : ¬ p.BehindRead)
    (hw' : ¬ p.BehindWrite) : PipeInv s' := by
  refine ⟨by rw [hpipe]; exact h.length, ?_, ?_, h.ready_moved hpc (Or.inr (Or.inr ?_)) ?_⟩
  · rw [hpipe, hpc, hstate]
    exact h.rx.frame (moved_out (P := Pc.BehindRead) hr' hr) fun _ _ => rfl
  · rw [hpipe, hpc, hstate]
    exact h.tx.frame (moved_out (P := Pc.BehindWrite) hw' hw) fun _ _ => rfl
  · rw [hstate]
    exact h.ready t hr hw
  · intro u _ hu
    rw [hstate]
    exact hu

/-- A step that meets the condition is made, keeps the invariant and lets no byte
    go astray. -/
theorem PipeInv.step {e : Event} (h : PipeInv s) (he : Enabled s e) (hc : Considerate s e) :
    ∃ s', exec s e = .ok s' ∧ PipeInv s' ∧ Flow s s' e.task := by
  have huser : ∀ t, s.pc t = .user → ¬ (s.pc t).BehindRead ∧ ¬ (s.pc t).BehindWrite := by
    intro t ht
    rw [ht]
    exact ⟨id, id⟩
  cases e with
  | read t count =>
      obtain ⟨hr, hw⟩ := huser t he.1
      refine ⟨_, rfl, h.inFront rfl rfl rfl hr hw id id, .still rfl rfl (got_same rfl rfl ?_)⟩
      rw [he.1]
      rfl
  | write t buf =>
      obtain ⟨hr, hw⟩ := huser t he.1
      refine ⟨_, rfl, h.inFront rfl rfl rfl hr hw id id, .still rfl rfl (got_same rfl rfl ?_)⟩
      rw [he.1]
      rfl
  | turn t =>
      obtain ⟨hne, hs, -⟩ := he
      rw [exec]
      rw [Considerate] at hc
      cases hpc : s.pc t with
      | user => exact absurd hpc hne
      | reading count buf waited =>
          rw [hpc] at hc
          have hmore : waited = true ∨ (buf.length : Int) < count →
              ∃ r, pipeReadTurn s.pipe t waited = .ok r ∧ PipeInv (afterRead s t count buf r) ∧
                Flow s (afterRead s t count buf r) t := by
            intro hm
            cases waited with
            | true =>
                have hb : (s.pc t).BehindRead := (behindRead_iff hpc).mpr rfl
                have he := h.rx.woken t hb (by rw [hs]; rintro ⟨⟩)
                exact h.readTakes hpc hs he fun _ u hu => h.rx.single u t hu hb
            | false =>
                have hc := hc (hm.resolve_left Bool.false_ne_true)
                by_cases he : s.pipe.fifo.Empty
                · rw [if_pos he] at hc
                  exact h.readWaits hpc he hc
                · rw [if_neg he] at hc
                  refine h.readTakes hpc hs he fun hd u hu => ?_
                  have hused := congrArg List.length (contents_drop he)
                  rw [List.length_cons, length_contents, length_contents,
                    (empty_iff _).mp hd] at hused
                  rcases hc with hnone | htwo
                  · exact absurd hu (hnone u)
                  · omega
          by_cases hm : waited = true ∨ (buf.length : Int) < count
          · obtain ⟨r, hr, hinv, hflow⟩ := hmore hm
            exact ⟨_, by simp only [if_pos hm, hr, bind_ok, pure_eq_ok], hinv, hflow⟩
          · have hfront : waited = false := by
              cases waited with
              | true => exact absurd (Or.inl rfl) hm
              | false => rfl
            have hr : ¬ (s.pc t).BehindRead := by
              rw [behindRead_iff hpc, hfront]
              exact Bool.false_ne_true
            have hw : ¬ (s.pc t).BehindWrite := by
              rw [hpc]
              exact id
            exact ⟨_, if_neg hm, h.inFront rfl rfl rfl hr hw id id, .still rfl rfl (got_return hpc)⟩
      | writing buf waited =>
          rw [hpc] at hc
          have hr : ¬ (s.pc t).BehindRead := by
            rw [hpc]
            exact id
          cases buf with
          | nil =>
              refine ⟨_, rfl, ?_, .still rfl rfl (got_same rfl rfl (by rw [hpc]; rfl))⟩
              by_cases hw : (s.pc t).BehindWrite
              · have hf := h.tx.woken t hw (by rw [hs]; rintro ⟨⟩)
                exact h.leaves hr hs hf
              · exact h.inFront rfl rfl rfl hr hw id id
          | cons byte buf =>
              have hmore : ∃ r, pipeWriteTurn s.pipe t byte waited = .ok r ∧
                  PipeInv (afterWrite s t byte buf r) ∧ Flow s (afterWrite s t byte buf r) t := by
                cases waited with
                | true =>
                    have hb : (s.pc t).BehindWrite := (behindWrite_iff hpc).mpr rfl
                    have hf := h.tx.woken t hb (by rw [hs]; rintro ⟨⟩)
                    exact h.writePuts hpc hs hf fun _ u hu => h.tx.single u t hu hb
                | false =>
                    by_cases hf : s.pipe.fifo.Full
                    · exact h.writeWaits hpc hf (by simpa only [if_pos hf] using hc)
                    · refine h.writePuts hpc hs hf fun hd u hu => ?_
                      have hused := congrArg List.length (contents_append hf byte)
                      rw [List.length_append, length_contents, length_contents,
                        List.length_singleton] at hused
                      have hfull := (full_iff _).mp hd
                      rw [hused] at hfull
                      have hc : (∀ u, ¬ (s.pc u).BehindWrite) ∨
                          s.pipe.fifo.used + 2 < s.pipe.fifo.length := by
                        simpa only [if_neg hf] using hc
                      rcases hc with hnone | htwo
                      · exact absurd hu (hnone u)
                      · exact absurd htwo (by
                          show ¬ _ < (s.pipe.fifo.append byte).length
                          omega)
              obtain ⟨r, hr, hinv, hflow⟩ := hmore
              exact ⟨_, by simp only [hr, bind_ok, pure_eq_ok], hinv, hflow⟩

end NeonixPipeTurns
