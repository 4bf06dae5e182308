import Neonix.Signals

/-! # A delivery and the return from its handler

    `task_signal` writes the frame in C, `restorer` reads it in assembly.
    Between the two the handler does what it likes as long as it returns with
    the frame as it was. -/

namespace NeonixSignalFrames

open NeonixMachine NeonixWordMemory NeonixSignals
open NeonixTask (sigmask MAXSIG)

/-- The handler returned into the restorer: its return address is popped, and
    the frame behind the signal is what `task_signal` wrote.  User code cannot
    change the privileged flags. -/
structure HandlerReturns (framed back : Task) : Prop where
  esp : back.iframe.esp = framed.iframe.esp + 4
  frame : ∀ o ∈ [8, 12, 16, 20, 24, 28],
    load back.memory (framed.iframe.esp + o) = load framed.memory (framed.iframe.esp + o)
  eflags : back.iframe.eflags &&& PRIVILEGED = framed.iframe.eflags &&& PRIVILEGED

/-- The handler ran under the old mask and that of its action, and the task goes
    on with its old registers and its old mask. -/
structure Transparent (task framed after : Task) (action : Sigaction) : Prop where
  handler : framed.blocked = task.blocked ||| action.mask
  iframe : after.iframe = task.iframe
  blocked : after.blocked = task.blocked

/-- An action that `sys_signal` or `sys_sigaction` registers for a signal. -/
def Registered (sig : Nat) (action : Sigaction) : Prop :=
  (∃ handler restorer, action = signalAction handler restorer) ∨ ∃ a, action = normalAction sig a

/-- The mask comes back: the frame has it and it is without `SIGKILL`, or the
    frame has none and the handler has put the old one back. -/
def MaskReturns (task back : Task) (action : Sigaction) : Prop :=
  if action.flags &&& SIG_NOMASK ≠ 0 then task.blocked &&& sigmask SIGKILL = 0
  else back.blocked = task.blocked

/-! ## The frame -/

variable {task framed back : Task} {sig : Nat} {action : Sigaction} {frame : BitVec 32}

/-- What `restorer` finds in the frame. -/
structure FrameOf (task : Task) (action : Sigaction) (m : Memory) (frame : BitVec 32) : Prop where
  blocked : load m (frame + 8) = if action.flags &&& SIG_NOMASK ≠ 0 then task.blocked else EOF
  eax : load m (frame + 12) = task.iframe.eax
  ecx : load m (frame + 16) = task.iframe.ecx
  edx : load m (frame + 20) = task.iframe.edx
  eflags : load m (frame + 24) = task.iframe.eflags
  eip : load m (frame + 28) = task.iframe.eip

/-- The second store to `frame->blocked` leaves the other fields. -/
theorem load_maskStore {p : Prop} [Decidable p] {m : Memory} {v o : BitVec 32} (h : Apart 8 o) :
    load (if p then store m (frame + 8) v else m) (frame + o) = load m (frame + o) := by
  by_cases hp : p
  · rw [if_pos hp, load_store_apart h]
  · rw [if_neg hp]

theorem storeFrame_frame : FrameOf task action (storeFrame task sig action frame) frame := by
  rw [storeFrame]
  constructor
  · rw [load_store_apart (by decide), load_store_apart (by decide)]
    by_cases hn : action.flags &&& SIG_NOMASK ≠ 0
    · rw [if_pos hn, if_pos hn, load_store]
    · rw [if_neg hn, if_neg hn, load_store]
  · simp (disch := decide) only [load_store_apart, load_maskStore, load_store]
  · simp (disch := decide) only [load_store_apart, load_maskStore, load_store]
  · simp (disch := decide) only [load_store_apart, load_maskStore, load_store]
  · simp (disch := decide) only [load_store_apart, load_maskStore, load_store]
  · simp (disch := decide) only [load_store_apart, load_maskStore, load_store]

/-- The task that runs its handler has the frame where its `esp` points. -/
theorem handler_frame (hh : Handles task sig) (hx : taskSignal task = .ok (.returns framed)) :
    framed = enterHandler { task with signal := task.signal &&& ~~~ sigmask sig } sig
      (task.actions (sig - 1)) := by
  rcases taskSignal_cases hx with ⟨hmap, -⟩ | ⟨sig', hsig, hcase⟩
  · have hnone := hh.1
    rw [hmap, lowest_zero] at hnone
    cases hnone
  · obtain rfl := Option.some.inj (hh.1.symm.trans hsig)
    rcases hcase with ⟨hn, -⟩ | ⟨-, hd⟩
    · exact absurd hh hn
    · exact (Delivered.returns.inj hd)

/-! ## The way back -/

/-- `popf` of flags whose privileged ones are the current ones. -/
theorem popf_eq {cur saved : BitVec 32} (h : cur &&& PRIVILEGED = saved &&& PRIVILEGED) :
    popf cur saved = saved := by
  rw [popf, h, ← BitVec.and_or_distrib_left, BitVec.not_or_self, BitVec.and_allOnes]

/-- The frame is still there when the handler returns. -/
theorem HandlerReturns.frameOf (hr : HandlerReturns framed back)
    (hf : FrameOf task action framed.memory framed.iframe.esp) :
    FrameOf task action back.memory framed.iframe.esp where
  blocked := (hr.frame 8 (by decide)).trans hf.blocked
  eax := (hr.frame 12 (by decide)).trans hf.eax
  ecx := (hr.frame 16 (by decide)).trans hf.ecx
  edx := (hr.frame 20 (by decide)).trans hf.edx
  eflags := (hr.frame 24 (by decide)).trans hf.eflags
  eip := (hr.frame 28 (by decide)).trans hf.eip

/-- `sys_ssetmask` changes no register. -/
theorem sysSsetmask_iframe {newmask : BitVec 32} :
    (sysSsetmask task newmask).1.iframe = task.iframe := by
  rw [sysSsetmask]
  by_cases hm : newmask = EOF
  · rw [if_pos hm]
  · rw [if_neg hm]

/-- `restorer` loads the registers `task_signal` stored. -/
theorem restorer_iframe (hf : FrameOf task action back.memory frame)
    (hframe : frame = task.iframe.esp - 32) (hesp : back.iframe.esp = frame + 4)
    (hflags : back.iframe.eflags &&& PRIVILEGED = task.iframe.eflags &&& PRIVILEGED) :
    (restorer back).iframe = task.iframe := by
  have hmask : back.iframe.esp + 4 = frame + 8 := by
    rw [hesp, add_assoc]
    rfl
  have hregs : back.iframe.esp + 4 + 4 = frame + 12 := by
    rw [hmask, add_assoc]
    rfl
  have hoff : ∀ o : BitVec 32, frame + 12 + o = frame + (12 + o) := fun o => add_assoc ..
  have hend : frame + 12 + 20 = task.iframe.esp := by
    rw [hoff, hframe]
    exact sub_add_cancel ..
  rw [restorer]
  dsimp only
  rw [hregs, hend, hf.eax, hoff, hoff, hoff, hoff, sysSsetmask_iframe]
  show IntrFrame.mk task.iframe.eax (load back.memory (frame + 16)) (load back.memory (frame + 20))
    (load back.memory (frame + 28)) (popf back.iframe.eflags (load back.memory (frame + 24)))
    task.iframe.esp = task.iframe
  rw [hf.ecx, hf.edx, hf.eip, hf.eflags, popf_eq hflags]

/-- The mask after `restorer`: what the frame holds, without `SIGKILL`, or the
    mask the handler left. -/
theorem restorer_blocked (hf : FrameOf task action back.memory frame)
    (hesp : back.iframe.esp = frame + 4) (hfree : task.blocked ≠ EOF) :
    (restorer back).blocked = if action.flags &&& SIG_NOMASK ≠ 0 then
      task.blocked &&& ~~~ sigmask SIGKILL else back.blocked := by
  have hmask : load back.memory (back.iframe.esp + 4) =
      if action.flags &&& SIG_NOMASK ≠ 0 then task.blocked else EOF := by
    rw [hesp, add_assoc]
    exact hf.blocked
  show (sysSsetmask back (load back.memory (back.iframe.esp + 4))).1.blocked = _
  rw [hmask, sysSsetmask]
  by_cases hn : action.flags &&& SIG_NOMASK ≠ 0
  · rw [if_pos hn, if_pos hn, if_neg hfree]
  · rw [if_neg hn, if_neg hn, if_pos rfl]

/-- A mask that misses a signal is not `EOF`. -/
theorem ne_eof (h : lowest task.map = some sig) : task.blocked ≠ EOF := by
  obtain ⟨h1, hmax, -, hfree⟩ := lowest_spec h
  intro hx
  rw [hx] at hfree
  have hall : ∀ k < 32, EOF.getLsbD k = true := by decide
  have hle : MAXSIG = 31 := rfl
  rw [hall (sig - 1) (by omega)] at hfree
  cases hfree

/-- Taking bits out of a mask changes nothing where it has none of them. -/
theorem and_not_eq_self {x y : BitVec 32} : x &&& ~~~ y = x ↔ x &&& y = 0#32 := by
  constructor
  · intro h
    have hnone : y &&& ~~~ y = 0#32 := BitVec.and_not_self y
    calc x &&& y = x &&& ~~~ y &&& y := by rw [h]
      _ = x &&& (y &&& ~~~ y) := by rw [BitVec.and_assoc, BitVec.and_comm (~~~ y) y]
      _ = 0#32 := by rw [hnone, BitVec.and_zero]
  · intro h
    calc x &&& ~~~ y = (x &&& ~~~ y) ||| (x &&& y) := by rw [h, BitVec.or_zero]
      _ = x &&& (~~~ y ||| y) := BitVec.and_or_distrib_left.symm
      _ = x := by rw [BitVec.not_or_self, BitVec.and_allOnes]

/-- Delivery and return are transparent exactly where the mask comes back; the
    registers always do. -/
theorem delivery_transparent (hh : Handles task sig)
    (hx : taskSignal task = .ok (.returns framed)) (hr : HandlerReturns framed back) :
    Transparent task framed (restorer back) (task.actions (sig - 1)) ↔
      MaskReturns task back (task.actions (sig - 1)) := by
  have hframed := handler_frame hh hx
  have hf : FrameOf task (task.actions (sig - 1)) framed.memory framed.iframe.esp := by
    have hstored : FrameOf { task with signal := task.signal &&& ~~~ sigmask sig }
        (task.actions (sig - 1)) (storeFrame { task with signal := task.signal &&& ~~~ sigmask sig }
          sig (task.actions (sig - 1)) (task.iframe.esp - 32)) (task.iframe.esp - 32) :=
      storeFrame_frame
    obtain ⟨hb, ha, hc, hd, hfl, hi⟩ := hstored
    rw [hframed]
    exact ⟨hb, ha, hc, hd, hfl, hi⟩
  have hback := hr.frameOf hf
  have hblocked := restorer_blocked hback hr.esp (ne_eof hh.1)
  have hregs := restorer_iframe hback (by rw [hframed]; rfl) hr.esp
    (hr.eflags.trans (by rw [hframed]; rfl))
  have hmask : framed.blocked = task.blocked ||| (task.actions (sig - 1)).mask := by
    rw [hframed]
    rfl
  have hback : (restorer back).blocked = task.blocked ↔
      MaskReturns task back (task.actions (sig - 1)) := by
    rw [hblocked, MaskReturns]
    by_cases hn : (task.actions (sig - 1)).flags &&& SIG_NOMASK ≠ 0
    · rw [if_pos hn, if_pos hn, and_not_eq_self]
      rfl
    · rw [if_neg hn, if_neg hn]
  constructor
  · intro h
    exact hback.mp h.blocked
  · intro h
    exact ⟨hmask, hregs, hback.mpr h⟩

/-- An action of `sys_sigaction` that may not be interrupted by its own signal
    blocks it, and nothing takes it out again. -/
theorem sigaction_stays_blocked {a : Sigaction} (hh : Handles task sig)
    (hx : taskSignal task = .ok (.returns framed)) (hr : HandlerReturns framed back)
    (ha : task.actions (sig - 1) = normalAction sig a) (hn : a.flags &&& SIG_NOMASK = 0)
    (hleft : back.blocked = framed.blocked) :
    ¬ Transparent task framed (restorer back) (task.actions (sig - 1)) := by
  obtain ⟨h1, hmax, -, hfree⟩ := lowest_spec hh.1
  have haction : task.actions (sig - 1) = { a with mask := a.mask ||| sigmask sig } := by
    rw [ha, normalAction, if_neg (not_not_intro hn)]
  intro ht
  have hmask := (delivery_transparent hh hx hr).mp ht
  rw [MaskReturns, haction, if_neg (not_not_intro hn), hleft, ht.handler, haction] at hmask
  have hbit := congrArg (fun x => x.getLsbD (sig - 1)) hmask
  have hle : MAXSIG = 31 := rfl
  simp only [BitVec.getLsbD_or, sigmask_bit (show sig - 1 < 32 by omega), decide_true,
    Bool.or_true, hfree, Bool.true_eq_false] at hbit

/-! ## Two deliveries -/

/-- A task with an action for `SIGUSR1`, which is pending. -/
def userTask (action : Sigaction) : Task where
  uid := 1000
  pid := 3
  died := false
  signal := sigmask 10
  blocked := 0
  actions _ := action
  iframe := { eax := 1, ecx := 2, edx := 3, eip := 0x1000, eflags := 0x202, esp := 0x8000 }
  memory _ := 0

/-- The task in its handler, and when the handler returned without doing
    anything. -/
def inHandler (action : Sigaction) : Task :=
  enterHandler { userTask action with signal := 0 } 10 action

def handlerBack (action : Sigaction) : Task :=
  { inHandler action with
    iframe := { (inHandler action).iframe with esp := (inHandler action).iframe.esp + 4 } }

theorem handlerBack_returns (action : Sigaction) :
    HandlerReturns (inHandler action) (handlerBack action) := ⟨rfl, fun _ _ => rfl, rfl⟩

theorem delivery_transparent_signal :
    MaskReturns (userTask (signalAction 0x2000 0x3000)) (handlerBack (signalAction 0x2000 0x3000))
      (signalAction 0x2000 0x3000) ∧
    Transparent (userTask (signalAction 0x2000 0x3000)) (inHandler (signalAction 0x2000 0x3000))
      (restorer (handlerBack (signalAction 0x2000 0x3000))) (signalAction 0x2000 0x3000) := by
  have hmask : MaskReturns (userTask (signalAction 0x2000 0x3000))
      (handlerBack (signalAction 0x2000 0x3000)) (signalAction 0x2000 0x3000) := by
    rw [MaskReturns, if_pos (by decide)]
    decide
  have hsignal : taskSignal (userTask (signalAction 0x2000 0x3000)) =
      .ok (.returns (inHandler (signalAction 0x2000 0x3000))) := rfl
  exact ⟨hmask, (delivery_transparent (show Handles _ 10 by decide) hsignal (handlerBack_returns _)).mpr hmask⟩

/-- `sigaction(SIGUSR1, &action, NULL)` without flags. -/
def plainAction : Sigaction :=
  normalAction 10 { handler := 0x2000, mask := 0, flags := 0, restorer := 0x3000 }

theorem mask_stays : ¬ ∀ (task framed back : Task) (sig : Nat),
    Registered sig (task.actions (sig - 1)) → Handles task sig →
    taskSignal task = .ok (.returns framed) → HandlerReturns framed back →
    Transparent task framed (restorer back) (task.actions (sig - 1)) := by
  intro h
  have hsignal : taskSignal (userTask plainAction) = .ok (.returns (inHandler plainAction)) := rfl
  have ht := h (userTask plainAction) (inHandler plainAction) (handlerBack plainAction) 10
    (Or.inr ⟨{ handler := 0x2000, mask := 0, flags := 0, restorer := 0x3000 }, rfl⟩) (by decide)
    hsignal (handlerBack_returns _)
  have hmask := ht.blocked
  revert hmask
  decide

end NeonixSignalFrames
