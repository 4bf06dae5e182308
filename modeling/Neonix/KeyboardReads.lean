import Neonix.Keyboard

/-! # The keyboard and the tasks that read from it

    The interrupts of the keyboard and the calls of `keyboard_read` of any number
    of tasks.  The system refines the one of `CharacterInput`: an interrupt that
    types nothing is no step there.  `codes` are the bytes the keyboard has sent. -/

namespace NeonixKeyboardReads

open NeonixByteBits NeonixMachine NeonixRuns NeonixKeyboard
open NeonixCharacterInput (Answer arrive arrived_eq reach_inv idleState idleState_init)

def BUFFER_SIZE : Nat := 64

/-- The byte `fifo_put` stores. -/
def byteOf (ch : Char) : Byte := BitVec.ofNat 8 ch.toNat

structure State where
  keys : Keyboard
  line : NeonixCharacterInput.State
  codes : List Byte

/-- `keyboard_init`. -/
def keyboardInit : Keyboard where
  pressed := fun _ _ => false
  capslock_state := false
  scrlock_state := false
  numlock_state := false
  extcode_state := false

inductive Event where
  | scan (data : Byte)
  | read (t count : Nat)
  /-- the task goes on from where it stands -/
  | resume (t : Nat)

/-- The end of `keyboard_handler`. -/
def put (line : NeonixCharacterInput.State) : Option Char → Res NeonixCharacterInput.State
  | none => .ok line
  | some ch => arrive line (byteOf ch)

def exec (s : State) : Event → Res State
  | .scan data => do
      let after := keyboardHandler s.keys data
      let line ← put s.line after.2.put
      return { keys := after.1, line := line, codes := s.codes ++ [data] }
  | .read t count => do
      let line ← NeonixCharacterInput.exec false s.line (.read t count)
      return { s with line := line }
  | .resume t => do
      let line ← NeonixCharacterInput.exec false s.line (.resume t)
      return { s with line := line }

def Enabled (s : State) : Event → Prop
  | .scan _ => True
  | .read t count => NeonixCharacterInput.Enabled s.line (.read t count)
  | .resume t => NeonixCharacterInput.Enabled s.line (.resume t)

instance (s : State) : (e : Event) → Decidable (Enabled s e)
  | .scan _ => inferInstanceAs (Decidable True)
  | .read t count => inferInstanceAs (Decidable (NeonixCharacterInput.Enabled s.line (.read t count)))
  | .resume t => inferInstanceAs (Decidable (NeonixCharacterInput.Enabled s.line (.resume t)))

structure Init (s : State) : Prop where
  keys : s.keys = keyboardInit
  line : NeonixCharacterInput.Init BUFFER_SIZE s.line
  codes : s.codes = []

def system : System State Event := execSystem Init Enabled exec

/-- No character is typed while the queue is full. -/
def InTime (s : State) : Event → Prop
  | .scan data => (keyboardHandler s.keys data).2.put ≠ none → ¬ s.line.fifo.Full
  | .read _ _ | .resume _ => True

instance (s : State) : (e : Event) → Decidable (InTime s e)
  | .scan _ => inferInstanceAs (Decidable (_ → _))
  | .read _ _ | .resume _ => inferInstanceAs (Decidable True)

variable {s s' : State} {data : Byte}

/-- The queue of the keyboard is one of `CharacterInput`. -/
theorem reach_line (h : Reach system InTime s) :
    Reach (NeonixCharacterInput.system false BUFFER_SIZE) NeonixCharacterInput.InTime s.line := by
  have hstep : ∀ (m : State) (e : Event) (n : State),
      Reach (NeonixCharacterInput.system false BUFFER_SIZE) NeonixCharacterInput.InTime m.line →
      InTime m e → system.step m e n →
      Reach (NeonixCharacterInput.system false BUFFER_SIZE) NeonixCharacterInput.InTime n.line := by
    rintro m e n hm hg ⟨henabled, hn⟩
    cases e with
    | scan data =>
        obtain ⟨line, hput, hn⟩ := bind_eq_ok hn
        rw [← Except.ok.inj hn]
        cases hout : (keyboardHandler m.keys data).2.put with
        | none =>
            rw [hout] at hput
            rw [← Except.ok.inj hput]
            exact hm
        | some ch =>
            rw [hout] at hput
            have hroom : ¬ m.line.fifo.Full := hg fun hnone => by cases hout.symm.trans hnone
            exact hm.step (e := .arrive (byteOf ch)) hroom ⟨trivial, hput⟩
    | read t count =>
        obtain ⟨line, hline, hn⟩ := bind_eq_ok hn
        rw [← Except.ok.inj hn]
        exact hm.step (e := .read t count) trivial ⟨henabled, hline⟩
    | resume t =>
        obtain ⟨line, hline, hn⟩ := bind_eq_ok hn
        rw [← Except.ok.inj hn]
        exact hm.step (e := .resume t) trivial ⟨henabled, hline⟩
  exact h.invariant (fun m h0 => .start h0.line) hstep

/-- What the bytes of the keyboard have done. -/
structure Scanned (s : State) : Prop where
  keys : s.keys = (scan keyboardInit s.codes).1
  arrived : s.line.arrived = (scan keyboardInit s.codes).2.map byteOf

theorem scan_one (k : Keyboard) (data : Byte) :
    scan k [data] = ((keyboardHandler k data).1, (keyboardHandler k data).2.put.toList) := by
  show (_, _ ++ []) = _
  rw [List.append_nil]
  rfl

theorem put_arrived {line line' : NeonixCharacterInput.State} {ch : Option Char}
    (h : put line ch = .ok line') : line'.arrived = line.arrived ++ ch.toList.map byteOf := by
  cases ch with
  | none =>
      rw [← Except.ok.inj h]
      exact (List.append_nil _).symm
  | some ch =>
      obtain ⟨fifo, -, h⟩ := bind_eq_ok h
      dsimp only at h
      split at h
      · rw [← Except.ok.inj h]
        rfl
      · rw [← Except.ok.inj h]
        rfl

theorem scanned_reach {guard : State → Event → Prop} (h : Reach system guard s) : Scanned s := by
  have hstep : ∀ (m : State) (e : Event) (n : State), Scanned m → guard m e → system.step m e n →
      Scanned n := by
    rintro m e n hm - ⟨-, hn⟩
    cases e with
    | scan data =>
        obtain ⟨line, hput, hn⟩ := bind_eq_ok hn
        rw [← Except.ok.inj hn]
        refine ⟨?_, ?_⟩
        · show (keyboardHandler m.keys data).1 = (scan keyboardInit (m.codes ++ [data])).1
          rw [scan_append, ← hm.keys, scan_one]
        · show line.arrived = (scan keyboardInit (m.codes ++ [data])).2.map byteOf
          rw [put_arrived hput, scan_append, ← hm.keys, scan_one, List.map_append, ← hm.arrived]
    | read t count =>
        obtain ⟨line, hline, hn⟩ := bind_eq_ok hn
        rw [← Except.ok.inj hn]
        obtain ⟨r, -, hline⟩ := bind_eq_ok hline
        exact ⟨hm.keys, (NeonixCharacterInput.moves_readLocked hline).arrived.trans hm.arrived⟩
    | resume t =>
        obtain ⟨line, hline, hn⟩ := bind_eq_ok hn
        rw [← Except.ok.inj hn]
        exact ⟨hm.keys, (NeonixCharacterInput.moves_resume hline).arrived.trans hm.arrived⟩
  refine h.invariant (fun m h0 => ⟨?_, ?_⟩) hstep
  · rw [h0.codes]
    exact h0.keys
  · rw [h0.codes]
    exact h0.line.arrived

theorem calm_keyboardInit : Calm false false keyboardInit := ⟨rfl, rfl, rfl, rfl, rfl⟩

/-- **WHAT IS TYPED IS READ**: once the keyboard has sent the bytes of a text, never typing into
    a full queue, the calls of its readers, one after the other, then the call that is not
    through, then the queue hold the text, whatever tasks have read how much of it when. -/
theorem typed_text_read (h : Reach system InTime s) {text : List Char}
    (ht : ∀ c ∈ text, OnKeyboard c) (hcodes : s.codes = typeText false text) :
    ∃ rest, text.map byteOf =
        s.line.answers.flatMap Answer.bytes ++ rest ++ s.line.fifo.contents ∧
      (rest = [] ∨ ∃ t count, s.line.pc t = .reading count rest) ∧
      ∀ a ∈ s.line.answers, a.bytes.length = a.count := by
  have hline := reach_line h
  have hroom : 2 ≤ BUFFER_SIZE := by decide
  have hserved := (reach_inv hroom (hline.mono fun _ _ _ => trivial)).served
  obtain ⟨rest, htaken, hrest⟩ := hserved.serial
  obtain ⟨htext, -⟩ := scan_typeText calm_keyboardInit ht
  refine ⟨rest, ?_, hrest, hserved.counts⟩
  rw [← htaken, ← arrived_eq hline, (scanned_reach h).arrived, hcodes, htext]

theorem bufferSize_pos : 0 < BUFFER_SIZE := Nat.succ_pos 63

theorem bufferSize_lt : BUFFER_SIZE < 2 ^ 32 := by decide

def bootState : State where
  keys := keyboardInit
  line := idleState BUFFER_SIZE bufferSize_pos bufferSize_lt
  codes := []

theorem bootState_init : Init bootState :=
  ⟨rfl, idleState_init bufferSize_pos bufferSize_lt, rfl⟩

/-- A text is read by two tasks while it is being typed. -/
theorem typed_text_read_shared : ∃ s : State, s.codes = typeText false ['o', 'K', '!'] ∧
    s.line.answers.map Answer.bytes = [[0x6f], [0x4b]] ∧
    ∃ rest, ['o', 'K', '!'].map byteOf =
        s.line.answers.flatMap Answer.bytes ++ rest ++ s.line.fifo.contents ∧
      (rest = [] ∨ ∃ t count, s.line.pc t = .reading count rest) ∧
      ∀ a ∈ s.line.answers, a.bytes.length = a.count := by
  have hrun : (follow InTime Enabled exec bootState
      [.read 1 1, .scan 0x18, .scan 0x98, .scan 0x2a, .resume 1, .read 2 1, .scan 0x25, .scan 0xa5,
        .resume 2, .scan 0xaa, .scan 0x2a, .scan 0x02, .scan 0x82, .scan 0xaa]).map
      (fun s => (s.codes, s.line.answers.map Answer.bytes)) =
      some (typeText false ['o', 'K', '!'], [[0x6f], [0x4b]]) := by
    decide
  obtain ⟨s, hs, hobs⟩ := Option.map_eq_some_iff.mp hrun
  obtain ⟨hcodes, hanswers⟩ := Prod.mk.inj hobs
  have hrow : ∀ a b : Char, (a, b) ∈ keymap → a ≠ INV → b ≠ INV → OnKeyboard a ∧ OnKeyboard b :=
    fun a b h ha hb => ⟨⟨ha, (a, b), h, .inl rfl⟩, ⟨hb, (a, b), h, .inr rfl⟩⟩
  have htext : ∀ c ∈ ['o', 'K', '!'], OnKeyboard c := by
    intro c hc
    rcases List.mem_cons.mp hc with rfl | hc
    · exact (hrow 'o' 'O' (by decide) (by decide) (by decide)).1
    rcases List.mem_cons.mp hc with rfl | hc
    · exact (hrow 'k' 'K' (by decide) (by decide) (by decide)).2
    rcases List.mem_cons.mp hc with rfl | hc
    · exact (hrow '1' '!' (by decide) (by decide) (by decide)).2
    · cases hc
  exact ⟨s, hcodes, hanswers,
    typed_text_read (Reach.follow _ (.start bootState_init) hs) htext hcodes⟩

end NeonixKeyboardReads
