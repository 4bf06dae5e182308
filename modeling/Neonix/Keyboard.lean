import Neonix.CharacterInput

/-! # `kernel/keyboard.c`: scan codes and characters

    The handler of the keyboard interrupt follows which keys are down, the three
    locks and the prefix of an extended key, and passes what a key types through
    `tty_rx_notify` to the queue the readers take it from.  `char` is a Lean
    character here until it is put into the queue. -/

namespace NeonixKeyboard

open NeonixByteBits NeonixMachine NeonixRuns
open NeonixCharacterInput (Answer arrive)

/-! ## The keys -/

def INV : Char := Char.ofNat 0

def KEY_CTRL_L : Nat := 0x1D
def KEY_SHIFT_L : Nat := 0x2A
def KEY_SLASH : Nat := 0x35
def KEY_SHIFT_R : Nat := 0x36
def KEY_CAPSLOCK : Nat := 0x3A
def KEY_NUMLOCK : Nat := 0x45
def KEY_SCRLOCK : Nat := 0x46
def KEY_PRINT_SCREEN : Nat := 0x5F

/-- The first two columns of `keymap`: what a key types without shift and with it. -/
def keymap : List (Char × Char) :=
  [(INV, INV), ('\x1b', '\x1b'), ('1', '!'), ('2', '@'), ('3', '#'), ('4', '$'), ('5', '%'),
    ('6', '^'), ('7', '&'), ('8', '*'), ('9', '('), ('0', ')'), ('-', '_'), ('=', '+'),
    ('\x08', '\x08'), ('\t', '\t'),
    ('q', 'Q'), ('w', 'W'), ('e', 'E'), ('r', 'R'), ('t', 'T'), ('y', 'Y'), ('u', 'U'), ('i', 'I'),
    ('o', 'O'), ('p', 'P'), ('[', '\x7b'), (']', '\x7d'), ('\n', '\n'), (INV, INV),
    ('a', 'A'), ('s', 'S'), ('d', 'D'), ('f', 'F'), ('g', 'G'), ('h', 'H'), ('j', 'J'), ('k', 'K'),
    ('l', 'L'), (';', ':'), ('\x27', '\x22'), ('\x60', '~'), (INV, INV), ('\\', '|'),
    ('z', 'Z'), ('x', 'X'), ('c', 'C'), ('v', 'V'), ('b', 'B'), ('n', 'N'), ('m', 'M'), (',', '<'),
    ('.', '>'), ('/', '?'), (INV, INV), ('*', '*'), (INV, INV), (' ', ' '), (INV, INV),
    -- F1 to F10, NumLock, ScrollLock
    (INV, INV), (INV, INV), (INV, INV), (INV, INV), (INV, INV), (INV, INV), (INV, INV), (INV, INV),
    (INV, INV), (INV, INV), (INV, INV), (INV, INV),
    -- the pad
    ('7', INV), ('8', INV), ('9', INV), ('-', '-'), ('4', INV), ('5', INV), ('6', INV), ('+', '+'),
    ('1', INV), ('2', INV), ('3', INV), ('0', INV), ('.', '\x7f'),
    (INV, INV), (INV, INV), (INV, INV), (INV, INV), (INV, INV), (INV, INV), (INV, INV), (INV, INV),
    (INV, INV), (INV, INV), (INV, INV), (INV, INV)]

example : keymap.length = KEY_PRINT_SCREEN + 1 := rfl

/-- The state of the keyboard; `pressed k ext` is the third or the fourth column of `keymap`. -/
structure Keyboard where
  pressed : Nat → Bool → Bool
  capslock_state : Bool
  scrlock_state : Bool
  numlock_state : Bool
  extcode_state : Bool

def Keyboard.ctrl_state (k : Keyboard) : Bool :=
  k.pressed KEY_CTRL_L false || k.pressed KEY_CTRL_L true

def Keyboard.shift_state (k : Keyboard) : Bool :=
  k.pressed KEY_SHIFT_L false || k.pressed KEY_SHIFT_R false

/-- `keymap[makecode][ext] = down`. -/
def Keyboard.setKey (k : Keyboard) (key : Nat) (ext down : Bool) : Keyboard :=
  { k with pressed := Function.update k.pressed key (Function.update (k.pressed key) ext down) }

/-- The locks a key toggles. -/
def Keyboard.toggle (k : Keyboard) (key : Nat) : Keyboard :=
  if key = KEY_NUMLOCK then { k with numlock_state := !k.numlock_state }
  else if key = KEY_CAPSLOCK then { k with capslock_state := !k.capslock_state }
  else if key = KEY_SCRLOCK then { k with scrlock_state := !k.scrlock_state }
  else k

/-! ## The handler -/

/-- What a key press does to the terminal, next to the character for its readers. -/
inductive Effect where
  | nothing
  /-- `tty_intr` -/
  | interrupt
  /-- the screen is cleared -/
  | clear
  deriving DecidableEq

/-- `tty_rx_notify`: the character it leaves, its result and its effect. -/
def ttyRxNotify (ch : Char) (ctrl : Bool) : Char × Int × Effect :=
  let ch := if ch = '\r' then '\n' else ch
  if ctrl = false then (ch, 0, .nothing)
  else if ch = 'c' ∨ ch = 'C' then ('\n', 0, .interrupt)
  else if ch = 'l' ∨ ch = 'L' then ('\r', 0, .clear)
  else (ch, 1, .nothing)

/-- The two characters of a key. -/
def keyRow (key : Nat) : Char × Char := keymap.getD key (INV, INV)

/-- The keys the lock for capitals is about. -/
def isLetter (key : Nat) : Bool := decide ('a' ≤ (keyRow key).1 ∧ (keyRow key).1 ≤ 'z')

/-- `keymap[makecode][shift]`. -/
def legend (key : Nat) (shift : Bool) : Char := if shift then (keyRow key).2 else (keyRow key).1

/-- The character of a key that is down. -/
def keyChar (k : Keyboard) (key : Nat) (ext : Bool) : Char :=
  if ext = true ∧ key ≠ KEY_SLASH then (keyRow key).2
  else legend key ((k.capslock_state && isLetter key) ^^ k.shift_state)

/-- What an interrupt gives: the character for `fifo_put`, and the effect on the terminal. -/
structure Output where
  put : Option Char
  effect : Effect
  deriving DecidableEq

def silent : Output := ⟨none, .nothing⟩

/-- `keyboard_handler` from the test of the character on. -/
def notify (k : Keyboard) (ch : Char) : Output :=
  if ch = INV then silent
  else
    let (ch, result, effect) := ttyRxNotify ch k.ctrl_state
    if result > 0 then ⟨none, effect⟩ else ⟨some ch, effect⟩

/-- `keyboard_handler` from the `makecode` on. -/
def handleKey (k : Keyboard) (scancode : BitVec 16) (ext : Bool) : Keyboard × Output :=
  let makecode := (scancode &&& 0x7f#16).toNat
  -- `CODE_PRINT_SCREEN_DOWN`
  let makecode := if makecode = 0xB7 then KEY_PRINT_SCREEN else makecode
  if makecode > KEY_PRINT_SCREEN then (k, silent)
  else if scancode &&& 0x80#16 ≠ 0#16 then (k.setKey makecode ext false, silent)
  else
    let k := (k.setKey makecode ext true).toggle makecode
    (k, notify k (keyChar k makecode ext))

/-- `keyboard_handler`, with the byte it reads from the data port. -/
def keyboardHandler (k : Keyboard) (data : Byte) : Keyboard × Output :=
  let scancode : BitVec 16 := data.setWidth 16
  if scancode = 0xe0#16 then ({ k with extcode_state := true }, silent)
  else if k.extcode_state then
    handleKey { k with extcode_state := false } (scancode ||| 0xe000#16) true
  else handleKey k scancode false

/-- The handler at one interrupt after the other, and the characters it put into the queue. -/
def scan : Keyboard → List Byte → Keyboard × List Char
  | k, [] => (k, [])
  | k, data :: rest =>
      let (k, out) := keyboardHandler k data
      let (k, text) := scan k rest
      (k, out.put.toList ++ text)

/-! ## Strokes -/

/-- What a byte says about a key, behind the prefix or without it. -/
inductive Stroke where
  | press (key : Nat) (ext : Bool)
  | release (key : Nat) (ext : Bool)
  deriving DecidableEq

/-- The stroke of a byte that is not the prefix; some bytes stand for no key. -/
def strokeOf (ext : Bool) (data : Byte) : Option Stroke :=
  let key := (data &&& 0x7f#8).toNat
  if key > KEY_PRINT_SCREEN then none
  else if data &&& 0x80#8 ≠ 0#8 then some (.release key ext)
  else some (.press key ext)

/-- The keyboard at a stroke. -/
def Keyboard.stroke (k : Keyboard) : Stroke → Keyboard × Output
  | .release key ext => (k.setKey key ext false, silent)
  | .press key ext =>
      let k := (k.setKey key ext true).toggle key
      (k, notify k (keyChar k key ext))

variable {k k' : Keyboard} {data : Byte} {rest bytes : List Byte} {key : Nat} {ext caps : Bool}
  {c ch : Char}

theorem scancode_extended : ∀ data : Byte, data.setWidth 16 = 0xe0#16 ↔ data = 0xe0#8 := by decide

theorem scancode_key : ∀ data : Byte, (data.setWidth 16 &&& 0x7f#16).toNat = (data &&& 0x7f#8).toNat ∧
    ((data.setWidth 16 ||| 0xe000#16) &&& 0x7f#16).toNat = (data &&& 0x7f#8).toNat := by decide

theorem scancode_break : ∀ data : Byte,
    (data.setWidth 16 &&& 0x80#16 ≠ 0#16 ↔ data &&& 0x80#8 ≠ 0#8) ∧
      ((data.setWidth 16 ||| 0xe000#16) &&& 0x80#16 ≠ 0#16 ↔ data &&& 0x80#8 ≠ 0#8) := by decide

theorem makecode_lt (data : Byte) : (data &&& 0x7f#8).toNat < 0x80 := by
  rw [BitVec.toNat_and]
  exact Nat.lt_of_le_of_lt Nat.and_le_right (by decide)

/-- From its `makecode` on the handler does what the stroke says. -/
theorem handleKey_eq {scancode : BitVec 16}
    (hkey : (scancode &&& 0x7f#16).toNat = (data &&& 0x7f#8).toNat)
    (hbreak : scancode &&& 0x80#16 ≠ 0#16 ↔ data &&& 0x80#8 ≠ 0#8) :
    handleKey k scancode ext = ((strokeOf ext data).map k.stroke).getD (k, silent) := by
  have hlt := makecode_lt data
  have hprint : ¬ (data &&& 0x7f#8).toNat = 0xB7 := by omega
  rw [handleKey, strokeOf, hkey, if_neg hprint]
  by_cases hbig : (data &&& 0x7f#8).toNat > KEY_PRINT_SCREEN
  · rw [if_pos hbig, if_pos hbig]
    rfl
  · rw [if_neg hbig, if_neg hbig]
    by_cases hup : data &&& 0x80#8 ≠ 0#8
    · rw [if_pos hup, if_pos (hbreak.mpr hup)]
      rfl
    · rw [if_neg hup, if_neg (mt hbreak.mp hup)]
      rfl

/-- The handler at a byte that is not the prefix. -/
theorem keyboardHandler_eq (h : data ≠ 0xe0#8) : keyboardHandler k data =
    ((strokeOf k.extcode_state data).map ({ k with extcode_state := false } : Keyboard).stroke).getD
      ({ k with extcode_state := false }, silent) := by
  rw [keyboardHandler, if_neg (mt (scancode_extended data).mp h)]
  cases hext : k.extcode_state with
  | true =>
      rw [if_pos rfl]
      exact handleKey_eq (scancode_key data).2 (scancode_break data).2
  | false =>
      rw [if_neg Bool.false_ne_true]
      have hk : { k with extcode_state := false } = k := by
        rw [← hext]
      rw [hk]
      exact handleKey_eq (scancode_key data).1 (scancode_break data).1

/-! ## Which keys are down -/

/-- A stroke leaves a key down, or not. -/
def follows (key : Nat) (ext down : Bool) : Stroke → Bool
  | .press key' ext' => if key' = key ∧ ext' = ext then true else down
  | .release key' ext' => if key' = key ∧ ext' = ext then false else down

/-- The strokes press a key an odd number of times. -/
def oddly (key : Nat) (on : Bool) : Stroke → Bool
  | .press key' _ => if key' = key then !on else on
  | .release _ _ => on

/-- What the keyboard says about its keys and locks agrees with the strokes so far. -/
structure Follows (k k' : Keyboard) (history : List Stroke) : Prop where
  pressed : ∀ key ext, k'.pressed key ext = history.foldl (follows key ext) (k.pressed key ext)
  capslock : k'.capslock_state = history.foldl (oddly KEY_CAPSLOCK) k.capslock_state
  numlock : k'.numlock_state = history.foldl (oddly KEY_NUMLOCK) k.numlock_state
  scrlock : k'.scrlock_state = history.foldl (oddly KEY_SCRLOCK) k.scrlock_state

theorem pressed_setKey (k : Keyboard) (key key' : Nat) (ext ext' down : Bool) :
    (k.setKey key' ext' down).pressed key ext =
      if key' = key ∧ ext' = ext then down else k.pressed key ext := by
  show Function.update k.pressed key' (Function.update (k.pressed key') ext' down) key ext = _
  by_cases hk : key' = key
  · subst hk
    rw [Function.update_self]
    by_cases he : ext' = ext
    · subst he
      rw [Function.update_self, if_pos ⟨rfl, rfl⟩]
    · rw [Function.update_of_ne (Ne.symm he), if_neg fun h => he h.2]
  · rw [Function.update_of_ne (Ne.symm hk), if_neg fun h => hk h.1]

theorem Follows.trans {k'' : Keyboard} {h h' : List Stroke} (hk : Follows k k' h)
    (hk' : Follows k' k'' h') : Follows k k'' (h ++ h') := by
  refine ⟨fun key ext => ?_, ?_, ?_, ?_⟩
  · rw [List.foldl_append, ← hk.pressed]
    exact hk'.pressed key ext
  · rw [List.foldl_append, ← hk.capslock]
    exact hk'.capslock
  · rw [List.foldl_append, ← hk.numlock]
    exact hk'.numlock
  · rw [List.foldl_append, ← hk.scrlock]
    exact hk'.scrlock

/-- Of the keys that change what the others type, at most the left shift key is down. -/
structure Calm (shift caps : Bool) (k : Keyboard) : Prop where
  ctrl : k.ctrl_state = false
  left : k.pressed KEY_SHIFT_L false = shift
  right : k.pressed KEY_SHIFT_R false = false
  capslock : k.capslock_state = caps
  extcode : k.extcode_state = false

theorem Calm.shift {shift caps : Bool} {k : Keyboard} (h : Calm shift caps k) :
    k.shift_state = shift := by
  rw [Keyboard.shift_state, h.left, h.right, Bool.or_false]

/-- A character the keyboard has. -/
def OnKeyboard (c : Char) : Prop := c ≠ INV ∧ ∃ row ∈ keymap, row.1 = c ∨ row.2 = c

/-- The bytes of a key that is pressed and released. -/
def tap (key : Nat) : List Byte := [BitVec.ofNat 8 key, BitVec.ofNat 8 (key + 0x80)]

/-- The bytes of a key that is pressed and released while a shift key is down. -/
def shiftTap (key : Nat) : List Byte := [0x2a#8] ++ tap key ++ [0xaa#8]

/-- The first key that has a character, and whether it is the second of its row. -/
def keyOf (c : Char) : Nat × Bool :=
  match keymap.findIdx? fun row => row.1 = c with
  | some key => (key, false)
  | none => (keymap.findIdx fun row => row.2 = c, true)

/-- How a typist types a character: with shift where it is the second of its row, and the other
    way round for a letter under the lock. -/
def typeChar (caps : Bool) (c : Char) : List Byte :=
  if (caps && isLetter (keyOf c).1) ^^ (keyOf c).2 then shiftTap (keyOf c).1 else tap (keyOf c).1

/-- How a typist types a text. -/
def typeText (caps : Bool) (text : List Char) : List Byte := text.flatMap (typeChar caps)

theorem scan_append (k : Keyboard) (front back : List Byte) : scan k (front ++ back) =
    ((scan (scan k front).1 back).1, (scan k front).2 ++ (scan (scan k front).1 back).2) := by
  induction front generalizing k with
  | nil => rfl
  | cons data rest ih =>
      show ((scan (keyboardHandler k data).1 (rest ++ back)).1,
        (keyboardHandler k data).2.put.toList ++ (scan (keyboardHandler k data).1 (rest ++ back)).2) = _
      rw [ih, ← List.append_assoc]
      rfl

theorem strokeOf_tap : ∀ key ≤ KEY_PRINT_SCREEN,
    BitVec.ofNat 8 key ≠ 0xe0#8 ∧ strokeOf false (BitVec.ofNat 8 key) = some (.press key false) ∧
      BitVec.ofNat 8 (key + 0x80) ≠ 0xe0#8 ∧
      strokeOf false (BitVec.ofNat 8 (key + 0x80)) = some (.release key false) := by decide

/-- A key with a character is none of those that change what the others type. -/
theorem plain_key {shift : Bool} (h : legend key shift ≠ INV) : key ≠ KEY_CTRL_L ∧
    key ≠ KEY_SHIFT_L ∧ key ≠ KEY_SHIFT_R ∧ key ≠ KEY_NUMLOCK ∧ key ≠ KEY_CAPSLOCK ∧
    key ≠ KEY_SCRLOCK := by
  have hblank : ∀ special : Nat, keyRow special = (INV, INV) → key ≠ special := by
    rintro special hrow rfl
    refine h ?_
    rw [legend, hrow]
    exact ite_self INV
  exact ⟨hblank _ rfl, hblank _ rfl, hblank _ rfl, hblank _ rfl, hblank _ rfl, hblank _ rfl⟩

theorem legend_ne_return (key : Nat) (shift : Bool) : legend key shift ≠ '\r' := by
  have hall : ∀ row ∈ keymap, row.1 ≠ '\r' ∧ row.2 ≠ '\r' := by decide
  have hrow : keyRow key = (INV, INV) ∨ keyRow key ∈ keymap := by
    rw [keyRow, List.getD_eq_getElem?_getD]
    cases hk : keymap[key]? with
    | none => exact Or.inl rfl
    | some row => exact Or.inr (List.mem_of_getElem? hk)
  have hboth : (keyRow key).1 ≠ '\r' ∧ (keyRow key).2 ≠ '\r' := by
    rcases hrow with hblank | hmem
    · rw [hblank]
      decide
    · exact hall _ hmem
  rw [legend]
  split
  · exact hboth.2
  · exact hboth.1

/-- Without `ctrl` the terminal leaves a character alone. -/
theorem notify_plain (hctrl : k.ctrl_state = false) (hinv : ch ≠ INV) (hret : ch ≠ '\r') :
    notify k ch = ⟨some ch, .nothing⟩ := by
  rw [notify, if_neg hinv, hctrl, ttyRxNotify, if_neg hret, if_pos rfl]
  rfl

theorem ctrl_setKey {down : Bool} (h : key ≠ KEY_CTRL_L) :
    (k.setKey key ext down).ctrl_state = k.ctrl_state := by
  rw [Keyboard.ctrl_state, pressed_setKey, pressed_setKey, if_neg fun hx => h hx.1,
    if_neg fun hx => h hx.1]
  rfl

/-- A key that has a character and changes nothing else. -/
theorem Calm.setKey {shift second down : Bool} (h : Calm shift caps k)
    (hkey : legend key second ≠ INV) : Calm shift caps (k.setKey key ext down) := by
  obtain ⟨hctrl, hl, hr, -⟩ := plain_key hkey
  refine ⟨(ctrl_setKey hctrl).trans h.ctrl, ?_, ?_, h.capslock, h.extcode⟩
  · rw [pressed_setKey, if_neg fun hx => hl hx.1]
    exact h.left
  · rw [pressed_setKey, if_neg fun hx => hr hx.1]
    exact h.right

/-- The left shift key. -/
theorem Calm.setShift {shift down : Bool} (h : Calm shift caps k) :
    Calm down caps (k.setKey KEY_SHIFT_L false down) := by
  have hctrl : KEY_SHIFT_L ≠ KEY_CTRL_L := by decide
  have hright : KEY_SHIFT_L ≠ KEY_SHIFT_R := by decide
  refine ⟨(ctrl_setKey hctrl).trans h.ctrl, ?_, ?_, h.capslock, h.extcode⟩
  · rw [pressed_setKey, if_pos ⟨rfl, rfl⟩]
  · rw [pressed_setKey, if_neg fun hx => hright hx.1]
    exact h.right

/-- The handler at a byte that is no prefix, where no prefix came before. -/
theorem handler_stroke {s : Stroke} (hext : k.extcode_state = false) (hne : data ≠ 0xe0#8)
    (hs : strokeOf false data = some s) : keyboardHandler k data = k.stroke s := by
  have hk : ({ k with extcode_state := false } : Keyboard) = k := by
    rw [← hext]
  rw [keyboardHandler_eq hne, hk, hext, hs]
  rfl

theorem toggle_plain {second : Bool} (hkey : legend key second ≠ INV) : k.toggle key = k := by
  obtain ⟨-, -, -, hn, hc, hs⟩ := plain_key hkey
  rw [Keyboard.toggle, if_neg hn, if_neg hc, if_neg hs]

/-- A key that is tapped types its character. -/
theorem scan_tap {shift : Bool} (h : Calm shift caps k) (hlt : key ≤ KEY_PRINT_SCREEN)
    (hkey : legend key ((caps && isLetter key) ^^ shift) ≠ INV) :
    (scan k (tap key)).2 = [legend key ((caps && isLetter key) ^^ shift)] ∧
      Calm shift caps (scan k (tap key)).1 := by
  obtain ⟨hdown, hpress, hup, hrelease⟩ := strokeOf_tap key hlt
  have hcalm : Calm shift caps (k.setKey key false true) := h.setKey hkey
  have hfirst : keyboardHandler k (BitVec.ofNat 8 key) = (k.setKey key false true,
      ⟨some (legend key ((caps && isLetter key) ^^ shift)), .nothing⟩) := by
    rw [handler_stroke h.extcode hdown hpress]
    show ((k.setKey key false true).toggle key,
      notify _ (keyChar ((k.setKey key false true).toggle key) key false)) = _
    rw [toggle_plain hkey, keyChar, if_neg fun hx => Bool.false_ne_true hx.1, hcalm.capslock,
      hcalm.shift, notify_plain hcalm.ctrl hkey (legend_ne_return _ _)]
  have hsecond : keyboardHandler (k.setKey key false true) (BitVec.ofNat 8 (key + 0x80)) =
      ((k.setKey key false true).setKey key false false, silent) :=
    handler_stroke hcalm.extcode hup hrelease
  have hscan : scan k (tap key) = ((k.setKey key false true).setKey key false false,
      [legend key ((caps && isLetter key) ^^ shift)]) := by
    simp only [tap, scan, hfirst, hsecond]
    rfl
  rw [hscan]
  exact ⟨rfl, hcalm.setKey hkey⟩

/-- A shift key types nothing itself. -/
theorem stroke_shift (k : Keyboard) : k.stroke (.press KEY_SHIFT_L false) =
    (k.setKey KEY_SHIFT_L false true, silent) := by
  have hblank : ∀ shift, legend KEY_SHIFT_L shift = INV := fun shift => ite_self INV
  have hne : ¬ (false = true ∧ KEY_SHIFT_L ≠ KEY_SLASH) := fun hx => Bool.false_ne_true hx.1
  show ((k.setKey KEY_SHIFT_L false true).toggle KEY_SHIFT_L,
    notify _ (keyChar ((k.setKey KEY_SHIFT_L false true).toggle KEY_SHIFT_L) KEY_SHIFT_L false)) = _
  rw [keyChar, if_neg hne, hblank, notify, if_pos rfl]
  rfl

/-- A key that is tapped under shift types its other character. -/
theorem scan_shiftTap (h : Calm false caps k) (hlt : key ≤ KEY_PRINT_SCREEN)
    (hkey : legend key ((caps && isLetter key) ^^ true) ≠ INV) :
    (scan k (shiftTap key)).2 = [legend key ((caps && isLetter key) ^^ true)] ∧
      Calm false caps (scan k (shiftTap key)).1 := by
  have hleft : (0x2a#8 : Byte) ≠ 0xe0#8 ∧ (0xaa#8 : Byte) ≠ 0xe0#8 := by decide
  have hdown : keyboardHandler k 0x2a#8 = (k.setKey KEY_SHIFT_L false true, silent) :=
    (handler_stroke h.extcode hleft.1 rfl).trans (stroke_shift k)
  have hshift : Calm true caps (k.setKey KEY_SHIFT_L false true) := h.setShift
  obtain ⟨htext, hcalm⟩ := scan_tap hshift hlt hkey
  have hup : keyboardHandler (scan (k.setKey KEY_SHIFT_L false true) (tap key)).1 0xaa#8 =
      ((scan (k.setKey KEY_SHIFT_L false true) (tap key)).1.setKey KEY_SHIFT_L false false, silent) :=
    handler_stroke hcalm.extcode hleft.2 rfl
  have hdown' : scan k [0x2a#8] = (k.setKey KEY_SHIFT_L false true, []) := by
    simp only [scan, hdown]
    rfl
  have hup' : scan (scan (k.setKey KEY_SHIFT_L false true) (tap key)).1 [0xaa#8] =
      ((scan (k.setKey KEY_SHIFT_L false true) (tap key)).1.setKey KEY_SHIFT_L false false, []) := by
    simp only [scan, hup]
    rfl
  rw [shiftTap, scan_append, scan_append, hdown', hup', htext]
  exact ⟨rfl, hcalm.setShift⟩

/-- The key of a character has it. -/
theorem legend_keyOf (h : OnKeyboard c) :
    (keyOf c).1 ≤ KEY_PRINT_SCREEN ∧ legend (keyOf c).1 (keyOf c).2 = c := by
  have hlength : ∀ key, key < keymap.length → key ≤ KEY_PRINT_SCREEN := fun key hk =>
    Nat.le_of_lt_succ hk
  obtain ⟨-, row, hrow, hc⟩ := h
  rw [keyOf]
  cases hplain : keymap.findIdx? fun row => row.1 = c with
  | some key =>
      obtain ⟨hlt, hfound, -⟩ := List.findIdx?_eq_some_iff_getElem.mp hplain
      refine ⟨hlength key hlt, ?_⟩
      show (keyRow key).1 = c
      rw [keyRow, List.getD_eq_getElem?_getD, List.getElem?_eq_getElem hlt, Option.getD_some]
      exact of_decide_eq_true hfound
  | none =>
      have hnone := List.findIdx?_eq_none_iff.mp hplain
      have hsecond : row.2 = c := hc.resolve_left fun hx => by
        have hfalse := hnone row hrow
        rw [decide_eq_true hx] at hfalse
        cases hfalse
      have hlt : (keymap.findIdx fun row => decide (row.2 = c)) < keymap.length :=
        List.findIdx_lt_length_of_exists ⟨row, hrow, decide_eq_true hsecond⟩
      refine ⟨hlength _ hlt, ?_⟩
      show (keyRow _).2 = c
      rw [keyRow, List.getD_eq_getElem?_getD, List.getElem?_eq_getElem hlt, Option.getD_some]
      exact of_decide_eq_true (List.findIdx_getElem (w := hlt))

/-- A character that is typed arrives. -/
theorem scan_typeChar (h : Calm false caps k) (hc : OnKeyboard c) :
    (scan k (typeChar caps c)).2 = [c] ∧ Calm false caps (scan k (typeChar caps c)).1 := by
  obtain ⟨hlt, hlegend⟩ := legend_keyOf hc
  have hinv := hc.1
  rw [typeChar]
  cases hshift : (caps && isLetter (keyOf c).1) ^^ (keyOf c).2 with
  | true =>
      have hsecond : ((caps && isLetter (keyOf c).1) ^^ true) = (keyOf c).2 := by
        rw [← hshift, ← Bool.xor_assoc, Bool.xor_self, Bool.false_xor]
      have htap := @scan_shiftTap k (keyOf c).1 caps h hlt
      rw [hsecond, hlegend] at htap
      exact htap hinv
  | false =>
      have hsecond : ((caps && isLetter (keyOf c).1) ^^ false) = (keyOf c).2 := by
        rw [← hshift, ← Bool.xor_assoc, Bool.xor_self, Bool.false_xor]
      have htap := @scan_tap k (keyOf c).1 caps false h hlt
      rw [hsecond, hlegend] at htap
      exact htap hinv

/-- **WHAT IS TYPED ARRIVES**: the bytes of a text give the text back, with the lock for capitals
    on or off. -/
theorem scan_typeText (h : Calm false caps k) {text : List Char} (ht : ∀ c ∈ text, OnKeyboard c) :
    (scan k (typeText caps text)).2 = text ∧ Calm false caps (scan k (typeText caps text)).1 := by
  induction text generalizing k with
  | nil => exact ⟨rfl, h⟩
  | cons c text ih =>
      obtain ⟨hone, hcalm⟩ := scan_typeChar h (ht c List.mem_cons_self)
      obtain ⟨hrest, hend⟩ := ih hcalm fun c' hc' => ht c' (List.mem_cons_of_mem _ hc')
      rw [typeText, List.flatMap_cons, scan_append, hone]
      exact ⟨congrArg (c :: ·) hrest, hend⟩

end NeonixKeyboard
