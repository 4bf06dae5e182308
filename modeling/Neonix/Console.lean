import Mathlib.Data.BitVec
import Mathlib.Logic.Function.Basic
import Neonix.ByteBits
import Neonix.Machine

/-! # `kernel/console.c`: the text console

    A console is the record `console_t` and the memory its stores go to.  A store
    outside the video memory and an index outside `args` stop the call, so a call
    that returns has made neither.  The ports of the display controller
    (`set_cursor`, `set_screen`) and `start_beep` leave the console alone. -/

namespace NeonixConsole

open NeonixByteBits NeonixMachine

def MEM_BASE : BitVec 32 := 0xB8000
def MEM_SIZE : BitVec 32 := 0x4000
def WIDTH : BitVec 32 := 80
def HEIGHT : BitVec 32 := 25
def ROW_SIZE : BitVec 32 := WIDTH * 2
def ERASE : BitVec 16 := 0x0720
def STYLE : BitVec 8 := 7
def BLINK : BitVec 8 := 0x80
def BOLD : BitVec 8 := 0x0F
abbrev ARG_NR : Nat := 16

def NUL : Byte := 0x00
def BEL : Byte := 0x07
def BS : Byte := 0x08
def HT : Byte := 0x09
def LF : Byte := 0x0A
def VT : Byte := 0x0B
def FF : Byte := 0x0C
def CR : Byte := 0x0D
def ESC : Byte := 0x1B
def DEL : Byte := 0x7F

/-- `enum state`. -/
inductive State where
  | STATE_NOR
  | STATE_ESC
  | STATE_QUE
  | STATE_ARG
  | STATE_CSI
  deriving DecidableEq, Repr

open State

/-- `console_t`, and the memory behind it. -/
structure Console where
  mem_base : BitVec 32
  mem_size : BitVec 32
  mem_end : BitVec 32
  screen : BitVec 32
  scr_size : BitVec 32
  pos : BitVec 32
  x : BitVec 32
  y : BitVec 32
  saved_x : BitVec 32
  saved_y : BitVec 32
  width : BitVec 32
  height : BitVec 32
  row_size : BitVec 32
  state : State
  args : Fin ARG_NR → BitVec 32
  argc : BitVec 32
  ques : BitVec 32
  erase : BitVec 16
  style : BitVec 8
  mem : BitVec 32 → Byte

/-! ## Stores -/

/-- The store of one byte. -/
def store8 (con : Console) (p : BitVec 32) (v : Byte) : Res Console :=
  if con.mem_base ≤ p ∧ p < con.mem_end then .ok { con with mem := Function.update con.mem p v }
  else .error .outOfBounds

/-- The store of a `u16`, low byte first. -/
def store16 (con : Console) (p : BitVec 32) (v : BitVec 16) : Res Console := do
  let con ← store8 con p (v.setWidth 8)
  store8 con (p + 1) (v.extractLsb' 8 8)

/-- The load of a `u16`. -/
def load16 (con : Console) (p : BitVec 32) : BitVec 16 := con.mem (p + 1) ++ con.mem p

/-- `memcpy`, forwards byte by byte. -/
def memcpy (con : Console) (dest src : BitVec 32) : Nat → Res Console
  | 0 => .ok con
  | n + 1 => do
      let con ← store8 con dest (con.mem src)
      memcpy con (dest + 1) (src + 1) n

/-- `erase_screen`. -/
def eraseScreen (con : Console) (start : BitVec 32) : Nat → Res Console
  | 0 => .ok con
  | n + 1 => do
      let con ← store16 con start con.erase
      eraseScreen con (start + 2) n

/-! ## The cursor -/

/-- `set_xy`. -/
def setXy (con : Console) (x y : BitVec 32) : Console :=
  if con.width < x ∨ con.height ≤ y then con
  else { con with x := x, y := y, pos := con.screen + y * con.row_size + (x <<< 1) }

/-- `save_cursor`. -/
def saveCursor (con : Console) : Console :=
  { con with saved_x := con.x, saved_y := con.y }

/-- `console_clear`. -/
def consoleClear (con : Console) : Res Console :=
  let con := { con with screen := con.mem_base, pos := con.mem_base, x := 0, y := 0 }
  eraseScreen con con.mem_base (con.mem_size >>> 1).toNat

/-- The test of `scroll_up`: a screen at the end starts again at the bottom of the
    video memory. -/
def rewind (con : Console) : Res Console :=
  if con.mem_end ≤ con.screen + con.scr_size + con.row_size then do
    let con ← memcpy con con.mem_base con.screen con.scr_size.toNat
    return { con with pos := con.pos - (con.screen - con.mem_base), screen := con.mem_base }
  else .ok con

/-- `scroll_up`. -/
def scrollUp (con : Console) : Res Console := do
  let con ← rewind con
  let con ← eraseScreen con (con.screen + con.scr_size) con.width.toNat
  return { con with screen := con.screen + con.row_size, pos := con.pos + con.row_size }

/-- `lf`. -/
def lf (con : Console) : Res Console :=
  if con.y + 1 < con.height then .ok { con with y := con.y + 1, pos := con.pos + con.row_size }
  else scrollUp con

/-- `cr`. -/
def cr (con : Console) : Console :=
  { con with pos := con.pos - (con.x <<< 1), x := 0 }

/-- The wrap of `tab` and `chr` from behind the last column. -/
def wrap (con : Console) : Res Console :=
  if con.width ≤ con.x then
    lf { con with x := con.x - con.width, pos := con.pos - con.row_size }
  else .ok con

/-- `tab`. -/
def tab (con : Console) : Res Console :=
  let offset := 8 - (con.x &&& 7)
  wrap { con with x := con.x + offset, pos := con.pos + (offset <<< 1) }

/-- `bs`. -/
def bs (con : Console) : Res Console :=
  if con.x = 0 then .ok con
  else store16 { con with x := con.x - 1, pos := con.pos - 2 } (con.pos - 2) con.erase

/-- `del`. -/
def del (con : Console) : Res Console :=
  store16 con con.pos con.erase

/-- `chr`. -/
def chr (con : Console) (ch : Byte) : Res Console := do
  let con ← wrap con
  let con ← store8 con con.pos ch
  let con ← store8 con (con.pos + 1) con.style
  return { con with pos := con.pos + 2, x := con.x + 1 }

/-! ## The three states before a final byte -/

/-- `state_normal`. -/
def stateNormal (con : Console) (ch : Byte) : Res Console :=
  if ch = NUL ∨ ch = BEL then .ok con
  else if ch = BS then bs con
  else if ch = HT then tab con
  else if ch = LF then return cr (← lf con)
  else if ch = VT ∨ ch = FF then lf con
  else if ch = CR then .ok (cr con)
  else if ch = DEL then del con
  else if ch = ESC then .ok { con with state := STATE_ESC }
  else chr con ch

/-- `state_esc`. -/
def stateEsc (con : Console) (ch : Byte) : Res Console :=
  if ch = 0x5B then .ok { con with state := STATE_QUE }                  -- '['
  else if ch = 0x45 then return cr (← lf con)                            -- 'E'
  else if ch = 0x4D then .ok con                                         -- 'M'
  else if ch = 0x44 then lf con                                          -- 'D'
  else if ch = 0x5A then .ok con                                         -- 'Z'
  else if ch = 0x37 then .ok (saveCursor con)                            -- '7'
  else if ch = 0x38 then .ok (setXy con con.saved_x con.saved_y)         -- '8'
  else .ok con

/-- `con->args[i]`. -/
def argAt (i : BitVec 32) : Res (Fin ARG_NR) :=
  if h : i.toNat < ARG_NR then .ok ⟨i.toNat, h⟩ else .error .outOfBounds

/-- `state_arg`: whether the byte ends the parameters. -/
def stateArg (con : Console) (ch : Byte) : Res (Bool × Console) :=
  if ARG_NR ≤ con.argc.toNat then .ok (false, con)
  else if ch = 0x3B then .ok (false, { con with argc := con.argc + 1 })  -- ';'
  else if 0x30 ≤ ch ∧ ch ≤ 0x39 then do                                  -- '0' .. '9'
    let i ← argAt con.argc
    let arg := con.args i * 10 + ch.setWidth 32 - 0x30
    return (false, { con with args := Function.update con.args i arg })
  else .ok (true, { con with argc := con.argc + 1, state := STATE_CSI })

/-! ## Control sequences -/

/-- `csi_J`. -/
def csiJ (con : Console) : Res Console :=
  if con.args 0 = 0 then
    eraseScreen con con.pos ((con.screen + con.scr_size - con.pos) >>> 1).toNat
  else if con.args 0 = 1 then
    eraseScreen con con.screen ((con.pos - con.screen) >>> 1).toNat
  else if con.args 0 = 2 then
    eraseScreen con con.screen (con.scr_size >>> 1).toNat
  else .ok con

/-- `csi_K`. -/
def csiK (con : Console) : Res Console :=
  if con.args 0 = 0 then
    eraseScreen con con.pos (con.width - con.x).toNat
  else if con.args 0 = 1 then
    eraseScreen con (con.pos - (con.x <<< 1)) con.x.toNat
  else if con.args 0 = 2 then
    eraseScreen con (con.pos - (con.x <<< 1)) con.width.toNat
  else .ok con

/-- The loop of `insert_line` from `i` on, in at most so many turns. -/
def moveDown (con : Console) (start i : BitVec 32) : Nat → Res Console
  | 0 => .error .outOfBounds
  | n + 1 =>
      let src := con.mem_end - i * con.row_size
      if src < start then .ok con
      else do
        let con ← memcpy con (src + con.row_size) src con.row_size.toNat
        moveDown con start (i + 1) n

/-- `insert_line`. -/
def insertLine (con : Console) : Res Console := do
  let con ← moveDown con (con.screen + con.y * con.row_size) 2 con.mem_size.toNat
  eraseScreen con (con.screen + con.y * con.row_size) con.width.toNat

/-- The loop of `delete_line` from `i` on, in at most so many turns.  `start` is
    a `u16 *`: it moves by two bytes for each byte of a row. -/
def moveUp (con : Console) (start i : BitVec 32) : Nat → Res Console
  | 0 => .error .outOfBounds
  | n + 1 =>
      let src := start + 2 * (i * con.row_size)
      if con.mem_end ≤ src then .ok con
      else do
        let con ← memcpy con (src - con.row_size) src con.row_size.toNat
        moveUp con start (i + 1) n

/-- `delete_line`. -/
def deleteLine (con : Console) : Res Console := do
  let con ← moveUp con (con.screen + con.y * con.row_size) 1 con.mem_size.toNat
  eraseScreen con (con.mem_end - con.row_size) con.width.toNat

/-- The loop of `delete_char` in at most so many turns: the `u16`s behind `ptr`
    move one back, `i` is a `u16`. -/
def pullBack (con : Console) (ptr : BitVec 32) (i : BitVec 16) : Nat → Res (BitVec 32 × Console)
  | 0 => .error .outOfBounds
  | n + 1 =>
      if (i + 1).setWidth 32 < con.width then do
        let con ← store16 con ptr (load16 con (ptr + 2))
        pullBack con (ptr + 2) (i + 1) n
      else .ok (ptr, con)

/-- `delete_char`. -/
def deleteChar (con : Console) : Res Console := do
  let (ptr, con) ← pullBack con con.pos (con.x.setWidth 16) con.mem_size.toNat
  store16 con ptr con.erase

/-- The loop of `insert_char`, from `ptr` down to the cursor, in at most so many
    turns. -/
def pushOn (con : Console) (ptr : BitVec 32) : Nat → Res Console
  | 0 => .error .outOfBounds
  | n + 1 =>
      if con.pos < ptr then do
        let con ← store16 con ptr (load16 con (ptr - 2))
        pushOn con (ptr - 2) n
      else .ok con

/-- `insert_char`; its last store goes through `char *ptr` and writes one byte. -/
def insertChar (con : Console) : Res Console := do
  let con ← pushOn con (con.pos + 2 * (con.width - con.x - 1)) con.mem_size.toNat
  store8 con con.pos (con.erase.setWidth 8)

/-- `while (nr--) f(con);` -/
def repeatTimes (f : Console → Res Console) : Nat → Console → Res Console
  | 0, con => .ok con
  | n + 1, con => f con >>= repeatTimes f n

/-- The loop of `csi_L`, `csi_M`, `csi_P` and `csi_at`; `nr` is compared with an
    unsigned number. -/
def csiRepeat (f : Console → Res Console) (con : Console) : Res Console :=
  let nr := con.args 0
  let nr := if con.height < nr then con.height else if nr = 0 then 1 else nr
  repeatTimes f nr.toNat con

/-- `csi_L`. -/
def csiL : Console → Res Console := csiRepeat insertLine

/-- `csi_M`. -/
def csiM : Console → Res Console := csiRepeat deleteLine

/-- `csi_P`. -/
def csiP : Console → Res Console := csiRepeat deleteChar

/-- `csi_at`. -/
def csiAt : Console → Res Console := csiRepeat insertChar

/-- The style after one parameter of `csi_m`. -/
def styleOf (style : BitVec 8) (arg : BitVec 32) : BitVec 8 :=
  if arg = 0 then STYLE
  else if arg = 1 then BOLD
  else if arg = BLINK.setWidth 32 then style ||| BLINK
  else if arg = 7 then (style >>> 4) ||| (style <<< 4)
  else if 30 ≤ arg ∧ arg ≤ 37 then style &&& 0xF8 ||| (arg - 30).setWidth 8
  else if 40 ≤ arg ∧ arg ≤ 47 then style &&& 0x8F ||| ((arg - 40) <<< 4).setWidth 8
  else style

/-- The loop of `csi_m` from `i` on. -/
def styles (con : Console) (i : BitVec 32) : Nat → Res Console
  | 0 => .ok con
  | n + 1 => do
      let k ← argAt i
      styles { con with style := styleOf con.style (con.args k) } (i + 1) n

/-- `csi_m`. -/
def csiStyle (con : Console) : Res Console := do
  let con ← styles { con with style := 0 } 0 con.argc.toNat
  return { con with erase := (con.style.setWidth 16 <<< 8) ||| 0x20 }

/-- `if (!con->args[0]) con->args[0]++;` -/
def atLeastOne (con : Console) : Console :=
  if con.args 0 = 0 then { con with args := Function.update con.args 0 (con.args 0 + 1) } else con

/-- `if (con->args[i]) con->args[i]--;` -/
def fromZero (con : Console) (i : Fin ARG_NR) : Console :=
  if con.args i = 0 then con else { con with args := Function.update con.args i (con.args i - 1) }

/-- `state_csi`; `s` falls through to `u`. -/
def stateCsi (con : Console) (ch : Byte) : Res Console :=
  let con := { con with state := STATE_NOR }
  if ch = 0x47 ∨ ch = 0x60 then                                          -- 'G' '`'
    let con := fromZero con 0
    .ok (setXy con (con.args 0) con.y)
  else if ch = 0x41 then                                                 -- 'A'
    let con := atLeastOne con
    .ok (setXy con con.x (con.y - con.args 0))
  else if ch = 0x42 ∨ ch = 0x65 then                                     -- 'B' 'e'
    let con := atLeastOne con
    .ok (setXy con con.x (con.y + con.args 0))
  else if ch = 0x43 ∨ ch = 0x61 then                                     -- 'C' 'a'
    let con := atLeastOne con
    .ok (setXy con (con.x + con.args 0) con.y)
  else if ch = 0x44 then                                                 -- 'D'
    let con := atLeastOne con
    .ok (setXy con (con.x - con.args 0) con.y)
  else if ch = 0x45 then                                                 -- 'E'
    let con := atLeastOne con
    .ok (setXy con 0 (con.y + con.args 0))
  else if ch = 0x46 then                                                 -- 'F'
    let con := atLeastOne con
    .ok (setXy con 0 (con.y - con.args 0))
  else if ch = 0x64 then                                                 -- 'd'
    let con := fromZero con 0
    .ok (setXy con con.x (con.args 0))
  else if ch = 0x48 ∨ ch = 0x66 then                                     -- 'H' 'f'
    let con := fromZero (fromZero con 0) 1
    .ok (setXy con (con.args 1) (con.args 0))
  else if ch = 0x4A then csiJ con                                        -- 'J'
  else if ch = 0x4B then csiK con                                        -- 'K'
  else if ch = 0x4C then csiL con                                        -- 'L'
  else if ch = 0x4D then csiM con                                        -- 'M'
  else if ch = 0x50 then csiP con                                        -- 'P'
  else if ch = 0x40 then csiAt con                                       -- '@'
  else if ch = 0x6D then csiStyle con                                    -- 'm'
  else if ch = 0x72 then .ok con                                         -- 'r'
  else if ch = 0x73 then                                                 -- 's'
    let con := saveCursor con
    .ok (setXy con con.saved_x con.saved_y)
  else if ch = 0x75 then .ok (setXy con con.saved_x con.saved_y)         -- 'u'
  else .ok con

/-! ## Bytes, chunks, and the start -/

/-- `STATE_ARG` in `console_write`, which falls through to `STATE_CSI`. -/
def argByte (con : Console) (ch : Byte) : Res Console := do
  let (done, con) ← stateArg con ch
  if done then stateCsi con ch else .ok con

/-- One turn of the loop of `console_write`. -/
def consoleByte (con : Console) (ch : Byte) : Res Console :=
  match con.state with
  | STATE_NOR => stateNormal con ch
  | STATE_ESC => stateEsc con ch
  | STATE_QUE =>
      let con := { con with
        args := fun _ => 0
        argc := 0
        state := STATE_ARG
        ques := if ch = 0x3F then 1 else 0 }                             -- '?'
      if ch = 0x3F then .ok con else argByte con ch
  | STATE_ARG => argByte con ch
  | STATE_CSI => stateCsi con ch

/-- The loop of `console_write`. -/
def consoleBytes : List Byte → Console → Res Console
  | [], con => .ok con
  | ch :: buf, con => consoleByte con ch >>= consoleBytes buf

/-- `console_write`; the count it returns is one too many. -/
def consoleWrite (con : Console) (buf : List Byte) : Res (BitVec 32 × Console) := do
  let con ← consoleBytes buf con
  return (BitVec.ofNat 32 (buf.length + 1), con)

/-- `console_init`, of a `static` record that is zero where it stores nothing. -/
def consoleInit (mem : BitVec 32 → Byte) : Res Console :=
  let mem_size := MEM_SIZE / ROW_SIZE * ROW_SIZE
  consoleClear
    { mem_base := MEM_BASE, mem_size := mem_size, mem_end := MEM_BASE + mem_size
      screen := 0, scr_size := WIDTH * HEIGHT * 2
      pos := 0, x := 0, y := 0, saved_x := 0, saved_y := 0
      width := WIDTH, height := HEIGHT, row_size := WIDTH * 2
      state := STATE_NOR, args := fun _ => 0, argc := 0, ques := 0
      erase := ERASE, style := STYLE, mem := mem }

end NeonixConsole
