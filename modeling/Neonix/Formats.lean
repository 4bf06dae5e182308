import Neonix.Numerals

/-! # `lib/vsprintf.c`: formats

    `vsprintf` reads a format with a pointer that only moves on, and each phase
    of a directive returns the characters that are left.  `Output` is what the
    call has done so far; an argument is the next word above `fmt`. -/

namespace NeonixFormats

open NeonixMachine
open NeonixByteBits (Byte)
open NeonixFileData (int32)
open NeonixFileSystem (Str)
open NeonixNumerals

/-- The words above `fmt` on the stack, and the strings such words point to. -/
structure Arguments where
  word : Nat → BitVec 32
  string : BitVec 32 → Str

/-- The characters stored to `buf`, the words taken, and the stores of `%n`. -/
structure Output where
  str : Str
  args : Nat
  stores : List (BitVec 32 × Int)
  deriving DecidableEq, Repr

/-- `*str++ = c` for some characters, with `args` words taken for them. -/
def Output.put (o : Output) (out : Str) (args : Nat) : Output :=
  { o with str := o.str ++ out, args := o.args + args }

/-- `is_digit`. -/
def is_digit (c : Byte) : Bool := decide (48 ≤ c.toNat) && decide (c.toNat ≤ 57)

/-- `skip_atoi`. -/
def skip_atoi : Str → (i : Int) → Int × Str
  | c :: s, i =>
      if is_digit c then skip_atoi s (int32 (int32 (i * 10) + c.toNat - 48)) else (i, c :: s)
  | [], i => (i, [])

/-- The switch behind `repeat`. -/
def flagLoop : Str → Flags → Flags × Str
  | c :: fmt, flags =>
      if c = 45 then flagLoop fmt { flags with left := true }
      else if c = 43 then flagLoop fmt { flags with plus := true }
      else if c = 32 then flagLoop fmt { flags with space := true }
      else if c = 35 then flagLoop fmt { flags with special := true }
      else if c = 48 then flagLoop fmt { flags with zeropad := true }
      else (flags, c :: fmt)
  | [], flags => (flags, [])

/-- `field_width`, with the flags it leaves, the next word and the rest of the format. -/
def fieldWidth (a : Arguments) (args : Nat) (flags : Flags) (fmt : Str) :
    Int × Flags × Nat × Str :=
  match fmt with
  | c :: rest =>
      if is_digit c then
        let (field_width, fmt) := skip_atoi fmt 0
        (field_width, flags, args, fmt)
      else if c = 42 then
        let field_width := (a.word args).toInt
        if field_width < 0 then (int32 (-field_width), { flags with left := true }, args + 1, rest)
        else (field_width, flags, args + 1, rest)
      else (-1, flags, args, fmt)
  | [] => (-1, flags, args, fmt)

/-- The number behind the point, or -1. -/
def pointNumber (a : Arguments) (args : Nat) (fmt : Str) : Int × Nat × Str :=
  match fmt with
  | c :: rest =>
      if is_digit c then
        let (precision, fmt) := skip_atoi fmt 0
        (precision, args, fmt)
      else if c = 42 then ((a.word args).toInt, args + 1, rest)
      else (-1, args, fmt)
  | [] => (-1, args, fmt)

/-- `precision`, with the next word and the rest of the format. -/
def precisionField (a : Arguments) (args : Nat) (fmt : Str) : Int × Nat × Str :=
  match fmt with
  | c :: rest =>
      if c = 46 then
        let (precision, args, fmt) := pointNumber a args rest
        (if precision < 0 then 0 else precision, args, fmt)
      else (-1, args, fmt)
  | [] => (-1, args, fmt)

/-- `qualifier` is read and has no effect: a word is a word. -/
def skipQualifier (fmt : Str) : Str :=
  match fmt with
  | c :: rest => if c = 104 ∨ c = 108 ∨ c = 76 then rest else fmt
  | [] => fmt

/-- `while (--size > 0) *str++ = ' ';` -/
def blanksBefore : (turns : Nat) → (size : Int) → Str × Int
  | 0, size => ([], int32 (size - 1))
  | turns + 1, size =>
      let size := int32 (size - 1)
      if size > 0 then
        let r := blanksBefore turns size
        (32 :: r.1, r.2)
      else ([], size)

/-- `case 'c'`. -/
def charField (c : Byte) (field_width : Int) (flags : Flags) : Str :=
  let (before, field_width) :=
    if !flags.left then blanksBefore field_width.toNat field_width else ([], field_width)
  before ++ [c] ++ (blanksBefore field_width.toNat field_width).1

/-- `case 's'`. -/
def stringField (s : Str) (field_width precision : Int) (flags : Flags) : Str :=
  let len : Int := s.length
  let len := if precision < 0 then len else if len > precision then precision else len
  let (before, field_width) :=
    if !flags.left then fill 32 len field_width else ([], field_width)
  before ++ s.take len.toNat ++ (fill 32 len field_width).1

/-- `str = number(str, …)`: the pointer is null when `number` gives up. -/
def putNumber (a : Arguments) (o : Output) (base field_width precision : Int) (flags : Flags) :
    Res Output :=
  match number (a.word o.args) base field_width precision flags with
  | some out => .ok (o.put out 1)
  | none => .error .outOfBounds

/-- The switch over the conversion, and the rest of the format for the next round. -/
def convert (a : Arguments) (flags : Flags) (field_width precision : Int) (fmt : Str)
    (o : Output) : Res (Output × Str) :=
  match fmt with
  -- the end of the format: the step back undoes the step of the loop
  | [] => .ok (o.put [37] 0, [])
  | c :: fmt =>
      if c = 99 then
        .ok (o.put (charField ((a.word o.args).setWidth 8) field_width flags) 1, fmt)
      else if c = 115 then
        .ok (o.put (stringField (a.string (a.word o.args)) field_width precision flags) 1, fmt)
      else if c = 111 then do
        let o ← putNumber a o 8 field_width precision flags
        return (o, fmt)
      else if c = 112 then do
        let (field_width, flags) :=
          if field_width = -1 then (8, { flags with zeropad := true }) else (field_width, flags)
        let o ← putNumber a o 16 field_width precision flags
        return (o, fmt)
      else if c = 120 then do
        let o ← putNumber a o 16 field_width precision { flags with small := true }
        return (o, fmt)
      else if c = 88 then do
        let o ← putNumber a o 16 field_width precision flags
        return (o, fmt)
      else if c = 100 ∨ c = 105 then do
        let o ← putNumber a o 10 field_width precision { flags with sign := true }
        return (o, fmt)
      else if c = 117 then do
        let o ← putNumber a o 10 field_width precision flags
        return (o, fmt)
      else if c = 110 then
        .ok ({ o with
          args := o.args + 1
          stores := o.stores ++ [(a.word o.args, int32 o.str.length)] }, fmt)
      else if c ≠ 37 then .ok (o.put [37, c] 0, fmt)
      else .ok (o.put [c] 0, fmt)

def noFlags : Flags := ⟨false, false, false, false, false, false, false⟩

/-- A directive, behind its `%`. -/
def directive (a : Arguments) (fmt : Str) (o : Output) : Res (Output × Str) :=
  let (flags, fmt) := flagLoop fmt noFlags
  let (field_width, flags, args, fmt) := fieldWidth a o.args flags fmt
  let (precision, args, fmt) := precisionField a args fmt
  convert a flags field_width precision (skipQualifier fmt) { o with args := args }

/-- `for (str = buf; *fmt; ++fmt)`, where a round takes at least one character. -/
def formatLoop (a : Arguments) : (turns : Nat) → (fmt : Str) → Output → Res Output
  | 0, _, o => .ok o
  | _, [], o => .ok o
  | turns + 1, c :: fmt, o =>
      if c ≠ 37 then formatLoop a turns fmt (o.put [c] 0)
      else do
        let (o, fmt) ← directive a fmt o
        formatLoop a turns fmt o

/-- `vsprintf` over the characters of `fmt` before its zero: the zero behind `str` is
    stored, and the length is checked, when all characters are in the buffer. -/
def vsprintf (a : Arguments) (fmt : Str) : Res Output := do
  let o ← formatLoop a fmt.length fmt ⟨[], 0, []⟩
  check (int32 o.str.length < 1024)
  return o

/-! ## Formats by their directives -/

/-- A flag of a directive. -/
inductive Flag where
  | left
  | plus
  | space
  | special
  | zero
  deriving DecidableEq, Repr

def Flag.char : Flag → Byte
  | .left => 45
  | .plus => 43
  | .space => 32
  | .special => 35
  | .zero => 48

def Flag.set (flags : Flags) : Flag → Flags
  | .left => { flags with left := true }
  | .plus => { flags with plus := true }
  | .space => { flags with space := true }
  | .special => { flags with special := true }
  | .zero => { flags with zeropad := true }

/-- A number in a directive: left out, written in the format, or the next word. -/
inductive Size where
  | absent
  | digits (ds : List (Fin 10))
  | star
  deriving DecidableEq, Repr

def Size.text : Size → Str
  | .absent => []
  | .digits ds => ds.map fun d => BitVec.ofNat 8 (48 + d.val)
  | .star => [42]

/-- A directive: the conversion is missing when the format ends in it. -/
structure Directive where
  flags : List Flag
  width : Size
  precision : Option Size
  qualifier : Option Byte
  conversion : Option Byte
  deriving DecidableEq, Repr

/-- The precision with its point. -/
def pointText : Option Size → Str
  | none => []
  | some size => 46 :: size.text

def Directive.ending (d : Directive) : Str := d.qualifier.toList ++ d.conversion.toList

def Directive.sizes (d : Directive) : Str := d.width.text ++ (pointText d.precision ++ d.ending)

/-- A directive behind its `%`. -/
def Directive.text (d : Directive) : Str := d.flags.map Flag.char ++ d.sizes

/-- A piece of a format. -/
inductive Item where
  | char (c : Byte)
  | directive (d : Directive)
  deriving DecidableEq, Repr

def Item.text : Item → Str
  | .char c => [c]
  | .directive d => 37 :: d.text

/-- The format of some pieces. -/
def formatOf (items : List Item) : Str := items.flatMap Item.text

end NeonixFormats
