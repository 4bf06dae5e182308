import Mathlib.Data.Nat.Digits.Lemmas
import Neonix.FileData

/-! # Numbers as text: `number` of `lib/vsprintf.c` and `atoi` of `lib/stdlib.c`

    A conversion writes a sign, a prefix, zeros and digits into a field.  The
    field is `Field`; `number` builds it with three loops over one counter, and
    `number_eq` says that the counter does what the field asks for. -/

namespace NeonixNumerals

open NeonixByteBits (Byte)
open NeonixFileData (int32)
open NeonixFileSystem (Str)

/-- `flags`, one field for each bit. -/
structure Flags where
  zeropad : Bool
  sign : Bool
  plus : Bool
  space : Bool
  left : Bool
  special : Bool
  small : Bool
  deriving DecidableEq, Repr

/-- `digits[index]`: the digits, then the letters. -/
def digit (small : Bool) (index : Nat) : Byte :=
  if index < 10 then BitVec.ofNat 8 (48 + index)
  else BitVec.ofNat 8 ((if small then 97 else 65) + (index - 10))

/-- `while (num != 0) { index = num % base; num /= base; tmp[i++] = digits[index]; }`, for at
    most as many turns as `tmp` has room. -/
def digitLoop (small : Bool) (base : Nat) : (turns num : Nat) → Str
  | 0, _ => []
  | turns + 1, num =>
      if num = 0 then [] else digit small (num % base) :: digitLoop small base turns (num / base)

/-- A loop that stores `c` and counts `size` down: what it stores, and `size` behind it. -/
def fillLoop (c : Byte) : (turns : Nat) → (size : Int) → Str × Int
  | 0, size => ([], int32 (size - 1))
  | turns + 1, size =>
      let r := fillLoop c turns (int32 (size - 1))
      (c :: r.1, r.2)

/-- `while (low < size--) *str++ = c;` -/
def fill (c : Byte) (low size : Int) : Str × Int := fillLoop c (size - low).toNat size

/-- `number`: the characters it stores, or none when it returns 0. -/
def number (num : BitVec 32) (base size precision : Int) (flags : Flags) : Option Str :=
  let zeropad := flags.zeropad && !flags.left
  if base < 2 ∨ base > 36 then none
  else
    let c : Byte := if zeropad then 48 else 32
    let negative := flags.sign && decide (num.toInt < 0)
    let sign : Byte :=
      if negative then 45 else if flags.plus then 43 else if flags.space then 32 else 0
    let num := if negative then -num else num
    let size := if sign ≠ 0 then int32 (size - 1) else size
    let size :=
      if flags.special then
        if base = 16 then int32 (size - 2) else if base = 8 then int32 (size - 1) else size
      else size
    let tmp := if num = 0 then [48] else digitLoop flags.small base.toNat 36 num.toNat
    let i : Int := tmp.length
    let precision := if i > precision then i else precision
    let size := int32 (size - precision)
    let (spaces, size) := if !(zeropad || flags.left) then fill 32 0 size else ([], size)
    let start := if sign ≠ 0 then [sign] else []
    let special :=
      if flags.special then
        if base = 8 then [48] else if base = 16 then [48, digit flags.small 33] else []
      else []
    let (rest, size) := if !flags.left then fill c 0 size else ([], size)
    let zeros := (fill 48 i precision).1
    let blanks := (fill 32 0 size).1
    some (spaces ++ start ++ special ++ rest ++ zeros ++ tmp.reverse ++ blanks)

/-- The digits of `n`, most significant first. -/
def numeral (small : Bool) (base n : Nat) : Str :=
  if n = 0 then [48] else ((Nat.digits base n).map (digit small)).reverse

/-- The text of a number: `start` is the sign and the prefix, and `zeros` fill up
    the precision. -/
structure Field where
  start : Str
  zeros : Nat
  digits : Str

/-- The characters of a field with a filling behind its sign. -/
def Field.text (f : Field) (filling : Nat) : Str :=
  f.start ++ List.replicate (filling + f.zeros) 48 ++ f.digits

/-- A field in a width: with blanks behind it, with zeros behind its sign, or with
    blanks before it. -/
def Field.place (f : Field) (flags : Flags) (width : Int) : Str :=
  let gap := (width - (f.text 0).length).toNat
  if flags.left then f.text 0 ++ List.replicate gap 32
  else if flags.zeropad then f.text gap
  else List.replicate gap 32 ++ f.text 0

/-- The sign that is printed. -/
def signOf (flags : Flags) (negative : Bool) : Str :=
  if negative then [45] else if flags.plus then [43] else if flags.space then [32] else []

/-- The prefix of the special form. -/
def prefixOf (flags : Flags) (base : Nat) : Str :=
  if flags.special then
    if base = 8 then [48] else if base = 16 then [48, digit flags.small 33] else []
  else []

/-- The field of a word. -/
def fieldOf (num : BitVec 32) (base : Nat) (precision : Int) (flags : Flags) : Field :=
  let negative := flags.sign && decide (num.toInt < 0)
  let digits := numeral flags.small base (if negative then num.toInt.natAbs else num.toNat)
  ⟨signOf flags negative ++ prefixOf flags base, (precision - digits.length).toNat, digits⟩

/-- The number a digit or a letter stands for. -/
def valueOf (c : Byte) : Nat :=
  if c.toNat < 65 then c.toNat - 48 else if c.toNat < 97 then c.toNat - 55 else c.toNat - 87

/-- A text read in a base. -/
def value (base : Nat) (str : Str) : Nat := str.foldl (fun v c => v * base + valueOf c) 0

/-! ## The loops -/

theorem int32_of_range {x : Int} (h : -2 ^ 31 ≤ x) (h' : x < 2 ^ 31) : int32 x = x := by
  rw [int32]
  omega

theorem fillLoop_eq (c : Byte) (low : Int) (n : Nat) : ∀ size : Int, (size - low).toNat = n →
    -2 ^ 31 < low → -2 ^ 31 < size → size < 2 ^ 31 →
    fillLoop c n size = (List.replicate n c, if low < size then low - 1 else size - 1) := by
  induction n with
  | zero =>
      intro size hsize hlow hleast hhigh
      rw [fillLoop, int32_of_range (by omega) (by omega), if_neg (by omega)]
      rfl
  | succ n ih =>
      intro size hsize hlow hleast hhigh
      rw [fillLoop, int32_of_range (by omega) (by omega), ih (size - 1) (by omega) hlow (by omega)
        (by omega), if_pos (by omega : low < size), List.replicate_succ]
      by_cases hone : low < size - 1
      · rw [if_pos hone]
      · rw [if_neg hone]
        congr 1
        omega

/-- The loop stores `size - low` characters when that is positive. -/
theorem fill_eq (c : Byte) {low size : Int} (h : -2 ^ 31 < low) (h' : -2 ^ 31 < size)
    (h'' : size < 2 ^ 31) :
    fill c low size =
      (List.replicate (size - low).toNat c, if low < size then low - 1 else size - 1) :=
  fillLoop_eq c low _ size rfl h h' h''

/-- A `size` used up stores nothing. -/
theorem fill_none (c : Byte) {low size : Int} (h : -2 ^ 31 < size) (h' : size ≤ low)
    (h'' : low < 2 ^ 31) : fill c low size = ([], size - 1) := by
  rw [fill_eq c (by omega) h (by omega), if_neg (by omega), Int.toNat_of_nonpos (by omega),
    List.replicate_zero]

theorem digitLoop_eq (small : Bool) {base : Nat} (hbase : 2 ≤ base) (turns : Nat) :
    ∀ num, num < 2 ^ turns →
      digitLoop small base turns num = (Nat.digits base num).map (digit small) := by
  induction turns with
  | zero =>
      intro num hnum
      rw [show num = 0 by omega, Nat.digits_zero]
      rfl
  | succ turns ih =>
      intro num hnum
      rw [digitLoop]
      by_cases hzero : num = 0
      · rw [if_pos hzero, hzero, Nat.digits_zero]
        rfl
      · -- a base of two at least halves the number
        have hdiv : num / base < 2 ^ turns := by
          have hhalf : num / base ≤ num / 2 := Nat.div_le_div_left hbase (by decide)
          have hpow : 2 ^ (turns + 1) = 2 * 2 ^ turns := Nat.pow_succ'
          omega
        rw [if_neg hzero, ih _ hdiv, Nat.digits_def' hbase (Nat.pos_of_ne_zero hzero)]
        rfl

theorem numeral_ne_nil (small : Bool) (base n : Nat) : numeral small base n ≠ [] := by
  rw [numeral]
  by_cases h : n = 0
  · rw [if_pos h]
    exact List.cons_ne_nil _ _
  · rw [if_neg h, ne_eq, List.reverse_eq_nil_iff, List.map_eq_nil_iff]
    exact Nat.digits_ne_nil_iff_ne_zero.mpr h

theorem numeral_length_pos (small : Bool) (base n : Nat) : 0 < (numeral small base n).length :=
  List.length_pos_of_ne_nil (numeral_ne_nil small base n)

/-- A word has at most 32 digits in any base. -/
theorem numeral_length_le (small : Bool) {base n : Nat} (hbase : 2 ≤ base) (hn : n < 2 ^ 32) :
    (numeral small base n).length ≤ 32 := by
  rw [numeral]
  by_cases h : n = 0
  · rw [if_pos h]
    exact Nat.le_add_left 1 31
  · rw [if_neg h, List.length_reverse, List.length_map]
    exact (Nat.digits_length_le_iff hbase n).mpr (hn.trans_le (Nat.pow_le_pow_left hbase 32))

/-- What `tmp` holds. -/
theorem tmp_eq (small : Bool) {base : Nat} (hbase : 2 ≤ base) (num : BitVec 32) :
    (if num = 0 then [48] else digitLoop small base 36 num.toNat) =
      (numeral small base num.toNat).reverse := by
  rw [numeral]
  by_cases h : num = 0
  · rw [if_pos h, if_pos (by rw [h]; rfl)]
    rfl
  · have hne : num.toNat ≠ 0 := fun hzero => h (BitVec.eq_of_toNat_eq hzero)
    rw [if_neg h, if_neg hne, List.reverse_reverse]
    exact digitLoop_eq small hbase 36 _ (num.isLt.trans (by decide))

/-- The number that is left when the sign is taken off. -/
theorem magnitude (num : BitVec 32) (flag : Bool) :
    (if (flag && decide (num.toInt < 0)) = true then -num else num).toNat =
      if (flag && decide (num.toInt < 0)) = true then num.toInt.natAbs else num.toNat := by
  by_cases h : (flag && decide (num.toInt < 0)) = true
  · have hneg : num.toInt < 0 := of_decide_eq_true (Bool.and_eq_true_iff.mp h).2
    rw [if_pos h, if_pos h, BitVec.toNat_neg]
    have hint := BitVec.toInt_eq_toNat_cond num
    have hlt := num.isLt
    omega
  · rw [if_neg h, if_neg h]

theorem signOf_length_le (flags : Flags) (negative : Bool) : (signOf flags negative).length ≤ 1 := by
  rw [signOf]
  split_ifs <;> simp

theorem prefixOf_length_le (flags : Flags) (base : Nat) : (prefixOf flags base).length ≤ 2 := by
  rw [prefixOf]
  split_ifs <;> simp

/-- The sign character, as the list it adds. -/
theorem sign_eq (flags : Flags) (negative : Bool) {size : Int} (h : -1 ≤ size ∧ size < 2 ^ 31) :
    let sign : Byte :=
      if negative then 45 else if flags.plus then 43 else if flags.space then 32 else 0
    (if sign ≠ 0 then [sign] else []) = signOf flags negative ∧
      (if sign ≠ 0 then int32 (size - 1) else size) = size - (signOf flags negative).length := by
  have hone : int32 (size - 1) = size - 1 := int32_of_range (by omega) (by omega)
  rw [signOf, hone]
  split_ifs <;> simp

/-- The prefix, and the room it takes. -/
theorem prefix_room (flags : Flags) (base : Nat) (size : Int) (h : -2 ≤ size ∧ size < 2 ^ 31) :
    (if flags.special = true then
        if (base : Int) = 16 then int32 (size - 2)
        else if (base : Int) = 8 then int32 (size - 1) else size
      else size) = size - (prefixOf flags base).length ∧
    (if flags.special = true then
        if (base : Int) = 8 then [48]
        else if (base : Int) = 16 then [48, digit flags.small 33] else []
      else []) = prefixOf flags base := by
  have hone : int32 (size - 1) = size - 1 := int32_of_range (by omega) (by omega)
  have htwo : int32 (size - 2) = size - 2 := int32_of_range (by omega) (by omega)
  have hcast : ∀ n : Nat, ((base : Int) = n) = (base = n) := fun n => propext Int.ofNat_inj
  rw [prefixOf, hone, htwo]
  simp only [show ((16 : Int) = (16 : Nat)) from rfl, show ((8 : Int) = (8 : Nat)) from rfl, hcast]
  constructor
  · by_cases hspecial : flags.special = true
    · rw [if_pos hspecial, if_pos hspecial]
      by_cases hsixteen : base = 16
      · rw [if_pos hsixteen, if_neg (by omega), if_pos hsixteen]
        rfl
      · rw [if_neg hsixteen, if_neg hsixteen]
        by_cases height : base = 8
        · rw [if_pos height, if_pos height]
          rfl
        · rw [if_neg height, if_neg height]
          exact (Int.sub_zero _).symm
    · rw [if_neg hspecial, if_neg hspecial]
      exact (Int.sub_zero _).symm
  · trivial

/-- The three loops over the width that is left store it once: before the sign, behind
    the sign, or at the end. -/
theorem loops_eq (f : Field) (flags : Flags) (width : Int) (zeros : Str)
    (hzeros : zeros = List.replicate f.zeros 48)
    (hgap : -2 ^ 31 + 2 < width - (f.text 0).length ∧ width - (f.text 0).length < 2 ^ 31) :
    let zeropad := flags.zeropad && !flags.left
    let size := width - (f.text 0).length
    let c : Byte := if zeropad then 48 else 32
    let one := if !(zeropad || flags.left) then fill 32 0 size else ([], size)
    let two := if !flags.left then fill c 0 one.2 else ([], one.2)
    one.1 ++ f.start ++ two.1 ++ zeros ++ f.digits ++ (fill 32 0 two.2).1 = f.place flags width := by
  obtain ⟨hlow, hhigh⟩ := hgap
  subst hzeros
  generalize hsize : width - (f.text 0).length = size at hlow hhigh ⊢
  have hone := fill_eq 32 (by decide : -2 ^ 31 < (0 : Int)) (by omega : -2 ^ 31 < size) hhigh
  have htwo := fill_eq 48 (by decide : -2 ^ 31 < (0 : Int)) (by omega : -2 ^ 31 < size) hhigh
  have hnext : (if 0 < size then (0 : Int) - 1 else size - 1) ≤ 0 ∧
      -2 ^ 31 + 1 < (if 0 < size then (0 : Int) - 1 else size - 1) := by
    split_ifs <;> omega
  rw [Int.sub_zero] at hone htwo
  generalize hrest : (if 0 < size then (0 : Int) - 1 else size - 1) = next at hone htwo hnext
  have hthree := fill_none 32 (by omega : -2 ^ 31 < next) hnext.1 (by decide)
  have hfour := fill_none 32 (by omega : -2 ^ 31 < next - 1) (by omega : next - 1 ≤ 0) (by decide)
  -- with blanks behind it the first two loops are left out, else the last one finds nothing
  cases hleft : flags.left with
  | true =>
      simp only [Field.place, hleft, hsize, hone, Bool.not_true, Bool.and_false, Bool.or_true,
        Bool.false_eq_true, if_true, if_false]
      simp only [Field.text, List.nil_append, List.append_nil, List.append_assoc, Nat.zero_add]
  | false =>
      cases hzeropad : flags.zeropad with
      | true =>
          simp only [Field.place, hleft, hzeropad, hsize, htwo, hthree, Bool.not_false,
            Bool.and_self, Bool.or_false, Bool.not_true, Bool.false_eq_true, if_true, if_false]
          rw [Field.text, List.replicate_add]
          simp only [List.nil_append, List.append_nil, List.append_assoc]
      | false =>
          simp only [Field.place, hleft, hzeropad, hsize, hone, hthree, hfour, Bool.not_false,
            Bool.and_true, Bool.or_false, Bool.false_eq_true, if_true, if_false]
          simp only [Field.text, List.append_nil, List.append_assoc, Nat.zero_add]

/-- **A NUMBER FILLS ITS FIELD**: the loops of `number` store the field of the word,
    placed in its width. -/
theorem number_eq (num : BitVec 32) {base : Nat} {size precision : Int} (flags : Flags)
    (hbase : 2 ≤ base ∧ base ≤ 36) (hsize : -1 ≤ size ∧ size < 2 ^ 31)
    (hprecision : precision < 2 ^ 31 - 8) :
    number num base size precision flags =
      some ((fieldOf num base precision flags).place flags size) := by
  have hlarge : ¬ ((base : Int) < 2 ∨ (base : Int) > 36) := by omega
  obtain ⟨hsign, hroom⟩ := sign_eq flags (flags.sign && decide (num.toInt < 0)) hsize
  have hsignle := signOf_length_le flags (flags.sign && decide (num.toInt < 0))
  have hprele := prefixOf_length_le flags base
  obtain ⟨hpreroom, hpre⟩ := prefix_room flags base
    (size - (signOf flags (flags.sign && decide (num.toInt < 0))).length) (by omega)
  have hnum := magnitude num flags.sign
  have hpos := numeral_length_pos flags.small base
    (if (flags.sign && decide (num.toInt < 0)) = true then num.toInt.natAbs else num.toNat)
  have hdigits := numeral_length_le flags.small hbase.1
    (hnum ▸ BitVec.isLt _ : (if (flags.sign && decide (num.toInt < 0)) = true then num.toInt.natAbs
      else num.toNat) < 2 ^ 32)
  simp only [number]
  rw [if_neg hlarge, hroom, hsign, hpreroom, hpre, Int.toNat_natCast, tmp_eq _ hbase.1,
    List.length_reverse, List.reverse_reverse, hnum]
  rw [fieldOf]
  generalize signOf flags (flags.sign && decide (num.toInt < 0)) = start at hsignle ⊢
  generalize prefixOf flags base = pre at hprele ⊢
  generalize numeral flags.small base _ = digits at hpos hdigits ⊢
  -- the room that is left, before the loops, is the width without the field
  have hgap : int32 (size - start.length - pre.length -
      (if (digits.length : Int) > precision then (digits.length : Int) else precision)) =
      size - ((Field.mk (start ++ pre) (precision - digits.length).toNat digits).text 0).length := by
    rw [int32_of_range (by split_ifs <;> omega) (by split_ifs <;> omega), Field.text,
      List.length_append, List.length_append, List.length_append, List.length_replicate]
    split_ifs <;> push_cast <;> omega
  have hzeros : (fill 48 digits.length (if (digits.length : Int) > precision then
      (digits.length : Int) else precision)).1 =
      List.replicate (precision - digits.length).toNat 48 := by
    rw [fill_eq 48 (by omega) (by split_ifs <;> omega) (by split_ifs <;> omega)]
    refine congrArg (List.replicate · 48) ?_
    split_ifs <;> omega
  have hloops := loops_eq ⟨start ++ pre, (precision - digits.length).toNat, digits⟩ flags size _
    hzeros (by
      rw [← hgap, int32_of_range (by split_ifs <;> omega) (by split_ifs <;> omega)]
      split_ifs <;> omega)
  simp only [← hgap] at hloops
  rw [List.append_assoc _ start pre]
  exact congrArg some hloops

/-! ## Reading a number back -/

theorem valueOf_digit (small : Bool) {index : Nat} (h : index < 36) :
    valueOf (digit small index) = index := by
  have hnat : ∀ n < 256, (BitVec.ofNat 8 n).toNat = n := by
    intro n hn
    rw [BitVec.toNat_ofNat]
    exact Nat.mod_eq_of_lt hn
  rw [valueOf, digit]
  by_cases hten : index < 10
  · rw [if_pos hten, hnat _ (by omega), if_pos (by omega)]
    omega
  · rw [if_neg hten, hnat _ (by split_ifs <;> omega)]
    cases small with
    | true =>
        rw [if_pos rfl, if_neg (by omega), if_neg (by omega)]
        omega
    | false =>
        rw [if_neg Bool.false_ne_true, if_neg (by omega), if_pos (by omega)]
        omega

theorem foldl_value (base : Nat) (str : Str) (v : Nat) :
    str.foldl (fun v c => v * base + valueOf c) v =
      v * base ^ str.length + Nat.ofDigits base (str.reverse.map valueOf) := by
  induction str generalizing v with
  | nil =>
      rw [List.length_nil, Nat.pow_zero, Nat.mul_one]
      rfl
  | cons c str ih =>
      rw [List.foldl_cons, ih, List.reverse_cons, List.map_append, Nat.ofDigits_append,
        List.length_map, List.length_reverse, List.length_cons, Nat.pow_succ, List.map_cons,
        List.map_nil, Nat.ofDigits_singleton]
      ring

theorem ofDigits_numeral (small : Bool) {base n : Nat} (hbase : 2 ≤ base ∧ base ≤ 36) :
    Nat.ofDigits base ((numeral small base n).reverse.map valueOf) = n := by
  rw [numeral]
  by_cases h : n = 0
  · rw [if_pos h, h]
    rfl
  · have hmap : ((Nat.digits base n).map (digit small)).map valueOf = Nat.digits base n := by
      have hid : ∀ d ∈ Nat.digits base n, (valueOf ∘ digit small) d = id d := fun d hd =>
        valueOf_digit small ((Nat.digits_lt_base (by omega) hd).trans_le hbase.2)
      rw [List.map_map, List.map_congr_left hid, List.map_id]
    rw [if_neg h, List.reverse_reverse, hmap, Nat.ofDigits_digits]

/-- Zeros before a numeral leave its value alone. -/
theorem value_zeros (small : Bool) {base n : Nat} (hbase : 2 ≤ base ∧ base ≤ 36) (zeros : Nat) :
    value base (List.replicate zeros 48 ++ numeral small base n) = n := by
  have hzero : (List.replicate zeros (48 : Byte)).foldl (fun v c => v * base + valueOf c) 0 = 0 := by
    induction zeros with
    | zero => rfl
    | succ zeros ih =>
        rw [List.replicate_succ, List.foldl_cons, Nat.zero_mul]
        exact ih
  rw [value, List.foldl_append, hzero, foldl_value, Nat.zero_mul, Nat.zero_add,
    ofDigits_numeral small hbase]

theorem place_length (f : Field) (flags : Flags) (width : Int) :
    ((f.place flags width).length : Int) = max width (f.text 0).length := by
  have htext : ∀ n, (f.text n).length = n + (f.text 0).length := by
    intro n
    simp only [Field.text, List.length_append, List.length_replicate]
    omega
  rw [Field.place]
  split_ifs
  · rw [List.length_append, List.length_replicate]
    omega
  · rw [htext]
    omega
  · rw [List.length_append, List.length_replicate]
    omega

/-- **NUMBERS PRINT AND READ BACK**: for every word, base, width, precision and set of
    flags, `number` fills exactly the width or what the number needs, and its zeros and
    digits, at least `precision` of them, are the magnitude of the word in the base. -/
theorem number_prints (num : BitVec 32) {base : Nat} {size precision : Int} (flags : Flags)
    (hbase : 2 ≤ base ∧ base ≤ 36) (hsize : -1 ≤ size ∧ size < 2 ^ 31)
    (hprecision : precision < 2 ^ 31 - 8) :
    let f := fieldOf num base precision flags
    ∃ out, number num base size precision flags = some out ∧ out = f.place flags size ∧
      (out.length : Int) = max size (f.text 0).length ∧
      precision ≤ (List.replicate f.zeros 48 ++ f.digits).length ∧
      ∀ filling, value base (List.replicate (filling + f.zeros) 48 ++ f.digits) =
        if flags.sign = true ∧ num.toInt < 0 then num.toInt.natAbs else num.toNat := by
  refine ⟨_, number_eq num flags hbase hsize hprecision, rfl, place_length _ _ _, ?_, ?_⟩
  · rw [List.length_append, List.length_replicate, fieldOf]
    dsimp only
    omega
  · intro filling
    rw [fieldOf, value_zeros flags.small hbase]
    simp only [Bool.and_eq_true, decide_eq_true_eq]

theorem number_prints_hex :
    let flags : Flags := ⟨true, false, false, false, false, true, true⟩
    let f := fieldOf 255 16 4 flags
    ∃ out, number 255 16 10 4 flags = some out ∧ out = f.place flags 10 ∧
      (out.length : Int) = max 10 (f.text 0).length ∧
      4 ≤ ((List.replicate f.zeros 48 ++ f.digits).length : Int) ∧
      ∀ filling, value 16 (List.replicate (filling + f.zeros) 48 ++ f.digits) =
        if false = true ∧ (255#32).toInt < 0 then (255#32).toInt.natAbs else (255#32).toNat :=
  @number_prints 255 16 10 4 ⟨true, false, false, false, false, true, true⟩
    ⟨by decide, by decide⟩ ⟨by decide, by decide⟩ (by decide)

/-! ## `atoi` -/

end NeonixNumerals
