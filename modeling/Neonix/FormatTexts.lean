import Neonix.Formats

/-! # What a format prints

    Every format is the text of one list of well-formed pieces, and `vsprintf`
    prints the pieces one after the other.  A run of characters of one kind ends
    at the first character of another kind; `Stops` says so, and each phase of a
    directive is read back with it. -/

namespace NeonixFormatTexts

open NeonixMachine
open NeonixByteBits (Byte)
open NeonixFileData (int32)
open NeonixFileSystem (Str)
open NeonixNumerals NeonixFormats

/-! ## Runs of characters -/

section Runs

variable {α β : Type} {P : β → Prop} {f : α → β}

/-- The list does not begin with a `P`. -/
def Stops (P : β → Prop) (s : List β) : Prop := ∀ c ∈ s.head?, ¬ P c

theorem stops_nil : Stops P [] := by
  rintro c ⟨⟩

theorem stops_cons {c : β} {s : List β} : Stops P (c :: s) ↔ ¬ P c := by
  constructor
  · exact fun h => h c rfl
  · rintro h d ⟨⟩
    exact h

/-- What comes behind a list that is not empty does not matter. -/
theorem stops_append {s t : List β} (ht : s = [] → t = []) : Stops P (s ++ t) ↔ Stops P s := by
  cases s with
  | nil => rw [List.nil_append, ht rfl]
  | cons c s => exact stops_cons.trans stops_cons.symm

/-- Every list is a run and what stops it. -/
theorem run_exists (hP : ∀ c, P c → ∃ x, f x = c) (s : List β) :
    ∃ xs rest, s = List.map f xs ++ rest ∧ Stops P rest := by
  induction s with
  | nil => exact ⟨[], [], rfl, stops_nil⟩
  | cons c s ih =>
      by_cases hc : P c
      · obtain ⟨x, rfl⟩ := hP c hc
        obtain ⟨xs, rest, hs, hstop⟩ := ih
        exact ⟨x :: xs, rest, congrArg (f x :: ·) hs, hstop⟩
      · exact ⟨[], c :: s, rfl, stops_cons.mpr hc⟩

/-- And it is so in one way. -/
theorem run_unique (hf : Function.Injective f) (hP : ∀ x, P (f x)) {xs ys : List α}
    {rest tail : List β} (hrest : Stops P rest) (htail : Stops P tail)
    (h : List.map f xs ++ rest = List.map f ys ++ tail) : xs = ys ∧ rest = tail := by
  induction xs generalizing ys with
  | nil =>
      cases ys with
      | nil => exact ⟨rfl, h⟩
      | cons y ys =>
          subst h
          exact absurd (hP y) (stops_cons.mp hrest)
  | cons x xs ih =>
      cases ys with
      | nil =>
          subst h
          exact absurd (hP x) (stops_cons.mp htail)
      | cons y ys =>
          obtain ⟨hhead, hrun⟩ := List.cons.inj h
          obtain ⟨rfl, rfl⟩ := ih hrun
          exact ⟨by rw [hf hhead], rfl⟩

end Runs

/-! ## Well-formed pieces -/

def IsFlag (c : Byte) : Prop := ∃ f : Flag, f.char = c

def digitChar (d : Fin 10) : Byte := BitVec.ofNat 8 (48 + d.val)

/-- A size that the characters behind it do not change. -/
def Ends : Size → Str → Prop
  | .absent, rest => Stops (fun c => is_digit c = true ∨ c = 42) rest
  | .digits ds, rest => ds ≠ [] ∧ Stops (fun c => is_digit c = true) rest
  | .star, _ => True

def IsQualifier (c : Byte) : Prop := c = 104 ∨ c = 108 ∨ c = 76

/-- A precision that the characters behind it do not change. -/
def PointEnds : Option Size → Str → Prop
  | none, rest => Stops (· = 46) rest
  | some size, rest => Ends size rest

/-- A directive whose phases read what they stand for. -/
structure Regular (d : Directive) : Prop where
  flags : Stops IsFlag d.sizes
  width : Ends d.width (pointText d.precision ++ d.ending)
  precision : PointEnds d.precision d.ending
  qualifier : ∀ c ∈ d.qualifier, IsQualifier c
  conversion : d.qualifier = none → Stops IsQualifier d.conversion.toList

/-- Pieces of a format; a directive without a conversion ends the format. -/
def WellFormed : List Item → Prop
  | [] => True
  | .char c :: items => c ≠ 37 ∧ WellFormed items
  | .directive d :: items => Regular d ∧ (d.conversion = none → items = []) ∧ WellFormed items

theorem digitChar_injective : Function.Injective digitChar := by
  intro d e h
  have hval := congrArg BitVec.toNat h
  rw [digitChar, digitChar, BitVec.toNat_ofNat, BitVec.toNat_ofNat] at hval
  have hd := d.isLt
  have he := e.isLt
  exact Fin.ext (by omega)

theorem is_digit_digitChar (d : Fin 10) : is_digit (digitChar d) = true := by
  have hd := d.isLt
  rw [is_digit, digitChar, BitVec.toNat_ofNat, Nat.mod_eq_of_lt (by omega), Bool.and_eq_true,
    decide_eq_true_eq, decide_eq_true_eq]
  omega

theorem digitChar_of_is_digit (c : Byte) (h : is_digit c = true) : ∃ d, digitChar d = c := by
  rw [is_digit, Bool.and_eq_true, decide_eq_true_eq, decide_eq_true_eq] at h
  refine ⟨⟨c.toNat - 48, by omega⟩, BitVec.eq_of_toNat_eq ?_⟩
  rw [digitChar, BitVec.toNat_ofNat]
  dsimp only
  omega

theorem Flag.char_injective : Function.Injective Flag.char := by
  intro f g h
  cases f <;> cases g <;> first | rfl | exact absurd h (by decide)

/-! ## One text, one list of pieces -/

theorem size_exists (s : Str) : ∃ size rest, s = Size.text size ++ rest ∧ Ends size rest := by
  obtain ⟨ds, rest, rfl, hstop⟩ := run_exists digitChar_of_is_digit s
  by_cases hds : ds = []
  · subst hds
    cases rest with
    | nil => exact ⟨.absent, [], rfl, stops_nil⟩
    | cons c rest =>
        by_cases hc : c = 42
        · subst hc
          exact ⟨.star, rest, rfl, trivial⟩
        · refine ⟨.absent, c :: rest, rfl, stops_cons.mpr ?_⟩
          rintro (hdigit | hstar)
          · exact stops_cons.mp hstop hdigit
          · exact hc hstar
  · exact ⟨.digits ds, rest, rfl, hds, hstop⟩

theorem size_unique {size size' : Size} {rest rest' : Str} (h : Ends size rest)
    (h' : Ends size' rest') (heq : Size.text size ++ rest = Size.text size' ++ rest') :
    size = size' ∧ rest = rest' := by
  have hdigits : ∀ {ds : List (Fin 10)} {r r' : Str}, ds ≠ [] → ds.map digitChar ++ r = 42 :: r' →
      False := by
    intro ds r r' hne hrun
    obtain ⟨d, ds, rfl⟩ := List.exists_cons_of_ne_nil hne
    have hdigit := is_digit_digitChar d
    rw [(List.cons.inj hrun).1] at hdigit
    exact absurd hdigit (by decide)
  have habsent : ∀ {ds : List (Fin 10)} {r r' : Str}, ds ≠ [] → ds.map digitChar ++ r = r' →
      ¬ Stops (fun c => is_digit c = true ∨ c = 42) r' := by
    intro ds r r' hne hrun hstop
    obtain ⟨d, ds, rfl⟩ := List.exists_cons_of_ne_nil hne
    subst hrun
    exact stops_cons.mp hstop (Or.inl (is_digit_digitChar d))
  cases size with
  | absent =>
      cases size' with
      | absent => exact ⟨rfl, heq⟩
      | digits ds => exact absurd h (habsent h'.1 heq.symm)
      | star =>
          have hstar : rest = 42 :: rest' := heq
          subst hstar
          exact (stops_cons.mp h (Or.inr rfl)).elim
  | digits ds =>
      cases size' with
      | absent => exact absurd h' (habsent h.1 heq)
      | digits ds' =>
          obtain ⟨rfl, rfl⟩ := run_unique digitChar_injective is_digit_digitChar h.2 h'.2 heq
          exact ⟨rfl, rfl⟩
      | star => exact (hdigits h.1 heq).elim
  | star =>
      cases size' with
      | absent =>
          have hstar : rest' = 42 :: rest := heq.symm
          subst hstar
          exact (stops_cons.mp h' (Or.inr rfl)).elim
      | digits ds => exact (hdigits h'.1 heq.symm).elim
      | star => exact ⟨rfl, (List.cons.inj heq).2⟩

theorem ends_append {size : Size} {s t : Str} (ht : s = [] → t = []) :
    Ends size (s ++ t) ↔ Ends size s := by
  cases size with
  | absent => exact stops_append ht
  | digits ds => exact and_congr_right' (stops_append ht)
  | star => exact Iff.rfl

theorem pointEnds_append {point : Option Size} {s t : Str} (ht : s = [] → t = []) :
    PointEnds point (s ++ t) ↔ PointEnds point s := by
  cases point with
  | none => exact stops_append ht
  | some size => exact ends_append ht

theorem point_exists (s : Str) : ∃ point rest, s = pointText point ++ rest ∧ PointEnds point rest := by
  by_cases hpoint : s.head? = some 46
  · obtain ⟨s, rfl⟩ := List.head?_eq_some_iff.mp hpoint
    obtain ⟨size, rest, rfl, hends⟩ := size_exists s
    exact ⟨some size, rest, rfl, hends⟩
  · refine ⟨none, s, rfl, ?_⟩
    rintro c hc rfl
    exact hpoint hc

theorem point_unique {point point' : Option Size} {rest rest' : Str} (h : PointEnds point rest)
    (h' : PointEnds point' rest') (heq : pointText point ++ rest = pointText point' ++ rest') :
    point = point' ∧ rest = rest' := by
  cases point with
  | none =>
      cases point' with
      | none => exact ⟨rfl, heq⟩
      | some size' =>
          have hpoint : rest = 46 :: (size'.text ++ rest') := heq
          subst hpoint
          exact (stops_cons.mp h rfl).elim
  | some size =>
      cases point' with
      | none =>
          have hpoint : rest' = 46 :: (size.text ++ rest) := heq.symm
          subst hpoint
          exact (stops_cons.mp h' rfl).elim
      | some size' =>
          obtain ⟨rfl, rfl⟩ := size_unique h h' (List.cons.inj heq).2
          exact ⟨rfl, rfl⟩

/-- The qualifier and the conversion of a directive. -/
theorem ending_exists (s : Str) : ∃ (qualifier conversion : Option Byte) (rest : Str),
    s = qualifier.toList ++ conversion.toList ++ rest ∧ (∀ c ∈ qualifier, IsQualifier c) ∧
      (qualifier = none → Stops IsQualifier conversion.toList) ∧
      (conversion = none → rest = []) := by
  have hconversion : ∀ s : Str, ∃ (conversion : Option Byte) (rest : Str),
      s = conversion.toList ++ rest ∧ (conversion = none → rest = []) := by
    intro s
    cases s with
    | nil => exact ⟨none, [], rfl, fun _ => rfl⟩
    | cons c s =>
        refine ⟨some c, s, rfl, ?_⟩
        rintro ⟨⟩
  by_cases hqualifier : ∃ c ∈ s.head?, IsQualifier c
  · obtain ⟨c, hc, hq⟩ := hqualifier
    obtain ⟨s, rfl⟩ := List.head?_eq_some_iff.mp hc
    obtain ⟨conversion, rest, rfl, hrest⟩ := hconversion s
    refine ⟨some c, conversion, rest, rfl, ?_, ?_, hrest⟩
    · rintro d ⟨⟩
      exact hq
    · rintro ⟨⟩
  · obtain ⟨conversion, rest, rfl, hrest⟩ := hconversion s
    refine ⟨none, conversion, rest, rfl, ?_, fun _ => ?_, hrest⟩
    · rintro d ⟨⟩
    · refine (stops_append fun hnil => hrest ?_).mp fun c hc hq => hqualifier ⟨c, hc, hq⟩
      cases conversion with
      | none => rfl
      | some c => cases hnil

theorem conversion_unique {c c' : Option Byte} {rest rest' : Str} (hrest : c = none → rest = [])
    (hrest' : c' = none → rest' = []) (heq : c.toList ++ rest = c'.toList ++ rest') :
    c = c' ∧ rest = rest' := by
  cases c with
  | none =>
      cases hrest rfl
      cases c' with
      | none => exact ⟨rfl, heq⟩
      | some c' => cases heq
  | some c =>
      cases c' with
      | none =>
          cases hrest' rfl
          cases heq
      | some c' =>
          obtain ⟨rfl, rfl⟩ := List.cons.inj heq
          exact ⟨rfl, rfl⟩

/-- No qualifier is left where a directive has none. -/
theorem no_qualifier {d : Directive} {rest s : Str} {q : Byte} (h : Regular d)
    (hnone : d.qualifier = none) (hrest : d.conversion = none → rest = [])
    (heq : d.conversion.toList ++ rest = q :: s) : ¬ IsQualifier q := by
  have hstop := h.conversion hnone
  cases hconversion : d.conversion with
  | none =>
      rw [hconversion, hrest hconversion] at heq
      cases heq
  | some c =>
      rw [hconversion] at heq hstop
      obtain ⟨rfl, rfl⟩ := List.cons.inj heq
      exact stops_cons.mp hstop

theorem ending_unique {d d' : Directive} {rest rest' : Str} (h : Regular d) (h' : Regular d')
    (hrest : d.conversion = none → rest = []) (hrest' : d'.conversion = none → rest' = [])
    (heq : d.ending ++ rest = d'.ending ++ rest') :
    d.qualifier = d'.qualifier ∧ d.conversion = d'.conversion ∧ rest = rest' := by
  rw [Directive.ending, Directive.ending] at heq
  cases hq : d.qualifier with
  | none =>
      cases hq' : d'.qualifier with
      | none =>
          rw [hq, hq'] at heq
          obtain ⟨hconversion, hr⟩ := conversion_unique hrest hrest' heq
          exact ⟨rfl, hconversion, hr⟩
      | some q =>
          rw [hq, hq'] at heq
          exact absurd (h'.qualifier q hq') (no_qualifier h hq hrest heq)
  | some q =>
      cases hq' : d'.qualifier with
      | none =>
          rw [hq, hq'] at heq
          exact absurd (h.qualifier q hq) (no_qualifier h' hq' hrest' heq.symm)
      | some q' =>
          rw [hq, hq'] at heq
          obtain ⟨rfl, htail⟩ := List.cons.inj heq
          obtain ⟨hconversion, hr⟩ := conversion_unique hrest hrest' htail
          exact ⟨rfl, hconversion, hr⟩

theorem ending_nil {d : Directive} (h : d.ending = []) : d.conversion = none := by
  obtain ⟨-, hnil⟩ := List.append_eq_nil_iff.mp h
  cases hconversion : d.conversion with
  | none => rfl
  | some c =>
      rw [hconversion] at hnil
      cases hnil

/-- Every text behind a `%` begins with a directive. -/
theorem directive_exists (s : Str) : ∃ d rest, s = Directive.text d ++ rest ∧ Regular d ∧
    (d.conversion = none → rest = []) := by
  obtain ⟨flags, sizes, rfl, hflags⟩ := run_exists (f := Flag.char) (P := IsFlag) (fun _ h => h) s
  obtain ⟨width, behind, rfl, hwidth⟩ := size_exists sizes
  obtain ⟨point, ending, rfl, hpoint⟩ := point_exists behind
  obtain ⟨qualifier, conversion, rest, rfl, hqualifier, hnone, hrest⟩ := ending_exists ending
  -- what is left behind the conversion is not looked at
  have hempty : qualifier.toList ++ conversion.toList = [] → rest = [] := fun h =>
    hrest (ending_nil (d := ⟨flags, width, point, qualifier, conversion⟩) h)
  refine ⟨⟨flags, width, point, qualifier, conversion⟩, rest, ?_, ?_, hrest⟩
  · simp only [Directive.text, Directive.sizes, Directive.ending, List.append_assoc]
  · rw [← List.append_assoc] at hwidth
    refine ⟨?_, (ends_append fun h => hempty (List.append_eq_nil_iff.mp h).2).mp hwidth,
      (pointEnds_append hempty).mp hpoint, hqualifier, hnone⟩
    have hsizes : width.text ++ (pointText point ++ (qualifier.toList ++ conversion.toList ++ rest)) =
        (width.text ++ (pointText point ++ (qualifier.toList ++ conversion.toList))) ++ rest := by
      simp only [List.append_assoc]
    rw [hsizes] at hflags
    exact (stops_append fun h => hempty
      (List.append_eq_nil_iff.mp (List.append_eq_nil_iff.mp h).2).2).mp hflags

/-- And with one only. -/
theorem directive_unique {d d' : Directive} {rest rest' : Str} (h : Regular d) (h' : Regular d')
    (hrest : d.conversion = none → rest = []) (hrest' : d'.conversion = none → rest' = [])
    (heq : d.text ++ rest = d'.text ++ rest') : d = d' ∧ rest = rest' := by
  have hempty : d.ending = [] → rest = [] := fun h => hrest (ending_nil h)
  have hempty' : d'.ending = [] → rest' = [] := fun h => hrest' (ending_nil h)
  have hsizes : ∀ {e : Directive} {r : Str}, (e.ending = [] → r = []) → e.sizes = [] → r = [] :=
    fun hr h => hr (List.append_eq_nil_iff.mp (List.append_eq_nil_iff.mp h).2).2
  rw [Directive.text, Directive.text, List.append_assoc, List.append_assoc] at heq
  obtain ⟨hflags, heq⟩ := run_unique Flag.char_injective (fun f => ⟨f, rfl⟩)
    ((stops_append (hsizes hempty)).mpr h.flags) ((stops_append (hsizes hempty')).mpr h'.flags) heq
  rw [Directive.sizes, Directive.sizes, List.append_assoc d.width.text,
    List.append_assoc d'.width.text] at heq
  obtain ⟨hwidth, heq⟩ := size_unique
    ((ends_append fun h => hempty (List.append_eq_nil_iff.mp h).2).mpr h.width)
    ((ends_append fun h => hempty' (List.append_eq_nil_iff.mp h).2).mpr h'.width) heq
  rw [List.append_assoc, List.append_assoc] at heq
  obtain ⟨hpoint, heq⟩ := point_unique ((pointEnds_append hempty).mpr h.precision)
    ((pointEnds_append hempty').mpr h'.precision) heq
  obtain ⟨hqualifier, hconversion, hr⟩ := ending_unique h h' hrest hrest' heq
  refine ⟨?_, hr⟩
  cases d
  cases d'
  cases hflags
  cases hwidth
  cases hpoint
  cases hqualifier
  cases hconversion
  rfl

theorem format_exists (fmt : Str) : ∃ items, WellFormed items ∧ formatOf items = fmt := by
  induction hlength : fmt.length using Nat.strong_induction_on generalizing fmt with
  | _ n ih =>
      subst hlength
      cases fmt with
      | nil => exact ⟨[], trivial, rfl⟩
      | cons c fmt =>
          by_cases hc : c = 37
          · subst hc
            obtain ⟨d, rest, rfl, hd, hrest⟩ := directive_exists fmt
            obtain ⟨items, hitems, rfl⟩ := ih rest.length
              (by rw [List.length_cons, List.length_append]; omega) rest rfl
            refine ⟨.directive d :: items, ⟨hd, fun hnone => ?_, hitems⟩, rfl⟩
            -- a piece has a text
            have hempty := hrest hnone
            cases items with
            | nil => rfl
            | cons item items => cases item <;> cases hempty
          · obtain ⟨items, hitems, rfl⟩ := ih fmt.length (Nat.lt_succ_self _) fmt rfl
            exact ⟨.char c :: items, ⟨hc, hitems⟩, rfl⟩

theorem format_injective {items items' : List Item} (h : WellFormed items) (h' : WellFormed items')
    (heq : formatOf items = formatOf items') : items = items' := by
  induction items generalizing items' with
  | nil =>
      cases items' with
      | nil => rfl
      | cons item items' => cases item <;> cases heq
  | cons item items ih =>
      cases items' with
      | nil => cases item <;> cases heq
      | cons item' items' =>
          cases item with
          | char c =>
              cases item' with
              | char c' =>
                  obtain ⟨rfl, htail⟩ := List.cons.inj heq
                  rw [ih h.2 h'.2 htail]
              | directive d' => exact absurd (List.cons.inj heq).1 h.1
          | directive d =>
              cases item' with
              | char c' => exact absurd (List.cons.inj heq).1.symm h'.1
              | directive d' =>
                  obtain ⟨hd, hitems, hwf⟩ := h
                  obtain ⟨hd', hitems', hwf'⟩ := h'
                  obtain ⟨rfl, htail⟩ := directive_unique hd hd'
                    (fun hnone => by rw [hitems hnone]; rfl)
                    (fun hnone => by rw [hitems' hnone]; rfl) (List.cons.inj heq).2
                  rw [ih hwf hwf' htail]

/-- **EVERY FORMAT IS READ IN ONE WAY**: each sequence of characters is the text of one
    list of well-formed pieces. -/
theorem format_unique (fmt : Str) : ∃! items, WellFormed items ∧ formatOf items = fmt := by
  obtain ⟨items, hitems, rfl⟩ := format_exists fmt
  exact ⟨items, ⟨hitems, rfl⟩, fun items' h => format_injective h.1 hitems h.2⟩

/-! ## What a directive prints -/

def digitsValue (ds : List (Fin 10)) : Nat := ds.foldl (fun v d => v * 10 + d.val) 0

section Printed

variable (a : Arguments)

/-- A size, with the next word at `args`. -/
def sizeValue (args : Nat) : Size → Int
  | .absent => -1
  | .digits ds => digitsValue ds
  | .star => (a.word args).toInt

/-- The words a size takes. -/
def sizeWords : Size → Nat
  | .star => 1
  | _ => 0

def widthOf (args : Nat) : Size → Int
  | .star => (a.word args).toInt.natAbs
  | size => sizeValue a args size

/-- The flags, to which a negative width from the words adds the left one. -/
def flagsOf (args : Nat) (d : Directive) : Flags :=
  let flags := d.flags.foldl Flag.set noFlags
  if d.width = .star ∧ (a.word args).toInt < 0 then { flags with left := true } else flags

def precisionOf (args : Nat) : Option Size → Int
  | none => -1
  | some size => max 0 (sizeValue a args size)

/-- Characters in a width, with blanks before or behind them. -/
def justify (left : Bool) (width : Int) (s : Str) : Str :=
  let blanks := List.replicate (width - s.length).toNat 32
  if left then s ++ blanks else blanks ++ s

/-- The characters a conversion prints for a word. -/
def conversionText (flags : Flags) (width precision : Int) (word : BitVec 32) (c : Byte) : Str :=
  let field (base : Nat) (flags : Flags) := (fieldOf word base precision flags).place flags width
  if c = 99 then justify flags.left width [word.setWidth 8]
  else if c = 115 then
    justify flags.left width
      (if precision < 0 then a.string word else (a.string word).take precision.toNat)
  else if c = 111 then field 8 flags
  else if c = 112 then
    if width = -1 then
      let flags := { flags with zeropad := true }
      (fieldOf word 16 precision flags).place flags 8
    else field 16 flags
  else if c = 120 then field 16 { flags with small := true }
  else if c = 88 then field 16 flags
  else if c = 100 ∨ c = 105 then field 10 { flags with sign := true }
  else if c = 117 then field 10 flags
  else if c = 110 then []
  else if c = 37 then [37]
  else [37, c]

/-- The conversions that take a word. -/
def takesWord (c : Byte) : Bool :=
  decide (c = 99 ∨ c = 115 ∨ c = 111 ∨ c = 112 ∨ c = 120 ∨ c = 88 ∨ (c = 100 ∨ c = 105) ∨
    c = 117 ∨ c = 110)

/-- What a conversion does. -/
def convertWrite (flags : Flags) (width precision : Int) (c : Byte) (o : Output) : Output :=
  { str := o.str ++ conversionText a flags width precision (a.word o.args) c
    args := if takesWord c then o.args + 1 else o.args
    stores := if c = 110 then o.stores ++ [(a.word o.args, int32 o.str.length)] else o.stores }

/-- What a piece of a format does. -/
def write (o : Output) : Item → Output
  | .char c => o.put [c] 0
  | .directive d =>
      let args := o.args + sizeWords d.width
      let next := args + d.precision.elim 0 sizeWords
      match d.conversion with
      | none => { o with str := o.str ++ [37], args := next }
      | some c => convertWrite a (flagsOf a o.args d) (widthOf a o.args d.width)
          (precisionOf a args d.precision) c { o with args := next }

/-- The sizes of a directive stay clear of the bounds of an `int`. -/
structure SizesFit (args : Nat) (d : Directive) : Prop where
  width : widthOf a args d.width < 2 ^ 31
  precision : precisionOf a (args + sizeWords d.width) d.precision < 2 ^ 31 - 8

/-- The sizes of all directives do, where the words are the ones they get. -/
def Fits : Output → List Item → Prop
  | _, [] => True
  | o, item :: items =>
      (∀ d, item = .directive d → SizesFit a o.args d) ∧ Fits (write a o item) items

end Printed

variable {a : Arguments}

theorem flagLoop_text (fs : List Flag) (flags : Flags) {rest : Str} (h : Stops IsFlag rest) :
    flagLoop (fs.map Flag.char ++ rest) flags = (fs.foldl Flag.set flags, rest) := by
  induction fs generalizing flags with
  | nil =>
      cases rest with
      | nil => rfl
      | cons c rest =>
          have hc : ∀ f : Flag, ¬ c = f.char := fun f hf => stops_cons.mp h ⟨f, hf.symm⟩
          have hleft : ¬ c = 45 := hc .left
          have hplus : ¬ c = 43 := hc .plus
          have hspace : ¬ c = 32 := hc .space
          have hspecial : ¬ c = 35 := hc .special
          have hzero : ¬ c = 48 := hc .zero
          rw [List.map_nil, List.nil_append, flagLoop, if_neg hleft, if_neg hplus, if_neg hspace,
            if_neg hspecial, if_neg hzero]
          rfl
  | cons f fs ih => cases f <;> exact ih _

theorem le_digitsValue (ds : List (Fin 10)) (i : Nat) :
    i ≤ ds.foldl (fun v d => v * 10 + d.val) i := by
  induction ds generalizing i with
  | nil => exact le_refl _
  | cons d ds ih => exact le_trans (by omega) (ih (i * 10 + d.val))

theorem skip_atoi_text (ds : List (Fin 10)) (i : Nat) {rest : Str}
    (hstop : Stops (fun c => is_digit c = true) rest)
    (h : ds.foldl (fun v d => v * 10 + d.val) i < 2 ^ 31) :
    skip_atoi (ds.map digitChar ++ rest) i =
      (((ds.foldl (fun v d => v * 10 + d.val) i : Nat) : Int), rest) := by
  induction ds generalizing i with
  | nil =>
      cases rest with
      | nil => rfl
      | cons c rest =>
          rw [List.map_nil, List.nil_append, skip_atoi, if_neg (stops_cons.mp hstop)]
          rfl
  | cons d ds ih =>
      have hle := le_digitsValue ds (i * 10 + d.val)
      have hlt : i * 10 + d.val < 2 ^ 31 := lt_of_le_of_lt hle h
      have hchar : (digitChar d).toNat = 48 + d.val := by
        rw [digitChar, BitVec.toNat_ofNat]
        have hd := d.isLt
        omega
      have hten : int32 ((i : Int) * 10) = (i : Int) * 10 := int32_of_range (by omega) (by omega)
      have hstep : int32 (int32 ((i : Int) * 10) + (digitChar d).toNat - 48) =
          ((i * 10 + d.val : Nat) : Int) := by
        rw [hchar, hten, int32_of_range (by omega) (by omega)]
        omega
      rw [List.map_cons, List.cons_append, skip_atoi, if_pos (is_digit_digitChar d), hstep]
      exact ih (i * 10 + d.val) h

/-- Digits in a format are read by `skip_atoi`. -/
theorem digits_text {ds : List (Fin 10)} {rest : Str} (hends : Ends (.digits ds) rest)
    (h : digitsValue ds < 2 ^ 31) :
    (∃ c s, ds.map digitChar ++ rest = c :: s ∧ is_digit c = true) ∧
      skip_atoi (ds.map digitChar ++ rest) 0 = ((digitsValue ds : Int), rest) := by
  refine ⟨?_, skip_atoi_text ds 0 hends.2 h⟩
  obtain ⟨d, ds, rfl⟩ := List.exists_cons_of_ne_nil hends.1
  exact ⟨digitChar d, _, rfl, is_digit_digitChar d⟩

theorem fieldWidth_text (args : Nat) (flags : Flags) {size : Size} {rest : Str}
    (hends : Ends size rest) (hfit : widthOf a args size < 2 ^ 31) :
    fieldWidth a args flags (size.text ++ rest) =
      (widthOf a args size,
        if size = .star ∧ (a.word args).toInt < 0 then { flags with left := true } else flags,
        args + sizeWords size, rest) := by
  cases size with
  | absent =>
      cases rest with
      | nil => rfl
      | cons c rest =>
          have hc := stops_cons.mp hends
          have hshow : fieldWidth a args flags (c :: rest) = (-1, flags, args, c :: rest) := by
            rw [fieldWidth, if_neg fun h => hc (Or.inl h), if_neg fun h => hc (Or.inr h)]
          exact hshow
  | digits ds =>
      obtain ⟨⟨c, s, hs, hc⟩, hskip⟩ := digits_text hends (Int.ofNat_lt.mp hfit)
      show fieldWidth a args flags (ds.map digitChar ++ rest) = (_, flags, args, rest)
      rw [hs] at hskip ⊢
      rw [fieldWidth, if_pos hc, hskip]
      rfl
  | star =>
      have hword : (a.word args).toInt.natAbs < 2 ^ 31 := Int.ofNat_lt.mp hfit
      show fieldWidth a args flags (42 :: rest) = (((a.word args).toInt.natAbs : Int), _, args + 1, rest)
      rw [fieldWidth, if_neg (by decide), if_pos rfl]
      by_cases hneg : (a.word args).toInt < 0
      · rw [if_pos hneg, if_pos ⟨rfl, hneg⟩, int32_of_range (by omega) (by omega)]
        congr 1
        omega
      · rw [if_neg hneg, if_neg fun h => hneg h.2]
        congr 1
        omega

theorem pointNumber_text (args : Nat) {size : Size} {rest : Str} (hends : Ends size rest)
    (hfit : sizeValue a args size < 2 ^ 31) :
    pointNumber a args (size.text ++ rest) =
      (sizeValue a args size, args + sizeWords size, rest) := by
  cases size with
  | absent =>
      cases rest with
      | nil => rfl
      | cons c rest =>
          have hc := stops_cons.mp hends
          have hshow : pointNumber a args (c :: rest) = (-1, args, c :: rest) := by
            rw [pointNumber, if_neg fun h => hc (Or.inl h), if_neg fun h => hc (Or.inr h)]
          exact hshow
  | digits ds =>
      obtain ⟨⟨c, s, hs, hc⟩, hskip⟩ := digits_text hends (Int.ofNat_lt.mp hfit)
      show pointNumber a args (ds.map digitChar ++ rest) = (_, args, rest)
      rw [hs] at hskip ⊢
      rw [pointNumber, if_pos hc, hskip]
      rfl
  | star =>
      show pointNumber a args (42 :: rest) = ((a.word args).toInt, args + 1, rest)
      rw [pointNumber, if_neg (by decide), if_pos rfl]

theorem precisionField_text (args : Nat) {point : Option Size} {rest : Str}
    (hends : PointEnds point rest) (hfit : precisionOf a args point < 2 ^ 31 - 8) :
    precisionField a args (pointText point ++ rest) =
      (precisionOf a args point, args + point.elim 0 sizeWords, rest) := by
  cases point with
  | none =>
      cases rest with
      | nil => rfl
      | cons c rest =>
          have hshow : precisionField a args (c :: rest) = (-1, args, c :: rest) := by
            rw [precisionField, if_neg (stops_cons.mp hends)]
          exact hshow
  | some size =>
      have hsize : sizeValue a args size < 2 ^ 31 := by
        have hle : sizeValue a args size ≤ precisionOf a args (some size) := le_max_right 0 _
        omega
      show precisionField a args (46 :: (size.text ++ rest)) = _
      rw [precisionField, if_pos rfl, pointNumber_text args hends hsize]
      show ((if sizeValue a args size < 0 then 0 else sizeValue a args size), _, _) =
        (max 0 (sizeValue a args size), _, _)
      congr 1
      split_ifs <;> omega

theorem skipQualifier_text {d : Directive} {rest : Str} (h : Regular d)
    (hrest : d.conversion = none → rest = []) :
    skipQualifier (d.ending ++ rest) = d.conversion.toList ++ rest := by
  rw [Directive.ending]
  cases hq : d.qualifier with
  | none =>
      have hstop := h.conversion hq
      cases hconversion : d.conversion with
      | none =>
          rw [hrest hconversion]
          rfl
      | some c =>
          rw [hconversion] at hstop
          show skipQualifier (c :: rest) = c :: rest
          exact if_neg (stops_cons.mp hstop)
  | some q => exact if_pos (h.qualifier q hq)

/-! ## The fields of the conversions -/

theorem blanksBefore_eq (n : Nat) : ∀ size : Int, size.toNat = n → -2 ^ 31 < size →
    size < 2 ^ 31 →
    blanksBefore n size =
      (List.replicate (size - 1).toNat 32, if 1 < size then 0 else size - 1) := by
  induction n with
  | zero =>
      intro size hsize hlow hhigh
      rw [blanksBefore, int32_of_range (by omega) (by omega), if_neg (by omega),
        Int.toNat_of_nonpos (by omega)]
      rfl
  | succ n ih =>
      intro size hsize hlow hhigh
      rw [blanksBefore, int32_of_range (by omega) (by omega)]
      by_cases hone : size - 1 > 0
      · rw [if_pos hone, ih (size - 1) (by omega) (by omega) (by omega), if_pos (by omega : 1 < size),
          show (size - 1).toNat = (size - 1 - 1).toNat + 1 by omega, List.replicate_succ]
        have hlast : (if 1 < size - 1 then (0 : Int) else size - 1 - 1) = 0 := by split_ifs <;> omega
        rw [hlast]
      · rw [if_neg hone, if_neg (by omega), Int.toNat_of_nonpos (by omega)]
        rfl

theorem charField_eq (c : Byte) {width : Int} (flags : Flags) (h : -1 ≤ width ∧ width < 2 ^ 31) :
    charField c width flags = justify flags.left width [c] := by
  have hone := blanksBefore_eq _ width rfl (by omega) h.2
  rw [charField, justify, List.length_singleton]
  cases hleft : flags.left with
  | true =>
      simp only [Bool.not_true, Bool.false_eq_true, if_true, if_false, hone, List.nil_append]
      rfl
  | false =>
      have hnext : (if 1 < width then 0 else width - 1) ≤ 0 ∧
          -2 ^ 31 < (if 1 < width then 0 else width - 1) := by
        split_ifs <;> omega
      have htwo := blanksBefore_eq _ (if 1 < width then 0 else width - 1) rfl hnext.2 (by omega)
      simp only [Bool.not_false, Bool.false_eq_true, if_true, if_false, hone, htwo]
      rw [Int.toNat_of_nonpos (by omega : (if 1 < width then 0 else width - 1) - 1 ≤ 0),
        List.replicate_zero, List.append_nil]
      rfl

theorem stringField_eq (s : Str) {width precision : Int} (flags : Flags)
    (h : -1 ≤ width ∧ width < 2 ^ 31) (hs : (s.length : Int) < 2 ^ 31) :
    stringField s width precision flags =
      justify flags.left width (if precision < 0 then s else s.take precision.toNat) := by
  -- `len` is the length of what is printed
  have hlen : s.take (if precision < 0 then (s.length : Int) else if (s.length : Int) > precision
      then precision else s.length).toNat = (if precision < 0 then s else s.take precision.toNat) ∧
      (if precision < 0 then (s.length : Int) else if (s.length : Int) > precision then precision
      else s.length) = (if precision < 0 then s else s.take precision.toNat).length := by
    split_ifs with hneg hlong
    · exact ⟨by rw [Int.toNat_natCast, List.take_length], rfl⟩
    · refine ⟨rfl, ?_⟩
      rw [List.length_take]
      omega
    · rw [Int.toNat_natCast, List.take_length, List.take_of_length_le (by omega)]
      exact ⟨rfl, rfl⟩
  obtain ⟨htake, hlen⟩ := hlen
  have hshort : (if precision < 0 then s else s.take precision.toNat).length ≤ s.length := by
    split_ifs
    · exact le_refl _
    · exact List.length_take_le' _ _
  rw [stringField, justify]
  dsimp only
  rw [htake, hlen]
  generalize (if precision < 0 then s else s.take precision.toNat) = out at hshort ⊢
  have hone := fill_eq 32 (by omega : -2 ^ 31 < (out.length : Int)) (by omega : -2 ^ 31 < width) h.2
  cases hleft : flags.left with
  | true =>
      simp only [Bool.not_true, Bool.false_eq_true, if_true, if_false, hone, List.nil_append]
  | false =>
      have hnext : (if (out.length : Int) < width then (out.length : Int) - 1 else width - 1) ≤
          out.length := by
        split_ifs <;> omega
      have htwo := fill_none 32 (by split_ifs <;> omega) hnext (by omega)
      simp only [Bool.not_false, Bool.false_eq_true, if_true, if_false, hone, htwo, List.append_nil]

/-! ## The directives -/

theorem putNumber_eq (o : Output) {base : Nat} {width precision : Int} (flags : Flags)
    (hbase : 2 ≤ base ∧ base ≤ 36) (h : -1 ≤ width ∧ width < 2 ^ 31)
    (hp : precision < 2 ^ 31 - 8) :
    putNumber a o base width precision flags =
      .ok (o.put ((fieldOf (a.word o.args) base precision flags).place flags width) 1) := by
  rw [putNumber, number_eq (a.word o.args) flags hbase h hp]

theorem convert_text (flags : Flags) {width precision : Int} (c : Byte) (rest : Str) (o : Output)
    (hstring : ∀ w, ((a.string w).length : Int) < 2 ^ 31) (h : -1 ≤ width ∧ width < 2 ^ 31)
    (hp : precision < 2 ^ 31 - 8) :
    convert a flags width precision (c :: rest) o =
      .ok (convertWrite a flags width precision c o, rest) := by
  have hnumber : ∀ {base : Nat} (flags : Flags), 2 ≤ base ∧ base ≤ 36 →
      (putNumber a o base width precision flags >>= fun o => .ok (o, rest)) =
        .ok (o.put ((fieldOf (a.word o.args) base precision flags).place flags width) 1, rest) :=
    fun flags hbase => by rw [putNumber_eq o flags hbase h hp, bind_ok]
  have height : 2 ≤ 8 ∧ 8 ≤ 36 := ⟨by decide, by decide⟩
  have hten : 2 ≤ 10 ∧ 10 ≤ 36 := ⟨by decide, by decide⟩
  have hsixteen : 2 ≤ 16 ∧ 16 ≤ 36 := ⟨by decide, by decide⟩
  by_cases h99 : c = 99
  · subst h99
    show Except.ok (o.put (charField ((a.word o.args).setWidth 8) width flags) 1, rest) = _
    rw [charField_eq _ flags h]
    rfl
  by_cases h115 : c = 115
  · subst h115
    show Except.ok (o.put (stringField (a.string (a.word o.args)) width precision flags) 1, rest) = _
    rw [stringField_eq _ flags h (hstring _)]
    rfl
  by_cases h111 : c = 111
  · subst h111
    exact hnumber flags height
  by_cases h112 : c = 112
  · subst h112
    let changed := if width = -1 then (8, { flags with zeropad := true }) else (width, flags)
    show (putNumber a o 16 changed.1 precision changed.2 >>= fun o => .ok (o, rest)) = _
    by_cases hwidth : width = -1
    · have hchanged : changed = (8, { flags with zeropad := true }) := if_pos hwidth
      have hfield := putNumber_eq (a := a) o { flags with zeropad := true } hsixteen
        (by decide : (-1 : Int) ≤ 8 ∧ (8 : Int) < 2 ^ 31) hp
      rw [hchanged, show (16 : Int) = (16 : Nat) from rfl, hfield, hwidth]
      rfl
    · have hchanged : changed = (width, flags) := if_neg hwidth
      have hsame : conversionText a flags width precision (a.word o.args) 112 =
          (fieldOf (a.word o.args) 16 precision flags).place flags width := if_neg hwidth
      rw [hchanged, convertWrite, hsame]
      exact hnumber flags hsixteen
  by_cases h120 : c = 120
  · subst h120
    exact hnumber { flags with small := true } hsixteen
  by_cases h88 : c = 88
  · subst h88
    exact hnumber flags hsixteen
  by_cases h100 : c = 100 ∨ c = 105
  · rcases h100 with rfl | rfl
    · exact hnumber { flags with sign := true } hten
    · exact hnumber { flags with sign := true } hten
  by_cases h117 : c = 117
  · subst h117
    exact hnumber flags hten
  by_cases h110 : c = 110
  · subst h110
    show Except.ok (_, rest) = Except.ok (convertWrite a flags width precision 110 o, rest)
    have hnothing : conversionText a flags width precision (a.word o.args) 110 = [] := rfl
    rw [convertWrite, hnothing, List.append_nil]
    rfl
  have htakes : takesWord c = false := by
    refine decide_eq_false ?_
    rintro (h | h | h | h | h | h | h | h | h) <;> contradiction
  rw [convertWrite, htakes, if_neg Bool.false_ne_true, if_neg h110, conversionText, if_neg h99,
    if_neg h115, if_neg h111, if_neg h112, if_neg h120, if_neg h88, if_neg h100, if_neg h117,
    if_neg h110, convert, if_neg h99, if_neg h115, if_neg h111, if_neg h112, if_neg h120,
    if_neg h88, if_neg h100, if_neg h117, if_neg h110]
  by_cases h37 : c = 37
  · subst h37
    rfl
  · rw [if_pos h37, if_neg h37]
    rfl

theorem widthOf_ge (args : Nat) (size : Size) : -1 ≤ widthOf a args size := by
  cases size with
  | absent => exact le_refl _
  | digits ds => exact le_trans (by decide) (Int.natCast_nonneg _)
  | star => exact le_trans (by decide) (Int.natCast_nonneg _)

/-- A directive does what its piece stands for, and leaves the rest of the format. -/
theorem directive_text {d : Directive} {rest : Str} {o : Output} (hd : Regular d)
    (hrest : d.conversion = none → rest = []) (hfit : SizesFit a o.args d)
    (hstring : ∀ w, ((a.string w).length : Int) < 2 ^ 31) :
    directive a (d.text ++ rest) o = .ok (write a o (.directive d), rest) := by
  have hempty : d.ending = [] → rest = [] := fun h => hrest (ending_nil h)
  have hflags := flagLoop_text d.flags noFlags ((stops_append fun h => hempty
    (List.append_eq_nil_iff.mp (List.append_eq_nil_iff.mp h).2).2).mpr hd.flags)
  have hwidth := fieldWidth_text o.args (d.flags.foldl Flag.set noFlags)
    ((ends_append fun h => hempty (List.append_eq_nil_iff.mp h).2).mpr hd.width) hfit.width
  have hpoint := precisionField_text (o.args + sizeWords d.width)
    ((pointEnds_append hempty).mpr hd.precision) hfit.precision
  have htext : d.text ++ rest = d.flags.map Flag.char ++
      (d.width.text ++ (pointText d.precision ++ (d.ending ++ rest))) := by
    rw [Directive.text, Directive.sizes, List.append_assoc, List.append_assoc, List.append_assoc]
  rw [List.append_assoc, List.append_assoc] at hflags
  rw [List.append_assoc] at hwidth
  rw [directive, htext, hflags]
  dsimp only
  rw [hwidth]
  dsimp only
  rw [hpoint]
  dsimp only
  rw [skipQualifier_text hd hrest]
  cases hconversion : d.conversion with
  | none =>
      rw [hrest hconversion, write, hconversion]
      rfl
  | some c =>
      show convert a _ _ _ (c :: rest) _ = _
      rw [convert_text _ c rest _ hstring ⟨widthOf_ge o.args d.width, hfit.width⟩ hfit.precision,
        write, hconversion]
      rfl

theorem formatLoop_text {items : List Item} (hstring : ∀ w, ((a.string w).length : Int) < 2 ^ 31) :
    ∀ {turns : Nat} {o : Output}, WellFormed items → Fits a o items →
      (formatOf items).length ≤ turns →
      formatLoop a turns (formatOf items) o = .ok (items.foldl (write a) o) := by
  induction items with
  | nil =>
      intro turns o _ _ _
      cases turns <;> rfl
  | cons item items ih =>
      intro turns o hwf hfit hturns
      cases item with
      | char c =>
          cases turns with
          | zero => cases hturns
          | succ turns =>
              show formatLoop a (turns + 1) (c :: formatOf items) o = _
              rw [formatLoop, if_pos hwf.1]
              exact ih hwf.2 hfit.2 (Nat.le_of_succ_le_succ hturns)
      | directive d =>
          cases turns with
          | zero => cases hturns
          | succ turns =>
              obtain ⟨hd, hlast, hwf⟩ := hwf
              have hrest : d.conversion = none → formatOf items = [] := fun h => by
                rw [hlast h]
                rfl
              have hlength : (d.text ++ formatOf items).length ≤ turns :=
                Nat.le_of_succ_le_succ hturns
              rw [List.length_append] at hlength
              show formatLoop a (turns + 1) (37 :: (d.text ++ formatOf items)) o = _
              rw [formatLoop, if_neg (not_not_intro rfl),
                directive_text hd hrest (hfit.1 d rfl) hstring, bind_ok]
              exact ih hwf hfit.2 (by omega)

/-- **FORMATS PRINT THEIR PIECES**: over the only reading of its format, `vsprintf` stores
    what the pieces print, one after the other, with each word taken once and in order;
    it returns exactly when that is shorter than the buffer of its callers. -/
theorem vsprintf_prints (a : Arguments) {items : List Item} (hwf : WellFormed items)
    (hfit : Fits a ⟨[], 0, []⟩ items) (hstring : ∀ w, ((a.string w).length : Int) < 2 ^ 31)
    (hlength : ((items.foldl (write a) ⟨[], 0, []⟩).str.length : Int) < 2 ^ 31) :
    let o := items.foldl (write a) ⟨[], 0, []⟩
    vsprintf a (formatOf items) =
      if o.str.length < 1024 then .ok o else .error .assertion := by
  have hloop := formatLoop_text hstring hwf hfit (le_refl _)
  have hint := int32_of_range (by omega) hlength
  dsimp only
  rw [vsprintf, hloop, bind_ok, hint]
  by_cases hshort : (items.foldl (write a) ⟨[], 0, []⟩).str.length < 1024
  · rw [check_pos (by omega), if_pos hshort, bind_ok]
    rfl
  · rw [check_neg (by omega), if_neg hshort]
    rfl

/-- `%-5d`. -/
def leftDecimal : Directive := ⟨[.left], .digits [5], none, none, some 100⟩

theorem leftDecimal_regular : Regular leftDecimal := by
  refine ⟨stops_cons.mpr ?_, ⟨List.cons_ne_nil _ _, stops_cons.mpr (by decide)⟩,
    stops_cons.mpr (by decide), ?_, fun _ => stops_cons.mpr ?_⟩
  · rintro ⟨f, hf⟩
    cases f <;> exact absurd hf (by decide)
  · rintro c ⟨⟩
  · rintro (h | h | h) <;> exact absurd h (by decide)

theorem vsprintf_prints_left :
    vsprintf ⟨fun _ => 0xffffffd6, fun _ => []⟩ [37, 45, 53, 100] =
      .ok ⟨[45, 52, 50, 32, 32], 1, []⟩ :=
  @vsprintf_prints ⟨fun _ => 0xffffffd6, fun _ => []⟩ [.directive leftDecimal]
    ⟨leftDecimal_regular, fun _ => rfl, trivial⟩
    ⟨by rintro d ⟨⟩; exact ⟨by decide, by decide⟩, trivial⟩
    (fun _ => show ((0 : Nat) : Int) < 2 ^ 31 by decide) (by decide)

end NeonixFormatTexts
