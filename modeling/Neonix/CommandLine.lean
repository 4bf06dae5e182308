import Neonix.Strings

/-! # `builtin/neosh.c`: the command line of the shell

    One loop skips what is between the arguments and inside the quotes, and the
    arguments are ended in place.  The loop knows no end of the line inside
    quotes, and the place of the last `NULL` is not bounded. -/

namespace NeonixCommandLine

open NeonixByteBits NeonixMachine NeonixStrings

def MAX_ARG_NR : Nat := 16

/-- `' '` and `'"'`. -/
def SPACE : Byte := 0x20
def QUOTE : Byte := 0x22

/-- The line in memory, `args`, and the locals of `cmd_parse`. -/
structure Parse where
  cmd : Nat → Byte
  argv : Nat → Option Nat
  next : Nat
  argc : Nat
  quot : Bool

/-- `*next`, where the terminator of the line is at `n`. -/
def load (n : Nat) (cmd : Nat → Byte) (next : Nat) : Res Byte :=
  if next ≤ n then .ok (cmd next) else .error .outOfBounds

/-- `argv[i] = arg`. -/
def Parse.setArg (s : Parse) (i : Nat) (arg : Option Nat) : Res Parse :=
  if i < MAX_ARG_NR then .ok { s with argv := Function.update s.argv i arg } else .error .outOfBounds

/-- The first inner loop of `cmd_parse`, in at most so many turns. -/
def skipLoop (n : Nat) (cmd : Nat → Byte) (quot : Bool) : (turns : Nat) → (next : Nat) → Res Nat
  | 0, _ => .error .outOfBounds
  | turns + 1, next => do
      let c ← load n cmd next
      if c = SPACE ∨ (quot = true ∧ c ≠ QUOTE) then skipLoop n cmd quot turns (next + 1)
      else return next

/-- The second one. -/
def wordLoop (n : Nat) (cmd : Nat → Byte) : (turns : Nat) → (next : Nat) → Res Nat
  | 0, _ => .error .outOfBounds
  | turns + 1, next => do
      let c ← load n cmd next
      if c ≠ 0 ∧ c ≠ SPACE then wordLoop n cmd turns (next + 1) else return next

/-- How a turn of the outer loop ends. -/
inductive Turn where
  | goes (s : Parse)
  | breaks (s : Parse)

/-- A turn of the outer loop, with inner loops of so many turns. -/
def turn (n turns : Nat) (s : Parse) : Res Turn := do
  let next ← skipLoop n s.cmd s.quot turns s.next
  let c ← load n s.cmd next
  if c = 0 then return .breaks { s with next := next }
  else if c = QUOTE then
    if s.quot = false then
      let s ← s.setArg s.argc (some (next + 1))
      return .goes { s with quot := true, next := next + 1, argc := s.argc + 1 }
    else
      return .goes { s with quot := false, cmd := Function.update s.cmd next 0, next := next + 1 }
  else
    let s ← s.setArg s.argc (some next)
    let next ← wordLoop n s.cmd turns next
    let c ← load n s.cmd next
    if c ≠ 0 then
      return .goes { s with
        cmd := Function.update s.cmd next 0, next := next + 1, argc := s.argc + 1 }
    else return .goes { s with next := next, argc := s.argc + 1 }

/-- The outer loop. -/
def parseLoop (n turns : Nat) : (outer : Nat) → Parse → Res Parse
  | 0, _ => .error .outOfBounds
  | outer + 1, s => do
      let c ← load n s.cmd s.next
      if c ≠ 0 ∧ s.argc < MAX_ARG_NR then
        match ← turn n turns s with
        | .goes s => parseLoop n turns outer s
        | .breaks s => return s
      else return s

/-- `cmd_parse`, whose loops have so many turns; the terminator of the line is at
    `n`. -/
def cmdParse (n turns : Nat) (cmd : Nat → Byte) (argv : Nat → Option Nat) : Res Parse := do
  let s ← parseLoop n turns turns { cmd := cmd, argv := argv, next := 0, argc := 0, quot := false }
  s.setArg s.argc none

/-! ## The grammar -/

/-- An argument without quotes. -/
structure Word (w : List Byte) : Prop where
  ne_nil : w ≠ []
  head : w.head? ≠ some QUOTE
  plain : SPACE ∉ w

/-- The arguments of a line: maximal runs of characters other than blanks, and
    quoted strings, of which the last may have no second quote; `left` is how many
    characters stand behind a quote that is not closed. -/
inductive Tokens : List Byte → List (List Byte) → (left : Nat) → Prop where
  | blank (g : List Byte) : (∀ c ∈ g, c = SPACE) → Tokens g [] 0
  | quoted (g w : List Byte) {rest : List Byte} {ts : List (List Byte)} {left : Nat} :
      (∀ c ∈ g, c = SPACE) → QUOTE ∉ w → Tokens rest ts left →
      Tokens (g ++ QUOTE :: (w ++ QUOTE :: rest)) (w :: ts) left
  | unclosed (g w : List Byte) : (∀ c ∈ g, c = SPACE) → QUOTE ∉ w →
      Tokens (g ++ QUOTE :: w) [w] w.length
  | word (g w : List Byte) {rest : List Byte} {ts : List (List Byte)} {left : Nat} :
      (∀ c ∈ g, c = SPACE) → Word w → Tokens rest ts left →
      Tokens (g ++ (w ++ SPACE :: rest)) (w :: ts) left
  | last (g w : List Byte) : (∀ c ∈ g, c = SPACE) → Word w → Tokens (g ++ w) [w] 0

/-- What `cmd_parse` is to do with a line of these arguments. -/
def Parses (n turns : Nat) (cmd : Nat → Byte) (argv : Nat → Option Nat) (ts : List (List Byte)) :
    Prop :=
  ∃ s, cmdParse n turns cmd argv = .ok s ∧ s.argc = ts.length ∧ s.argv s.argc = none ∧
    ∀ (i : Nat) (h : i < ts.length), ∃ p, s.argv i = some p ∧ StringAt s.cmd p ts[i]

variable {n p q turns outer left : Nat} {cmd cmd' : Nat → Byte} {argv : Nat → Option Nat}
  {s s' : Parse} {c : Byte} {g u v w line rest : List Byte} {ts : List (List Byte)}

theorem load_ok (h : p ≤ n) : load n cmd p = .ok (cmd p) := if_pos h

/-! ## The inner loops -/

/-- The first loop goes over characters it passes, up to one it does not. -/
theorem skipLoop_eq {quot : Bool} (hu : CharsAt cmd p u) (hn : p + u.length ≤ n)
    (hpass : ∀ c ∈ u, c = SPACE ∨ (quot = true ∧ c ≠ QUOTE))
    (hstop : ¬ (cmd (p + u.length) = SPACE ∨ (quot = true ∧ cmd (p + u.length) ≠ QUOTE)))
    (hturns : u.length < turns) : skipLoop n cmd quot turns p = .ok (p + u.length) := by
  induction u generalizing p turns with
  | nil =>
      obtain ⟨k, rfl⟩ := Nat.exists_eq_succ_of_ne_zero (Nat.ne_zero_of_lt hturns)
      rw [List.length_nil, Nat.add_zero] at hn hstop ⊢
      rw [skipLoop, load_ok hn]
      exact if_neg hstop
  | cons c u ih =>
      obtain ⟨k, rfl⟩ := Nat.exists_eq_succ_of_ne_zero (Nat.ne_zero_of_lt hturns)
      rw [List.length_cons] at hn hstop hturns ⊢
      rw [skipLoop, load_ok (by omega), bind_ok, hu.1.1, if_pos (hpass c List.mem_cons_self)]
      have hshift : p + (u.length + 1) = p + 1 + u.length := by omega
      rw [hshift] at hn hstop ⊢
      exact ih hu.2 hn (fun c hc => hpass c (List.mem_cons_of_mem _ hc)) hstop (by omega)

/-- Inside quotes the loop goes on behind the end of the line. -/
theorem skipLoop_past (hu : CharsAt cmd p u) (hn : p + u.length = n) (hend : cmd n = 0)
    (hquote : QUOTE ∉ u) (turns : Nat) : skipLoop n cmd true turns p = .error .outOfBounds := by
  induction turns generalizing p u with
  | zero => rfl
  | succ turns ih =>
      cases u with
      | nil =>
          rw [List.length_nil, Nat.add_zero] at hn
          rw [skipLoop, load_ok (Nat.le_of_eq hn), bind_ok, hn, hend,
            if_pos (.inr ⟨rfl, by decide⟩)]
          cases turns with
          | zero => rfl
          | succ turns =>
              rw [skipLoop, load, if_neg (by omega)]
              rfl
      | cons c u =>
          rw [List.length_cons] at hn
          have hne : c ≠ QUOTE := fun heq => hquote (heq ▸ List.mem_cons_self)
          rw [skipLoop, load_ok (by omega), bind_ok, hu.1.1, if_pos (.inr ⟨rfl, hne⟩)]
          exact ih hu.2 (by omega) fun h => hquote (List.mem_cons_of_mem _ h)

/-- The second loop goes to the end of the word. -/
theorem wordLoop_eq (hu : CharsAt cmd p u) (hn : p + u.length ≤ n) (hplain : SPACE ∉ u)
    (hstop : cmd (p + u.length) = 0 ∨ cmd (p + u.length) = SPACE) (hturns : u.length < turns) :
    wordLoop n cmd turns p = .ok (p + u.length) := by
  induction u generalizing p turns with
  | nil =>
      obtain ⟨k, rfl⟩ := Nat.exists_eq_succ_of_ne_zero (Nat.ne_zero_of_lt hturns)
      rw [List.length_nil, Nat.add_zero] at hn hstop ⊢
      rw [wordLoop, load_ok hn]
      exact if_neg fun h => hstop.elim h.1 h.2
  | cons c u ih =>
      obtain ⟨k, rfl⟩ := Nat.exists_eq_succ_of_ne_zero (Nat.ne_zero_of_lt hturns)
      rw [List.length_cons] at hn hstop hturns ⊢
      have hne : c ≠ SPACE := fun heq => hplain (heq ▸ List.mem_cons_self)
      rw [wordLoop, load_ok (by omega), bind_ok, hu.1.1, if_pos ⟨hu.1.2, hne⟩]
      have hshift : p + (u.length + 1) = p + 1 + u.length := by omega
      rw [hshift] at hn hstop ⊢
      exact ih hu.2 hn (fun h => hplain (List.mem_cons_of_mem _ h)) hstop (by omega)

/-! ## The turns of the outer loop -/

theorem setArg_ok {i : Nat} {arg : Option Nat} (h : i < MAX_ARG_NR) :
    s.setArg i arg = .ok { s with argv := Function.update s.argv i arg } := if_pos h

theorem parseLoop_exit (hnext : s.next ≤ n) (h : s.cmd s.next = 0 ∨ MAX_ARG_NR ≤ s.argc) :
    parseLoop n turns (outer + 1) s = .ok s := by
  rw [parseLoop, load_ok hnext, bind_ok]
  exact if_neg fun hx => h.elim hx.1 (Nat.not_le.mpr hx.2)

theorem parseLoop_turn (hnext : s.next ≤ n) (hne : s.cmd s.next ≠ 0) (hargc : s.argc < MAX_ARG_NR) :
    parseLoop n turns (outer + 1) s = (do
      match ← turn n turns s with
      | .goes s => parseLoop n turns outer s
      | .breaks s => return s) := by
  rw [parseLoop, load_ok hnext, bind_ok, if_pos ⟨hne, hargc⟩]

/-- Blanks are skipped. -/
theorem skip_blanks (hquot : s.quot = false) (hchars : CharsAt s.cmd s.next g)
    (hn : s.next + g.length ≤ n) (hg : ∀ c ∈ g, c = SPACE)
    (hstop : s.cmd (s.next + g.length) ≠ SPACE)
    (hturns : g.length < turns) : skipLoop n s.cmd s.quot turns s.next =
    .ok (s.next + g.length) := by
  rw [hquot]
  refine skipLoop_eq hchars hn (fun c hc => .inl (hg c hc)) (fun h => ?_) hturns
  rcases h with h | ⟨h, -⟩
  · exact hstop h
  · cases h

/-- A quote begins an argument. -/
def Parse.opened (s : Parse) (p : Nat) : Parse :=
  { s with quot := true, next := p, argv := Function.update s.argv s.argc (some p), argc := s.argc + 1 }

theorem turn_open (hquot : s.quot = false) (hchars : CharsAt s.cmd s.next (g ++ [QUOTE]))
    (hn : s.next + g.length < n) (hg : ∀ c ∈ g, c = SPACE) (hargc : s.argc < MAX_ARG_NR)
    (hturns : g.length < turns) :
    turn n turns s = .ok (.goes (s.opened (s.next + g.length + 1))) := by
  obtain ⟨hat, -⟩ := hchars.at
  have hskip := skip_blanks hquot (charsAt_append.mp hchars).1 (Nat.le_of_lt hn) hg
    (by rw [hat]; decide) hturns
  rw [turn, hskip, bind_ok, load_ok (Nat.le_of_lt hn), bind_ok, hat, if_neg (by decide), if_pos rfl,
    if_pos hquot, setArg_ok hargc]
  rfl

/-- A quote ends an argument. -/
def Parse.closed (s : Parse) (p : Nat) : Parse :=
  { s with quot := false, cmd := Function.update s.cmd p 0, next := p + 1 }

theorem turn_close (hquot : s.quot = true) (hchars : CharsAt s.cmd s.next (w ++ [QUOTE]))
    (hn : s.next + w.length < n) (hw : QUOTE ∉ w) (hturns : w.length < turns) :
    turn n turns s = .ok (.goes (s.closed (s.next + w.length))) := by
  obtain ⟨hat, -⟩ := hchars.at
  have hskip : skipLoop n s.cmd s.quot turns s.next = .ok (s.next + w.length) := by
    rw [hquot]
    refine skipLoop_eq (charsAt_append.mp hchars).1 (Nat.le_of_lt hn)
      (fun c hc => .inr ⟨rfl, fun heq => hw (heq ▸ hc)⟩) (fun h => ?_) hturns
    rw [hat] at h
    rcases h with h | ⟨-, h⟩
    · exact absurd h (by decide)
    · exact h rfl
  rw [turn, hskip, bind_ok, load_ok (Nat.le_of_lt hn), bind_ok, hat, if_neg (by decide), if_pos rfl,
    if_neg (by rw [hquot]; exact Bool.noConfusion)]
  rfl

/-- Inside quotes that are not closed the loop leaves the line. -/
theorem turn_past (hquot : s.quot = true) (hchars : CharsAt s.cmd s.next w)
    (hn : s.next + w.length = n) (hend : s.cmd n = 0) (hw : QUOTE ∉ w) :
    turn n turns s = .error .outOfBounds := by
  rw [turn, hquot, skipLoop_past hchars hn hend hw]
  rfl

/-- Nothing but blanks is left. -/
theorem turn_blank (hquot : s.quot = false) (hchars : CharsAt s.cmd s.next g)
    (hn : s.next + g.length = n) (hend : s.cmd n = 0) (hg : ∀ c ∈ g, c = SPACE)
    (hturns : g.length < turns) : turn n turns s = .ok (.breaks { s with next := n }) := by
  have hskip := skip_blanks hquot hchars (Nat.le_of_eq hn) hg (by rw [hn, hend]; decide) hturns
  rw [turn, hskip, bind_ok, hn, load_ok (Nat.le_refl _), bind_ok, if_pos hend]
  rfl

/-- A word with a blank behind it. -/
def Parse.worded (s : Parse) (p q : Nat) : Parse :=
  { s with
    cmd := Function.update s.cmd q 0, next := q + 1, argc := s.argc + 1
    argv := Function.update s.argv s.argc (some p) }

/-- A word at the end of the line. -/
def Parse.ended (s : Parse) (p q : Nat) : Parse :=
  { s with next := q, argc := s.argc + 1, argv := Function.update s.argv s.argc (some p) }

theorem Word.start (h : Word w) : ∃ c v, w = c :: v ∧ c ≠ QUOTE ∧ c ≠ SPACE := by
  obtain ⟨c, v, rfl⟩ := List.exists_cons_of_ne_nil h.ne_nil
  exact ⟨c, v, rfl, fun heq => h.head (congrArg some heq),
    fun heq => h.plain (heq ▸ List.mem_cons_self)⟩

/-- A word is gone over, up to a blank or the end of the line. -/
theorem turn_word (hquot : s.quot = false) (hchars : CharsAt s.cmd s.next (g ++ w))
    (hn : s.next + g.length + w.length ≤ n) (hg : ∀ c ∈ g, c = SPACE) (hw : Word w)
    (hargc : s.argc < MAX_ARG_NR) (hturns : g.length + w.length < turns)
    (hstop : s.cmd (s.next + g.length + w.length) = 0 ∨
      s.cmd (s.next + g.length + w.length) = SPACE) :
    turn n turns s = .ok (.goes (if s.cmd (s.next + g.length + w.length) ≠ 0
      then s.worded (s.next + g.length) (s.next + g.length + w.length)
      else s.ended (s.next + g.length) (s.next + g.length + w.length))) := by
  obtain ⟨c, v, hcv, hquote, hspace⟩ := hw.start
  obtain ⟨hgap, hword⟩ := charsAt_append.mp hchars
  have hat : s.cmd (s.next + g.length) = c ∧ c ≠ 0 := by
    rw [hcv] at hword
    exact hword.1
  have hskip : skipLoop n s.cmd s.quot turns s.next = .ok (s.next + g.length) :=
    skip_blanks hquot hgap (by omega) hg (by rw [hat.1]; exact hspace) (by omega)
  have hgo : wordLoop n s.cmd turns (s.next + g.length) = .ok (s.next + g.length + w.length) :=
    wordLoop_eq hword hn hw.plain hstop (by omega)
  rw [turn, hskip, bind_ok, load_ok (by omega), bind_ok, hat.1, if_neg hat.2, if_neg hquote,
    setArg_ok hargc, bind_ok, hgo, bind_ok, load_ok hn, bind_ok]
  by_cases hzero : s.cmd (s.next + g.length + w.length) ≠ 0
  · rw [if_pos hzero, if_pos hzero]
    rfl
  · rw [if_neg hzero, if_neg hzero]
    rfl

/-! ## The outer loop -/

/-- The rest of the line stands in front of the loop, outside quotes. -/
structure Ready (n : Nat) (s : Parse) (line : List Byte) : Prop where
  quot : s.quot = false
  chars : CharsAt s.cmd s.next line
  length : s.next + line.length = n
  ends : s.cmd n = 0

/-- The arguments came behind those there were, and what lies before the line is
    kept. -/
structure Done (s s' : Parse) (ts : List (List Byte)) : Prop where
  argc : s'.argc = s.argc + ts.length
  args : ∀ i, i < s.argc → s'.argv i = s.argv i
  kept : ∀ i, i < s.next → s'.cmd i = s.cmd i
  strings : ∀ (i : Nat) (h : i < ts.length), ∃ p, s'.argv (s.argc + i) = some p ∧
    StringAt s'.cmd p ts[i]

/-- One argument more: it came first, and the others are behind its end. -/
theorem Done.cons {t : Parse} (h : Done t s' ts) (hargc : t.argc = s.argc + 1)
    (hargv : t.argv = Function.update s.argv s.argc (some p)) (hnext : s.next ≤ t.next)
    (hkept : ∀ i, i < s.next → t.cmd i = s.cmd i) (hw : StringAt t.cmd p w)
    (hend : p + w.length < t.next) : Done s s' (w :: ts) where
  argc := by
    rw [h.argc, hargc, List.length_cons]
    omega
  args := fun i hi => by
    rw [h.args i (by omega), hargv, Function.update_of_ne (Nat.ne_of_lt hi)]
  kept := fun i hi => (h.kept i (by omega)).trans (hkept i hi)
  strings := fun i hi => by
    cases i with
    | zero =>
        refine ⟨p, ?_, hw.congr fun j _ hj => h.kept j (by omega)⟩
        rw [h.args _ (by omega), hargv]
        exact Function.update_self ..
    | succ i =>
        obtain ⟨r, hr, hstring⟩ := h.strings i (Nat.lt_of_succ_lt_succ hi)
        refine ⟨r, ?_, hstring⟩
        rw [← hr, hargc, Nat.add_right_comm, Nat.add_assoc]

/-- The last argument. -/
theorem Done.single {t : Parse} (hargc : t.argc = s.argc + 1)
    (hargv : t.argv = Function.update s.argv s.argc (some p))
    (hkept : ∀ i, i < s.next → t.cmd i = s.cmd i) (hw : StringAt t.cmd p w) : Done s t [w] where
  argc := hargc
  args := fun i hi => by rw [hargv, Function.update_of_ne (Nat.ne_of_lt hi)]
  kept := hkept
  strings := fun i hi => by
    obtain rfl : i = 0 := Nat.lt_one_iff.mp hi
    refine ⟨p, ?_, hw⟩
    rw [hargv]
    exact Function.update_self ..

/-- What the outer loop is to make of the rest of the line: the arguments, where
    there is room for them and no quote is open; else there is no place for the
    last `NULL`, if the loop ends. -/
structure Reads (n turns outer : Nat) (s : Parse) (ts : List (List Byte)) (left : Nat) : Prop where
  fits : s.argc + ts.length < MAX_ARG_NR → left = 0 →
    ∃ s', parseLoop n turns outer s = .ok s' ∧ Done s s' ts
  full : ¬ (s.argc + ts.length < MAX_ARG_NR ∧ left = 0) →
    ∀ s', parseLoop n turns outer s = .ok s' → MAX_ARG_NR ≤ s'.argc

/-- With all places taken the loop ends. -/
theorem reads_full (hnext : s.next ≤ n) (h : MAX_ARG_NR ≤ s.argc) :
    Reads n turns (outer + 1) s ts left where
  fits := fun hlt => absurd hlt (by omega)
  full := fun _ s' hs' => by
    rw [parseLoop_exit hnext (.inr h)] at hs'
    exact Except.ok.inj hs' ▸ h

/-- The rest of the line is read behind an argument. -/
theorem Reads.cons {t : Parse} {outer' : Nat} (h : Reads n turns outer' t ts left)
    (heq : parseLoop n turns outer s = parseLoop n turns outer' t) (hargc : t.argc = s.argc + 1)
    (hdone : ∀ s', Done t s' ts → Done s s' (w :: ts)) : Reads n turns outer s (w :: ts) left where
  fits := fun hlt hleft => by
    rw [List.length_cons] at hlt
    obtain ⟨s', hs', hts⟩ := h.fits (by omega) hleft
    exact ⟨s', heq.trans hs', hdone s' hts⟩
  full := fun hno s' hs' => by
    refine h.full (fun hx => hno ⟨?_, hx.2⟩) s' (heq ▸ hs')
    rw [List.length_cons]
    omega

theorem Ready.next_le (h : Ready n s line) : s.next ≤ n := h.length ▸ Nat.le_add_right _ _

theorem reads_blank (h : Ready n s g) (hg : ∀ c ∈ g, c = SPACE) (hturns : g.length < turns)
    (houter : g.length < outer) : Reads n turns outer s [] 0 := by
  obtain ⟨o, rfl⟩ := Nat.exists_eq_succ_of_ne_zero (Nat.ne_zero_of_lt houter)
  by_cases hargc : s.argc < MAX_ARG_NR
  swap
  · exact reads_full h.next_le (Nat.not_lt.mp hargc)
  refine ⟨fun _ _ => ?_, fun hno => absurd ⟨hargc, rfl⟩ hno⟩
  cases g with
  | nil =>
      have hzero : s.cmd s.next = 0 := by
        have hlen : s.next = n := h.length
        rw [hlen]
        exact h.ends
      exact ⟨s, parseLoop_exit h.next_le (.inl hzero), rfl, fun _ _ => rfl, fun _ _ => rfl,
        fun _ hi => absurd hi (Nat.not_lt_zero _)⟩
  | cons c g =>
      have hne := h.chars.head_ne (List.cons_ne_nil _ _)
      refine ⟨{ s with next := n }, ?_, rfl, fun _ _ => rfl, fun _ _ => rfl,
        fun _ hi => absurd hi (Nat.not_lt_zero _)⟩
      rw [parseLoop_turn h.next_le hne hargc, turn_blank h.quot h.chars h.length h.ends hg hturns]
      rfl

/-- A quote begins an argument, and the loop goes on behind it. -/
theorem parse_opened (outer : Nat) (h : Ready n s (g ++ QUOTE :: v)) (hg : ∀ c ∈ g, c = SPACE)
    (hargc : s.argc < MAX_ARG_NR) (hturns : (g ++ QUOTE :: v).length < turns) :
    parseLoop n turns (outer + 1) s = parseLoop n turns outer (s.opened (s.next + g.length + 1)) ∧
      CharsAt s.cmd (s.next + g.length + 1) v ∧ s.next + g.length + 1 + v.length = n := by
  have hchars := h.chars
  have hlength := h.length
  rw [List.length_append, List.length_cons] at hlength hturns
  have hne := hchars.head_ne (List.append_ne_nil_of_right_ne_nil _ (List.cons_ne_nil _ _))
  have hfront : CharsAt s.cmd s.next (g ++ [QUOTE]) :=
    charsAt_append.mpr ⟨(charsAt_append.mp hchars).1, (charsAt_append.mp hchars).2.1, trivial⟩
  refine ⟨?_, (charsAt_append.mp hchars).2.2, by omega⟩
  rw [parseLoop_turn h.next_le hne hargc, turn_open h.quot hfront (by omega) hg hargc (by omega)]
  rfl

/-- The loop ends with all places taken behind a quote. -/
theorem reads_opened_full (hparse : parseLoop n turns (outer + 2) s =
      parseLoop n turns (outer + 1) (s.opened p)) (hp : p ≤ n) (hargc : MAX_ARG_NR ≤ s.argc + 1) :
    Reads n turns (outer + 2) s (w :: ts) left where
  fits := fun hlt => by
    rw [List.length_cons] at hlt
    omega
  full := fun _ s' hs' => by
    have hexit : parseLoop n turns (outer + 1) (s.opened p) = .ok (s.opened p) :=
      parseLoop_exit hp (.inr hargc)
    rw [hparse, hexit] at hs'
    exact Except.ok.inj hs' ▸ hargc

theorem reads_quoted (h : Ready n s (g ++ QUOTE :: (w ++ QUOTE :: rest))) (hg : ∀ c ∈ g, c = SPACE)
    (hw : QUOTE ∉ w) (hturns : (g ++ QUOTE :: (w ++ QUOTE :: rest)).length < turns)
    (houter : (g ++ QUOTE :: (w ++ QUOTE :: rest)).length < outer)
    (ih : ∀ t outer', Ready n t rest → rest.length < outer' → Reads n turns outer' t ts left) :
    Reads n turns outer s (w :: ts) left := by
  have hlen : (g ++ QUOTE :: (w ++ QUOTE :: rest)).length =
      g.length + w.length + rest.length + 2 := by
    simp only [List.length_append, List.length_cons]
    omega
  obtain ⟨o, rfl⟩ : ∃ o, outer = o + 2 := ⟨outer - 2, by omega⟩
  by_cases hargc : s.argc < MAX_ARG_NR
  swap
  · exact reads_full h.next_le (Nat.not_lt.mp hargc)
  obtain ⟨hparse, hchars, hlength⟩ := parse_opened (o + 1) h hg hargc hturns
  rw [List.length_append, List.length_cons] at hlength
  obtain ⟨p, hp⟩ : ∃ p, p = s.next + g.length + 1 := ⟨_, rfl⟩
  rw [← hp] at hparse hchars hlength
  by_cases hmore : s.argc + 1 < MAX_ARG_NR
  swap
  · exact reads_opened_full hparse (by omega) (Nat.not_lt.mp hmore)
  obtain ⟨hword, hquote, hrest⟩ := charsAt_append.mp hchars
  have hfront : CharsAt s.cmd p (w ++ [QUOTE]) := charsAt_append.mpr ⟨hword, hquote, trivial⟩
  have hclose : parseLoop n turns (o + 1) (s.opened p) =
      parseLoop n turns o ((s.opened p).closed (p + w.length)) := by
    have hne : (s.opened p).cmd (s.opened p).next ≠ 0 :=
      hfront.head_ne (List.append_ne_nil_of_right_ne_nil _ (List.cons_ne_nil _ _))
    have hle : (s.opened p).next ≤ n := show p ≤ n by omega
    have hturn : turn n turns (s.opened p) = .ok (.goes ((s.opened p).closed (p + w.length))) :=
      turn_close rfl hfront (show p + w.length < n by omega) hw (by omega)
    rw [parseLoop_turn hle hne hmore, hturn]
    rfl
  have hready : Ready n ((s.opened p).closed (p + w.length)) rest := by
    refine ⟨rfl, hrest.congr fun i hi _ => Function.update_of_ne (by omega) .., ?_, ?_⟩
    · show p + w.length + 1 + rest.length = n
      omega
    · exact (Function.update_of_ne (by omega) ..).trans h.ends
  refine (ih _ o hready (by omega)).cons (hparse.trans hclose) rfl fun s' hs' =>
    hs'.cons rfl rfl ?_ ?_ ⟨?_, ?_⟩ ?_
  · show s.next ≤ p + w.length + 1
    omega
  · exact fun i hi => Function.update_of_ne (by omega) ..
  · exact hword.congr fun i _ hi => Function.update_of_ne (Nat.ne_of_lt hi) ..
  · exact Function.update_self ..
  · exact Nat.lt_succ_self _

theorem reads_unclosed (h : Ready n s (g ++ QUOTE :: w)) (hg : ∀ c ∈ g, c = SPACE) (hw : QUOTE ∉ w)
    (hturns : (g ++ QUOTE :: w).length < turns) (houter : (g ++ QUOTE :: w).length < outer) :
    Reads n turns outer s [w] w.length := by
  have hlen : (g ++ QUOTE :: w).length = g.length + w.length + 1 := by
    simp only [List.length_append, List.length_cons]
    omega
  obtain ⟨o, rfl⟩ : ∃ o, outer = o + 2 := ⟨outer - 2, by omega⟩
  by_cases hargc : s.argc < MAX_ARG_NR
  swap
  · exact reads_full h.next_le (Nat.not_lt.mp hargc)
  obtain ⟨hparse, hchars, hlength⟩ := parse_opened (o + 1) h hg hargc hturns
  obtain ⟨p, hp⟩ : ∃ p, p = s.next + g.length + 1 := ⟨_, rfl⟩
  rw [← hp] at hparse hchars hlength
  by_cases hmore : s.argc + 1 < MAX_ARG_NR
  swap
  · exact reads_opened_full hparse (by omega) (Nat.not_lt.mp hmore)
  cases w with
  | nil =>
      -- the argument is the empty string at the end of the line
      have hpn : p = n := hlength
      have hexit : parseLoop n turns (o + 1) (s.opened p) = .ok (s.opened p) :=
        parseLoop_exit (Nat.le_of_eq hpn) (.inl (hpn ▸ h.ends))
      refine ⟨fun _ _ => ⟨_, hparse.trans hexit, Done.single rfl rfl (fun _ _ => rfl) ⟨trivial, ?_⟩⟩,
        fun hno => absurd ⟨hmore, rfl⟩ hno⟩
      exact hpn ▸ h.ends
  | cons c w =>
      have hpast : parseLoop n turns (o + 1) (s.opened p) = .error .outOfBounds := by
        have hne : (s.opened p).cmd (s.opened p).next ≠ 0 := hchars.head_ne (List.cons_ne_nil _ _)
        have hle : (s.opened p).next ≤ n := show p ≤ n by omega
        have hturn : turn n turns (s.opened p) = .error .outOfBounds :=
          turn_past rfl hchars hlength h.ends hw
        rw [parseLoop_turn hle hne hmore, hturn]
        rfl
      refine ⟨fun _ hleft => absurd hleft (Nat.succ_ne_zero _), fun _ s' hs' => ?_⟩
      rw [hparse, hpast] at hs'
      cases hs'

theorem reads_word (h : Ready n s (g ++ (w ++ SPACE :: rest))) (hg : ∀ c ∈ g, c = SPACE)
    (hw : Word w)
    (hturns : (g ++ (w ++ SPACE :: rest)).length < turns)
    (houter : (g ++ (w ++ SPACE :: rest)).length < outer)
    (ih : ∀ t outer', Ready n t rest → rest.length < outer' → Reads n turns outer' t ts left) :
    Reads n turns outer s (w :: ts) left := by
  have hlen : (g ++ (w ++ SPACE :: rest)).length = g.length + w.length + rest.length + 1 := by
    simp only [List.length_append, List.length_cons]
    omega
  have hlength := h.length
  rw [hlen] at hlength hturns houter
  obtain ⟨o, rfl⟩ := Nat.exists_eq_succ_of_ne_zero (Nat.ne_zero_of_lt houter)
  by_cases hargc : s.argc < MAX_ARG_NR
  swap
  · exact reads_full h.next_le (Nat.not_lt.mp hargc)
  obtain ⟨hgap, hboth⟩ := charsAt_append.mp h.chars
  obtain ⟨hword, ⟨hspace, hzero⟩, hrest⟩ := charsAt_append.mp hboth
  have hne := h.chars.head_ne
    (List.append_ne_nil_of_right_ne_nil _ (List.append_ne_nil_of_right_ne_nil _ (List.cons_ne_nil _ _)))
  have hparse : parseLoop n turns (o + 1) s = parseLoop n turns o
      (s.worded (s.next + g.length) (s.next + g.length + w.length)) := by
    rw [parseLoop_turn h.next_le hne hargc,
      turn_word h.quot (charsAt_append.mpr ⟨hgap, hword⟩) (by omega) hg hw hargc (by omega) (.inr hspace),
      if_pos (by rw [hspace]; exact hzero)]
    rfl
  have hready : Ready n (s.worded (s.next + g.length) (s.next + g.length + w.length)) rest := by
    refine ⟨h.quot, hrest.congr fun i hi _ => Function.update_of_ne (by omega) .., ?_, ?_⟩
    · show s.next + g.length + w.length + 1 + rest.length = n
      omega
    · exact (Function.update_of_ne (by omega) ..).trans h.ends
  refine (ih _ o hready (by omega)).cons hparse rfl fun s' hs' => hs'.cons rfl rfl ?_ ?_ ⟨?_, ?_⟩ ?_
  · show s.next ≤ s.next + g.length + w.length + 1
    omega
  · exact fun i hi => Function.update_of_ne (by omega) ..
  · exact hword.congr fun i _ hi => Function.update_of_ne (Nat.ne_of_lt hi) ..
  · exact Function.update_self ..
  · exact Nat.lt_succ_self _

theorem reads_last (h : Ready n s (g ++ w)) (hg : ∀ c ∈ g, c = SPACE) (hw : Word w)
    (hturns : (g ++ w).length < turns) (houter : (g ++ w).length < outer) :
    Reads n turns outer s [w] 0 := by
  have hpos := List.length_pos_iff.mpr hw.ne_nil
  have hlength := h.length
  rw [List.length_append] at hlength hturns houter
  obtain ⟨o, rfl⟩ : ∃ o, outer = o + 2 := ⟨outer - 2, by omega⟩
  by_cases hargc : s.argc < MAX_ARG_NR
  swap
  · exact reads_full h.next_le (Nat.not_lt.mp hargc)
  obtain ⟨hgap, hword⟩ := charsAt_append.mp h.chars
  have hne := h.chars.head_ne (List.append_ne_nil_of_right_ne_nil _ hw.ne_nil)
  have hn : s.next + g.length + w.length = n := by omega
  have hparse : parseLoop n turns (o + 2) s =
      parseLoop n turns (o + 1) (s.ended (s.next + g.length) n) := by
    rw [parseLoop_turn h.next_le hne hargc,
      turn_word h.quot h.chars (Nat.le_of_eq hn) hg hw hargc (by omega) (.inl (hn ▸ h.ends)), hn,
      if_neg (not_not_intro h.ends)]
    rfl
  have hexit : parseLoop n turns (o + 1) (s.ended (s.next + g.length) n) =
      .ok (s.ended (s.next + g.length) n) := parseLoop_exit (Nat.le_refl n) (.inl h.ends)
  refine ⟨fun _ _ => ⟨_, hparse.trans hexit, Done.single rfl rfl (fun _ _ => rfl) ⟨hword, ?_⟩⟩,
    fun hno s' hs' => ?_⟩
  · exact hn ▸ h.ends
  · rw [hparse, hexit] at hs'
    rw [← Except.ok.inj hs']
    have hmore : ¬ s.argc + 1 < MAX_ARG_NR := fun hlt => hno ⟨hlt, rfl⟩
    exact Nat.not_lt.mp hmore

/-- The outer loop, over the rules of the grammar. -/
theorem reads_tokens (h : Tokens line ts left) (hturns : line.length < turns) :
    ∀ s outer, Ready n s line → line.length < outer → Reads n turns outer s ts left := by
  induction h with
  | blank g hg => exact fun s outer hready houter => reads_blank hready hg hturns houter
  | quoted g w hg hw _ ih =>
      intro s outer hready houter
      refine reads_quoted hready hg hw hturns houter (ih ?_)
      simp only [List.length_append, List.length_cons] at hturns
      omega
  | unclosed g w hg hw => exact fun s outer hready houter => reads_unclosed hready hg hw hturns houter
  | word g w hg hw _ ih =>
      intro s outer hready houter
      refine reads_word hready hg hw hturns houter (ih ?_)
      simp only [List.length_append, List.length_cons] at hturns
      omega
  | last g w hg hw => exact fun s outer hready houter => reads_last hready hg hw hturns houter

/-! ## Every line -/

/-- What is in front of the first character of a kind, and the rest from it on. -/
theorem split_at (c : Byte) (u : List Byte) :
    ∃ v, c ∉ v ∧ (u = v ∨ ∃ rest, u = v ++ c :: rest) := by
  by_cases hin : c ∈ u
  · obtain ⟨v, rest, hu, hv⟩ := List.eq_append_cons_of_mem hin
    exact ⟨v, hv, .inr ⟨rest, hu⟩⟩
  · exact ⟨u, hin, .inl rfl⟩

/-- Every line has arguments by the grammar. -/
theorem tokens_exist (line : List Byte) : ∃ ts left, Tokens line ts left := by
  induction hk : line.length using Nat.strongRecOn generalizing line with
  | ind k ih =>
    obtain ⟨g, r, hline, hg, hr⟩ : ∃ g r, line = g ++ r ∧ (∀ c ∈ g, c = SPACE) ∧
        r.head? ≠ some SPACE := by
      refine ⟨line.takeWhile (· = SPACE), line.dropWhile (· = SPACE),
        List.takeWhile_append_dropWhile.symm, fun c hc => ?_, fun heq => ?_⟩
      · exact of_decide_eq_true (List.all_eq_true.mp List.all_takeWhile c hc)
      · have hno := List.head?_dropWhile_not (fun c : Byte => decide (c = SPACE)) line
        rw [heq] at hno
        exact absurd hno (by decide)
    subst hline
    cases r with
    | nil => exact ⟨[], 0, (List.append_nil g).symm ▸ Tokens.blank g hg⟩
    | cons c r =>
        rw [List.length_append, List.length_cons] at hk
        by_cases hquote : c = QUOTE
        · subst hquote
          obtain ⟨w, hw, rfl | ⟨rest, rfl⟩⟩ := split_at QUOTE r
          · exact ⟨_, _, Tokens.unclosed g r hg hw⟩
          · rw [List.length_append, List.length_cons] at hk
            obtain ⟨ts, left, hts⟩ := ih rest.length (by omega) rest rfl
            exact ⟨_, _, Tokens.quoted g w hg hw hts⟩
        · have hspace : c ≠ SPACE := fun heq => hr (congrArg some heq)
          obtain ⟨v, hv, rfl | ⟨rest, rfl⟩⟩ := split_at SPACE r
          · have hw : Word (c :: r) := ⟨List.cons_ne_nil _ _, fun heq => hquote (Option.some.inj heq),
              fun hin => (List.mem_cons.mp hin).elim (fun heq => hspace heq.symm) hv⟩
            exact ⟨_, _, Tokens.last g (c :: r) hg hw⟩
          · rw [List.length_append, List.length_cons] at hk
            obtain ⟨ts, left, hts⟩ := ih rest.length (by omega) rest rfl
            have hw : Word (c :: v) := ⟨List.cons_ne_nil _ _, fun heq => hquote (Option.some.inj heq),
              fun hin => (List.mem_cons.mp hin).elim (fun heq => hspace heq.symm) hv⟩
            exact ⟨_, _, Tokens.word g (c :: v) hg hw hts⟩

/-- `cmd_parse` reads the arguments of a line, inside the line and inside `argv`, for
    the lines with fewer than 16 arguments and no character behind a quote that is
    not closed, and for no other. -/
theorem cmd_parses (hline : StringAt cmd 0 line) (hturns : line.length < turns) :
    (∃ ts left, Tokens line ts left) ∧ ∀ ts left, Tokens line ts left →
      (Parses line.length turns cmd argv ts ↔ ts.length < MAX_ARG_NR ∧ left = 0) := by
  refine ⟨tokens_exist line, fun ts left hts => ?_⟩
  have hlength : 0 + line.length = line.length := Nat.zero_add _
  have hend : cmd line.length = 0 := hlength ▸ hline.2
  obtain ⟨hfits, hfull⟩ := reads_tokens hts hturns
    { cmd := cmd, argv := argv, next := 0, argc := 0, quot := false } turns
    ⟨rfl, hline.1, hlength, hend⟩ hturns
  rw [Nat.zero_add] at hfits hfull
  constructor
  · rintro ⟨s, hs, -⟩
    by_contra hno
    obtain ⟨s', hloop, hset⟩ := bind_eq_ok hs
    have hargc := hfull hno s' hloop
    rw [Parse.setArg, if_neg (Nat.not_lt.mpr hargc)] at hset
    cases hset
  · rintro ⟨hlt, hleft⟩
    obtain ⟨s', hloop, hdone⟩ := hfits hlt hleft
    have hargc : s'.argc = ts.length := hdone.argc.trans (Nat.zero_add _)
    refine ⟨{ s' with argv := Function.update s'.argv s'.argc none }, ?_, hargc,
      Function.update_self .., fun i hi => ?_⟩
    · rw [cmdParse, hloop, bind_ok, setArg_ok (hargc ▸ hlt)]
    · obtain ⟨p, hp, hstring⟩ := hdone.strings i hi
      rw [Nat.zero_add] at hp
      exact ⟨p, (Function.update_of_ne (by omega) ..).trans hp, hstring⟩

/-- A command with a quoted argument. -/
def echoLine : List Byte := [0x65, 0x20, QUOTE, 0x61, 0x20, 0x62, QUOTE, 0x20]

theorem echoLine_at : StringAt (literal echoLine) 0 echoLine := literal_at (by decide)

theorem cmd_parses_echo : (∃ ts left, Tokens echoLine ts left) ∧
    ∀ ts left, Tokens echoLine ts left →
    (Parses 8 9 (literal echoLine) (fun _ => none) ts ↔ ts.length < MAX_ARG_NR ∧ left = 0) :=
  cmd_parses echoLine_at (by decide)

/-- A quote that is not closed. -/
def quoteLine : List Byte := [QUOTE, 0x61]

/-- Sixteen arguments of a character each. -/
def longLine : List Byte := (List.replicate 15 [0x61, SPACE]).flatten ++ [0x61]

/-- With the open quote the loop reads behind the line; with sixteen arguments the
    last `NULL` is stored behind `argv`. -/
theorem line_overrun :
    Tokens quoteLine [[0x61]] 1 ∧ (∀ ts, ¬ Parses 2 40 (literal quoteLine) (fun _ => none) ts) ∧
      (parseLoop 31 40 40 ⟨literal longLine, fun _ => none, 0, 0, false⟩).map (fun s => s.argc) =
        .ok 16 ∧
      ∀ ts, ¬ Parses 31 40 (literal longLine) (fun _ => none) ts := by
  have hquote : (cmdParse 2 40 (literal quoteLine) fun _ => none).map (fun s => s.argc) =
      .error .outOfBounds := by
    decide +kernel
  have hlong : (cmdParse 31 40 (literal longLine) fun _ => none).map (fun s => s.argc) =
      .error .outOfBounds := by
    decide +kernel
  refine ⟨Tokens.unclosed [] [0x61] (fun c hc => by cases hc) (by decide),
    ?_, by decide +kernel, ?_⟩
  · rintro ts ⟨s, hs, -⟩
    rw [hs] at hquote
    cases hquote
  · rintro ts ⟨s, hs, -⟩
    rw [hs] at hlong
    cases hlong

end NeonixCommandLine
