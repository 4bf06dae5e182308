import Neonix.ConsoleBounds
import Neonix.Runs

/-! # The escape-sequence parser

    A byte after `ESC` other than `[` leaves the parser waiting for `[`, and a
    sixteenth `;` leaves it among parameters it no longer reads.  `sequences_recover`
    says which control sequences bring it back to its normal state and which states
    it never leaves. -/

namespace NeonixConsole

open NeonixByteBits NeonixMachine NeonixOutcome NeonixRuns

variable {con c : Console} {params buf text : List Byte} {ch final : Byte} {n : Nat}

/-! ## Control sequences -/

/-- A digit or a semicolon. -/
def Param (ch : Byte) : Prop := (0x30 ≤ ch ∧ ch ≤ 0x39) ∨ ch = 0x3B

def Letter (ch : Byte) : Prop := (0x41 ≤ ch ∧ ch ≤ 0x5A) ∨ (0x61 ≤ ch ∧ ch ≤ 0x7A)

/-- `ESC` and one of `E`, `M`, `D`, `Z`, `7`, `8`, or `ESC [`, perhaps a `?`, parameters
    and a letter. -/
inductive Sequence : List Byte → Prop where
  | single (ch : Byte) (h : ch ∈ [0x45, 0x4D, 0x44, 0x5A, 0x37, 0x38]) : Sequence [ESC, ch]
  | csi (ques : Bool) (params : List Byte) (final : Byte) (hp : ∀ ch ∈ params, Param ch)
      (hf : Letter final) :
      Sequence (ESC :: 0x5B :: ((if ques then [0x3F] else []) ++ (params ++ [final])))

/-- A sequence that starts with `ESC [` and has fewer than 16 semicolons. -/
def Short (seq : List Byte) : Prop :=
  ∃ rest, seq = ESC :: 0x5B :: rest ∧ rest.count 0x3B < ARG_NR

/-- Bytes the normal state passes to `chr`. -/
def Printable (ch : Byte) : Prop := 0x20 ≤ ch ∧ ch ≤ 0x7E

/-- Each byte of a text appears in front of the cursor. -/
def Shows : Console → List Byte → Prop
  | _, [] => True
  | con, ch :: text => ∃ c, consoleByte con ch = .ok c ∧ c.mem (c.pos - 2) = ch ∧ Shows c text

/-- The parser is back in the normal state, and a text that follows is displayed. -/
def Recovers (con : Console) (seq : List Byte) : Prop :=
  ∃ c, consoleBytes seq con = .ok c ∧ c.state = .STATE_NOR ∧
    ∀ text : List Byte, (∀ ch ∈ text, Printable ch) → Shows c text

/-- No input brings the parser back to the normal state. -/
def Swallows (con : Console) : Prop :=
  ∀ buf c, consoleBytes buf con = .ok c → c.state ≠ .STATE_NOR

/-! ## The parser among parameters -/

theorem parseArg_full (h : ARG_NR ≤ n) : parseArg n ch = ⟨.STATE_ARG, n⟩ := if_pos h

/-- A parser with sixteen parameters stays where it is. -/
theorem parseAll_full (h : ARG_NR ≤ n) (buf : List Byte) :
    parseAll buf ⟨.STATE_ARG, n⟩ = ⟨.STATE_ARG, n⟩ := by
  induction buf with
  | nil => rfl
  | cons ch buf ih =>
      rw [parseAll, parse, parseArg_full h]
      exact ih

theorem Letter.not_param (h : Letter ch) : ch ≠ 0x3B ∧ ¬ (0x30 ≤ ch ∧ ch ≤ 0x39) := by
  rcases h with h | h
  · exact ⟨by bv_omega, by bv_omega⟩
  · exact ⟨by bv_omega, by bv_omega⟩

theorem Letter.not_ques (h : Letter ch) : ch ≠ 0x3F := by
  rcases h with h | h
  · bv_omega
  · bv_omega

theorem Param.not_ques (h : Param ch) : ch ≠ 0x3F := by
  rcases h with h | rfl
  · bv_omega
  · decide

/-- The parameters are counted up to sixteen. -/
theorem parseAll_params (hp : ∀ ch ∈ params, Param ch) (hn : n ≤ ARG_NR) :
    parseAll params ⟨.STATE_ARG, n⟩ = ⟨.STATE_ARG, min ARG_NR (n + params.count 0x3B)⟩ := by
  induction params generalizing n with
  | nil => rw [List.count_nil, Nat.add_zero, Nat.min_eq_right hn, parseAll]
  | cons ch params ih =>
      have hp' : ∀ ch ∈ params, Param ch := fun x hx => hp x (List.mem_cons_of_mem _ hx)
      by_cases hfull : ARG_NR ≤ n
      · rw [parseAll_full hfull, Nat.min_eq_left (Nat.le_add_right_of_le hfull),
          Nat.le_antisymm hn hfull]
      rw [parseAll, parse, parseArg, if_neg hfull]
      have hlt : n < ARG_NR := Nat.not_le.mp hfull
      rcases hp ch List.mem_cons_self with hdigit | rfl
      · have hne : ch ≠ 0x3B := by bv_omega
        rw [if_neg hne, if_pos hdigit, ih hp' hn, List.count_cons_of_ne hne]
      · rw [if_pos rfl, ih hp' hlt, List.count_cons_self, Nat.succ_add_eq_add_succ]

theorem parseAll_append (l l' : List Byte) (p : Parser) :
    parseAll (l ++ l') p = parseAll l' (parseAll l p) := by
  induction l generalizing p with
  | nil => rfl
  | cons ch l ih => exact ih (parse p ch)

/-- Parameters and a final byte, read among the parameters. -/
theorem parseAll_final (hp : ∀ ch ∈ params, Param ch) (hf : Letter final) :
    (parseAll (params ++ [final]) ⟨.STATE_ARG, 0⟩).state = .STATE_NOR ↔
      params.count 0x3B < ARG_NR := by
  rw [parseAll_append, parseAll_params hp (Nat.zero_le _), Nat.zero_add, parseAll, parseAll, parse]
  by_cases hfull : ARG_NR ≤ params.count 0x3B
  · rw [Nat.min_eq_left hfull, parseArg_full Nat.le.refl]
    exact iff_of_false (by rintro ⟨⟩) (Nat.not_lt.mpr hfull)
  · have hlt : params.count 0x3B < ARG_NR := Nat.not_le.mp hfull
    rw [Nat.min_eq_right hlt.le, parseArg, if_neg hfull, if_neg hf.not_param.1,
      if_neg hf.not_param.2]
    exact iff_of_true rfl hlt

/-- The first byte after `[` is read among the parameters unless it is a `?`. -/
theorem parse_que (h : ch ≠ 0x3F) : parse ⟨.STATE_QUE, n⟩ ch = parse ⟨.STATE_ARG, 0⟩ ch := by
  rw [parse, parse, if_neg h]

/-- Only the parameters of a sequence hold semicolons. -/
theorem short_iff (ques : Bool) (hf : Letter final) :
    Short (ESC :: 0x5B :: ((if ques then [0x3F] else []) ++ (params ++ [final]))) ↔
      params.count 0x3B < ARG_NR := by
  have hcount : ((if ques then [0x3F] else []) ++ (params ++ [final])).count 0x3B
      = params.count 0x3B := by
    have hques : (if ques then [0x3F] else [] : List Byte).count 0x3B = 0 := by
      cases ques with
      | true => rfl
      | false => rfl
    rw [List.count_append, List.count_append, hques, List.count_cons_of_ne hf.not_param.1,
      List.count_nil, Nat.add_zero, Nat.zero_add]
  constructor
  · rintro ⟨rest, hrest, hlt⟩
    rw [← (List.cons.inj (List.cons.inj hrest).2).2, hcount] at hlt
    exact hlt
  · intro hlt
    exact ⟨_, rfl, hcount ▸ hlt⟩

/-- A control sequence brings the parser back exactly where it is short. -/
theorem parse_sequence {seq : List Byte} (h : Sequence seq) :
    (parseAll seq ⟨.STATE_NOR, n⟩).state = .STATE_NOR ↔ Short seq := by
  cases h with
  | single ch h =>
      have hne : ch ≠ 0x5B := by
        rintro rfl
        revert h
        decide
      rw [parseAll, parseAll, parseAll, parse, if_pos rfl, parse, if_neg hne]
      refine iff_of_false (by rintro ⟨⟩) ?_
      rintro ⟨rest, hrest, -⟩
      exact hne (List.cons.inj (List.cons.inj hrest).2).1
  | csi ques params final hp hf =>
      rw [short_iff ques hf, ← parseAll_final hp hf]
      cases ques with
      | true => rfl
      | false =>
          -- the first parameter, or the final byte, is no `?`
          cases params with
          | nil =>
              have hfirst := parse_que (n := n) hf.not_ques
              exact iff_of_eq (congrArg (fun p : Parser => p.state = .STATE_NOR) hfirst)
          | cons ch params =>
              have hfirst := parse_que (n := n) (hp ch List.mem_cons_self).not_ques
              exact iff_of_eq (congrArg
                (fun p => (parseAll (params ++ [final]) p).state = .STATE_NOR) hfirst)

/-! ## Consoles -/

/-- A printable byte in the normal state goes to `chr`. -/
theorem printable_shows (h : Inside con) (hs : con.state = .STATE_NOR) (hch : Printable ch) :
    ∃ c, consoleByte con ch = .ok c ∧ Inside c ∧ c.state = .STATE_NOR ∧ c.mem (c.pos - 2) = ch := by
  have hbyte : consoleByte con ch = chr con ch := by
    obtain ⟨hlo, hhi⟩ := hch
    have hne : ∀ b : Byte, b < 0x20 → ch ≠ b := by
      rintro b hb rfl
      bv_omega
    have hdel : ch ≠ DEL := by
      rintro rfl
      revert hhi
      decide
    rw [consoleByte, hs]
    show stateNormal con ch = chr con ch
    rw [stateNormal, if_neg (not_or.mpr ⟨hne NUL (by decide), hne BEL (by decide)⟩),
      if_neg (hne BS (by decide)), if_neg (hne HT (by decide)), if_neg (hne LF (by decide)),
      if_neg (not_or.mpr ⟨hne VT (by decide), hne FF (by decide)⟩), if_neg (hne CR (by decide)),
      if_neg hdel, if_neg (hne ESC (by decide))]
  rw [hbyte]
  obtain ⟨c, hc, hstep, hmem⟩ := returns (chr_steps h ch)
  exact ⟨c, hc, hstep.inside, hstep.state.trans hs, hmem⟩

theorem text_shows (h : Inside con) (hs : con.state = .STATE_NOR)
    (htext : ∀ ch ∈ text, Printable ch) : Shows con text := by
  induction text generalizing con with
  | nil => trivial
  | cons ch text ih =>
      obtain ⟨c, hc, hi, hn, hmem⟩ := printable_shows h hs (htext ch List.mem_cons_self)
      exact ⟨c, hc, hmem, ih hi hn fun x hx => htext x (List.mem_cons_of_mem _ hx)⟩

/-- A console recovers exactly where its parser does. -/
theorem recovers_iff (h : Inside con) (seq : List Byte) :
    Recovers con seq ↔ (parseAll seq con.parser).state = .STATE_NOR := by
  obtain ⟨c, hc, hi, hp⟩ := returns (consoleBytes_steps seq h)
  rw [← hp]
  constructor
  · rintro ⟨d, hd, hs, -⟩
    obtain rfl := Except.ok.inj (hc.symm.trans hd)
    exact hs
  · exact fun hs => ⟨c, hc, hs, fun text => text_shows hi hs⟩

/-- The console swallows its input exactly where the parameters are full. -/
theorem swallows_iff (h : Inside con) :
    Swallows con ↔ con.state = .STATE_ARG ∧ ARG_NR ≤ con.argc.toNat := by
  have hswallow : Swallows con ↔ ∀ buf, (parseAll buf con.parser).state ≠ .STATE_NOR := by
    constructor
    · intro hs buf
      obtain ⟨c, hc, -, hp⟩ := returns (consoleBytes_steps buf h)
      rw [← hp]
      exact hs buf c hc
    · intro hs buf c hc
      have hstep := consoleBytes_steps buf h
      rw [hc] at hstep
      have hne := hs buf
      rw [← hstep.2] at hne
      exact hne
  rw [hswallow]
  constructor
  · intro hs
    -- from every other state a few bytes bring the parser back
    cases hst : con.state with
    | STATE_NOR => exact absurd hst (hs [])
    | STATE_ESC => exact absurd (by rw [Console.parser, hst]; rfl) (hs [0x5B, 0x6D])
    | STATE_QUE => exact absurd (by rw [Console.parser, hst]; rfl) (hs [0x6D])
    | STATE_ARG =>
        refine ⟨rfl, ?_⟩
        by_contra hfull
        refine hs [0x6D] ?_
        rw [Console.parser, hst, parseAll, parseAll, parse, parseArg, if_neg hfull]
        rfl
    | STATE_CSI => exact absurd (by rw [Console.parser, hst]; rfl) (hs [0x6D])
  · rintro ⟨hst, hfull⟩ buf
    rw [Console.parser, hst, parseAll_full hfull]
    rintro ⟨⟩

/-! ## Runs -/

/-- Consoles that read one byte after the other from `console_init` on. -/
def byteSystem : System Console Byte :=
  execSystem (fun con => ∃ mem, consoleInit mem = .ok con) (fun _ _ => True) consoleByte

/-- A step that does not read a sixteenth semicolon. -/
def Spare (con : Console) (ch : Byte) : Prop :=
  ¬ (con.state = .STATE_ARG ∧ con.argc.toNat = 15 ∧ ch = 0x3B)

theorem byteSystem_inside {guard : Console → Byte → Prop} (h : Reach byteSystem guard con) :
    Inside con := by
  refine h.invariant ?_ ?_
  · rintro s ⟨mem, hs⟩
    have hinit := consoleInit_inside mem
    rw [hs] at hinit
    exact hinit.1
  · rintro s ch t hi - ⟨-, ht⟩
    have hstep := consoleByte_steps hi ch
    rw [ht] at hstep
    exact hstep.1

theorem boot_reach {mem : BitVec 32 → Byte} (h : consoleInit mem = .ok con) :
    Reach byteSystem free con :=
  Reach.start (S := byteSystem) ⟨mem, h⟩

theorem boot_console (mem : BitVec 32 → Byte) :
    ∃ con, Reach byteSystem free con ∧ Inside con ∧ con.parser = ⟨.STATE_NOR, 0⟩ :=
  (returns (consoleInit_inside mem)).imp fun _ hc => ⟨boot_reach hc.1, hc.2⟩

/-- What a list of bytes leads to is reachable. -/
theorem reach_bytes (h : Reach byteSystem free con) (hc : consoleBytes buf con = .ok c) :
    Reach byteSystem free c := by
  induction buf generalizing con with
  | nil =>
      obtain rfl := Except.ok.inj hc
      exact h
  | cons ch buf ih =>
      obtain ⟨d, hd, hrest⟩ := bind_eq_ok hc
      exact ih (h.step trivial ⟨trivial, hd⟩) hrest

/-- The parameters are not full. -/
def Parser.Open (p : Parser) : Prop := p.state = .STATE_ARG → p.argc < ARG_NR

theorem parseArg_open (hn : n < ARG_NR) (hs : ¬ (n = 15 ∧ ch = 0x3B)) : (parseArg n ch).Open := by
  rw [parseArg, if_neg (Nat.not_le.mpr hn)]
  by_cases hsemi : ch = 0x3B
  · rw [if_pos hsemi]
    have hne : n ≠ 15 := fun h => hs ⟨h, hsemi⟩
    have hlt : n < 16 := hn
    intro _
    show n + 1 < 16
    omega
  · rw [if_neg hsemi]
    by_cases hdigit : 0x30 ≤ ch ∧ ch ≤ 0x39
    · rw [if_pos hdigit]
      exact fun _ => hn
    · rw [if_neg hdigit]
      rintro ⟨⟩

/-- A step with a parameter to spare leaves one. -/
theorem parse_open {p : Parser} (h : p.Open)
    (hs : ¬ (p.state = .STATE_ARG ∧ p.argc = 15 ∧ ch = 0x3B)) : (parse p ch).Open := by
  obtain ⟨state, argc⟩ := p
  cases state with
  | STATE_NOR =>
      rw [parse]
      split
      · rintro ⟨⟩
      · rintro ⟨⟩
  | STATE_ESC =>
      rw [parse]
      split
      · rintro ⟨⟩
      · rintro ⟨⟩
  | STATE_QUE =>
      rw [parse]
      split
      · exact fun _ => Nat.zero_lt_succ _
      · exact parseArg_open (Nat.zero_lt_succ _) fun hn => Nat.zero_ne_add_one 14 hn.1
  | STATE_ARG => exact parseArg_open (h rfl) fun hn => hs ⟨rfl, hn.1, hn.2⟩
  | STATE_CSI => rintro ⟨⟩

/-- The invariant of a run that never reads a sixteenth semicolon. -/
def InsideOpen (con : Console) : Prop := Inside con ∧ con.parser.Open

/-- A run that never reads a sixteenth semicolon leaves the parameters open. -/
theorem spare_open (h : Reach byteSystem Spare con) : con.parser.Open := by
  have hboth : InsideOpen con := by
    refine h.invariant ?_ ?_
    · rintro s ⟨mem, hs⟩
      have hinit := consoleInit_inside mem
      rw [hs] at hinit
      refine ⟨hinit.1, ?_⟩
      rw [hinit.2]
      exact nofun
    · rintro s ch t ⟨hi, ho⟩ hg ⟨-, ht⟩
      have hstep := consoleByte_steps hi ch
      rw [ht] at hstep
      refine ⟨hstep.1, ?_⟩
      rw [hstep.2]
      exact parse_open ho hg
  exact hboth.2

/-- In every state a stream of bytes leads to, a control sequence read from the
    normal state ends there exactly where it starts with `ESC [` and has fewer than
    16 semicolons, and the state swallows all further input exactly where it reads
    parameters and has 16 of them.  A stream that never reads a sixteenth semicolon
    leads to no such state. -/
theorem sequences_recover (con : Console) :
    (Reach byteSystem free con →
      (con.state = .STATE_NOR → ∀ seq, Sequence seq → (Recovers con seq ↔ Short seq)) ∧
      (¬ Swallows con ↔ ¬ (con.state = .STATE_ARG ∧ ARG_NR ≤ con.argc.toNat))) ∧
    (Reach byteSystem Spare con → ¬ Swallows con) := by
  refine ⟨fun h => ⟨fun hs seq hseq => ?_, ?_⟩, fun h => ?_⟩
  · rw [recovers_iff (byteSystem_inside h), Console.parser, hs]
    exact parse_sequence hseq
  · exact not_congr (swallows_iff (byteSystem_inside h))
  · rw [swallows_iff (byteSystem_inside h)]
    rintro ⟨hst, hfull⟩
    exact Nat.not_lt.mpr hfull (spare_open h hst)

/-- `ESC M` leaves the parser in `STATE_ESC`, and `ESC [ ?` with sixteen semicolons in a
    state that swallows all further input. -/
theorem sequences_lost :
    (∃ con, Reach byteSystem free con ∧ con.state = .STATE_NOR ∧ Sequence [ESC, 0x4D] ∧
      ¬ Recovers con [ESC, 0x4D]) ∧
    ∃ con, Reach byteSystem free con ∧ Swallows con := by
  obtain ⟨con, hreach, hi, hp⟩ := boot_console fun _ => 0
  have hstate : con.state = .STATE_NOR := congrArg Parser.state hp
  refine ⟨⟨con, hreach, hstate, .single _ (by decide), ?_⟩, ?_⟩
  · rw [recovers_iff hi, hp]
    decide
  · obtain ⟨c, hc, hi', hp'⟩ :=
      returns (consoleBytes_steps ([ESC, 0x5B, 0x3F] ++ List.replicate ARG_NR 0x3B) hi)
    have hfull : parseAll ([ESC, 0x5B, 0x3F] ++ List.replicate ARG_NR 0x3B) ⟨.STATE_NOR, 0⟩
        = ⟨.STATE_ARG, ARG_NR⟩ := by
      have hparams : ∀ ch ∈ List.replicate ARG_NR (0x3B : Byte), Param ch := fun ch hch =>
        .inr (List.eq_of_mem_replicate hch)
      rw [parseAll_append, show parseAll [ESC, 0x5B, 0x3F] ⟨.STATE_NOR, 0⟩ = ⟨.STATE_ARG, 0⟩ from rfl,
        parseAll_params hparams (Nat.zero_le _), List.count_replicate_self, Nat.zero_add, Nat.min_self]
    rw [hp, hfull] at hp'
    refine ⟨c, reach_bytes hreach hc, (swallows_iff hi').mpr ⟨congrArg Parser.state hp', ?_⟩⟩
    exact (congrArg Parser.argc hp').ge

end NeonixConsole
