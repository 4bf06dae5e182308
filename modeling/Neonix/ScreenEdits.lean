import Neonix.ScreenLines

/-! # Lines and characters inserted and deleted

    `CSI n L`, `CSI n M`, `CSI n P` and `CSI n @`, from the bytes that are written
    to the cells that are displayed.  `edits_exact` says on which screens each of
    them leaves what it should. -/

namespace NeonixConsole

open NeonixByteBits NeonixMachine NeonixOutcome

/-- The four control sequences. -/
inductive Edit where
  | insertLines
  | deleteLines
  | deleteChars
  | insertChars
  deriving DecidableEq

/-- Their last bytes. -/
def Edit.final : Edit → Byte
  | .insertLines => 0x4C
  | .deleteLines => 0x4D
  | .deleteChars => 0x50
  | .insertChars => 0x40

def Digit (ch : Byte) : Prop := 0x30 ≤ ch ∧ ch ≤ 0x39

instance (ch : Byte) : Decidable (Digit ch) := inferInstanceAs (Decidable (_ ∧ _))

/-- The parameter these digits are read as. -/
def number (ds : List Byte) : BitVec 32 := ds.foldl (fun v ch => v * 10 + ch.setWidth 32 - 0x30) 0

/-- The bytes of a control sequence. -/
def Edit.bytes (e : Edit) (ds : List Byte) : List Byte := ESC :: 0x5B :: (ds ++ [e.final])

/-- The cell in a row and a column after a control sequence with this parameter. -/
def wanted (con : Console) (n : Nat) (e : Edit) (r c : Nat) : BitVec 16 :=
  let x := con.x.toNat
  let y := con.y.toNat
  let k := min (max n 1) (25 - y)
  match e with
  | .insertLines =>
      if r < y then cell con r c else if r < y + k then con.erase else cell con (r - k) c
  | .deleteLines =>
      if r < y then cell con r c else if r + k < 25 then cell con (r + k) c else con.erase
  | .deleteChars =>
      if r = y ∧ x ≤ c then
        if c + max n 1 < 80 then cell con r (c + max n 1) else con.erase
      else cell con r c
  | .insertChars =>
      if r = y ∧ x ≤ c then
        if c < x + max n 1 then con.erase else cell con r (c - max n 1)
      else cell con r c

/-- The control sequence leaves on the screen what it should. -/
def Edits (con : Console) (ds : List Byte) (e : Edit) : Prop :=
  ∃ d, consoleBytes (e.bytes ds) con = .ok d ∧
    ∀ r c, r < 25 → c < 80 → cell d r c = wanted con (number ds).toNat e r c

/-- The cells of a column, with blank ones below the screen. -/
def below (con : Console) (c r : Nat) : BitVec 16 := if r < 25 then cell con r c else con.erase

/-- The cells of the cursor's row, with blank ones behind it. -/
def behind (con : Console) (c : Nat) : BitVec 16 :=
  if c < 80 then cell con con.y.toNat c else con.erase

/-- The cells on which a control sequence leaves what it should. -/
def Fitting (con : Console) (n : Nat) (e : Edit) : Prop :=
  let x := con.x.toNat
  let y := con.y.toNat
  let k := min (max n 1) (25 - y)
  match e with
  | .insertLines => True
  | .deleteLines => ∀ c, c < 80 →
      (if k = 1 then ∀ r, y ≤ r → r < 25 → (r - y) % 2 = 0 → below con c r = below con c (r + 1)
        else below con c y = below con c (y + k) ∧
          ∀ r, y < r → r < 25 → (r - y) % 2 = 0 ∨ y + k < r → below con c r = con.erase) ∧
      (y % 2 = 1 → cell con 25 c = con.erase ∨ con.top = 76 ∧ 2 ≤ n)
  | .deleteChars =>
      if x < 80 then n ≤ 25 ∨ ∀ c, x ≤ c → c < 80 → behind con (c + 25) = behind con (c + n)
      else y = 24 ∨ cell con (y + 1) 0 = con.erase
  | .insertChars =>
      if x < 80 then
        (cell con y x).extractLsb' 8 8 = con.erase.extractLsb' 8 8 ∧
          (n ≤ 25 ∨ ∀ c, x + 25 ≤ c → c < 80 →
            cell con y (c - 25) = if c < x + n then con.erase else cell con y (c - n))
      else y = 24 ∨ (cell con (y + 1) 0).setWidth 8 = con.erase.setWidth 8

variable {con c d : Console} {n y k : Nat} {ch : Byte} {ds : List Byte} {v : BitVec 32} {e : Edit}

/-! ## The bytes of a sequence -/

theorem arg_pos : 0 < ARG_NR := by decide

/-- The console among the parameters of a sequence. -/
def Console.reading (con : Console) (v : BitVec 32) : Console :=
  { con with state := .STATE_ARG, argc := 0, ques := 0
             args := Function.update (fun _ => 0) ⟨0, arg_pos⟩ v }

/-- The console behind its last byte. -/
def Console.read (con : Console) (v : BitVec 32) : Console :=
  { con with state := .STATE_NOR, argc := 1, ques := 0
             args := Function.update (fun _ => 0) ⟨0, arg_pos⟩ v }

theorem digit_byte (hch : Digit ch) :
    consoleByte (con.reading v) ch = .ok (con.reading (v * 10 + ch.setWidth 32 - 0x30)) := by
  have hsemi : ch ≠ 0x3B := by
    rintro rfl
    exact absurd hch (by decide)
  have hcount : ¬ ARG_NR ≤ (con.reading v).argc.toNat := by
    show ¬ 16 ≤ 0
    decide
  have hindex : argAt (con.reading v).argc = .ok 0 := rfl
  have hdigit : 0x30 ≤ ch ∧ ch ≤ 0x39 := hch
  have hread : stateArg (con.reading v) ch =
      .ok (false, con.reading (v * 10 + ch.setWidth 32 - 0x30)) := by
    rw [stateArg, if_neg hcount, if_neg hsemi, if_pos hdigit, hindex]
    show Except.ok (false, { con.reading v with
      args := Function.update (Function.update (fun _ => (0 : BitVec 32)) (0 : Fin ARG_NR) v) 0
        (Function.update (fun _ => (0 : BitVec 32)) (0 : Fin ARG_NR) v 0 * 10 + ch.setWidth 32 - 0x30) }) = _
    rw [Function.update_idem, Function.update_self]
    rfl
  show argByte (con.reading v) ch = _
  rw [argByte, hread, bind_ok]
  rfl

/-- The digits are read one after the other. -/
theorem digits_bytes (hds : ∀ ch ∈ ds, Digit ch) (rest : List Byte) :
    consoleBytes (ds ++ rest) (con.reading v) =
      consoleBytes rest (con.reading (ds.foldl (fun v ch => v * 10 + ch.setWidth 32 - 0x30) v)) := by
  induction ds generalizing v with
  | nil => rfl
  | cons ch ds ih =>
      rw [List.cons_append, consoleBytes, digit_byte (hds ch List.mem_cons_self), bind_ok]
      exact ih fun ch hch => hds ch (List.mem_cons_of_mem _ hch)

/-- What stands behind the digits ends the parameter. -/
theorem final_byte : consoleByte (con.reading v) e.final =
    stateCsi { con.reading v with argc := 1, state := .STATE_CSI } e.final := by
  have hcount : ¬ ARG_NR ≤ (con.reading v).argc.toNat := by
    show ¬ 16 ≤ 0
    decide
  have hsemi : e.final ≠ 0x3B := by cases e <;> decide
  have hdigit : ¬ (0x30 ≤ e.final ∧ e.final ≤ 0x39) := by cases e <;> decide
  show argByte (con.reading v) e.final = _
  rw [argByte, stateArg, if_neg hcount, if_neg hsemi, if_neg hdigit, bind_ok]
  rfl

/-- The first byte behind the bracket finds no parameter. -/
theorem first_byte (hch : ch ≠ 0x3F) :
    consoleByte { con with state := .STATE_QUE } ch = consoleByte (con.reading 0) ch := by
  have hargs : Function.update (fun _ => (0 : BitVec 32)) (⟨0, arg_pos⟩ : Fin ARG_NR) 0 =
      fun _ => 0 :=
    Function.update_eq_self _ fun _ => 0
  show (if ch = 0x3F then _ else argByte { con with
      args := fun _ => 0, argc := 0, state := .STATE_ARG, ques := if ch = 0x3F then 1 else 0 } ch) =
    argByte (con.reading 0) ch
  rw [if_neg hch, if_neg hch, Console.reading, hargs]

/-- The function a sequence calls. -/
def Edit.call : Edit → Console → Res Console
  | .insertLines => csiL
  | .deleteLines => csiM
  | .deleteChars => csiP
  | .insertChars => csiAt

theorem bytes_eq (hs : con.state = .STATE_NOR) (hds : ∀ ch ∈ ds, Digit ch) :
    consoleBytes (e.bytes ds) con = e.call (con.read (number ds)) := by
  have hesc : consoleByte con ESC = .ok { con with state := .STATE_ESC } := by
    rw [consoleByte, hs]
    rfl
  have hbracket : consoleByte { con with state := .STATE_ESC } 0x5B =
      .ok { con with state := .STATE_QUE } := rfl
  have hfirst : consoleBytes (ds ++ [e.final]) { con with state := .STATE_QUE } =
      consoleBytes (ds ++ [e.final]) (con.reading 0) := by
    cases ds with
    | nil =>
        rw [List.nil_append, consoleBytes, consoleBytes, first_byte]
        cases e <;> decide
    | cons ch ds =>
        rw [List.cons_append, consoleBytes, consoleBytes, first_byte]
        rintro rfl
        exact absurd (hds _ List.mem_cons_self) (by decide)
  rw [Edit.bytes, consoleBytes, hesc, bind_ok, consoleBytes, hbracket, bind_ok, hfirst,
    digits_bytes hds,
    consoleBytes, final_byte]
  have hcall : stateCsi { con.reading (number ds) with argc := 1, state := .STATE_CSI } e.final =
      e.call (con.read (number ds)) := by
    cases e <;> rfl
  have hend : ∀ x : Res Console, (x >>= consoleBytes []) = x := by
    intro x
    cases x with
    | error stop => rfl
    | ok d => rfl
  rw [hend]
  exact hcall

theorem Inside.read (hin : Inside con) (v : BitVec 32) : Inside (con.read v) :=
  (hin.count (show (1 : BitVec 32).toNat ≤ ARG_NR by decide)).dress .STATE_NOR _ 0 con.style con.erase

/-- The number of times the function of a sequence runs. -/
theorem csiRepeat_eq (hin : Inside con) (f : Console → Res Console) :
    csiRepeat f (con.read v) = repeatTimes f (min (max v.toNat 1) 25) (con.read v) := by
  have harg : (con.read v).args 0 = v := by
    show Function.update (fun _ => (0 : BitVec 32)) (0 : Fin ARG_NR) v 0 = v
    exact Function.update_self ..
  have hheight : (con.read v).height = 25 := hin.height
  rw [csiRepeat, harg, hheight]
  congr 1
  by_cases hlarge : (25 : BitVec 32) < v
  · rw [if_pos hlarge]
    have hlarge' : 25 < v.toNat := hlarge
    show 25 = _
    omega
  · rw [if_neg hlarge]
    have hsmall : ¬ 25 < v.toNat := hlarge
    by_cases hzero : v = 0
    · rw [if_pos hzero, hzero]
      rfl
    · rw [if_neg hzero]
      have hne : v.toNat ≠ 0 := fun h => hzero (BitVec.eq_of_toNat_eq h)
      omega

/-- A sequence leaves what it should when what it leaves is that. -/
theorem edits_iff {f : Nat → Nat → BitVec 16} (hs : con.state = .STATE_NOR)
    (hds : ∀ ch ∈ ds, Digit ch)
    (hcall : Ends Never (e.call (con.read (number ds))) fun d => Drawn (con.read (number ds)) d ∧
      ∀ r c, r < 25 → c < 80 → cell d r c = f r c) :
    Edits con ds e ↔ ∀ r c, r < 25 → c < 80 → f r c = wanted con (number ds).toNat e r c := by
  obtain ⟨d, hd, -, hcells⟩ := returns hcall
  rw [Edits, bytes_eq hs hds]
  constructor
  · rintro ⟨d', hd', hwanted⟩ r c hr hc
    obtain rfl : d = d' := Except.ok.inj (hd.symm.trans hd')
    rw [← hcells r c hr hc, hwanted r c hr hc]
  · intro hwanted
    exact ⟨d, hd, fun r c hr hc => (hcells r c hr hc).trans (hwanted r c hr hc)⟩

/-! ## Where the sequences fit -/

theorem insertLines_fit (hin : Inside con) (hs : con.state = .STATE_NOR)
    (hds : ∀ ch ∈ ds, Digit ch) :
    Edits con ds .insertLines := by
  have hcall : Ends Never (Edit.insertLines.call (con.read (number ds))) fun d =>
      Drawn (con.read (number ds)) d ∧ ∀ r c, r < 25 → c < 80 → cell d r c =
        if r < con.y.toNat then cell con r c
        else if r < con.y.toNat + min (max (number ds).toNat 1) 25 then con.erase
        else cell con (r - min (max (number ds).toNat 1) 25) c := by
    rw [Edit.call, csiL, csiRepeat_eq hin]
    exact insertLines_cells (hin.read _)
  have hy := hin.fits.y_lt
  refine (edits_iff hs hds hcall).mpr fun r c hr hc => ?_
  show _ = if r < con.y.toNat then _ else if _ then _ else _
  split
  · rfl
  · by_cases hblank : r < con.y.toNat + min (max (number ds).toNat 1) 25
    · rw [if_pos hblank, if_pos (by omega)]
    · rw [if_neg hblank, if_neg (by omega)]
      congr 1
      omega

/-- Behind the last column, a sequence that stores to the first cell of the next row
    only leaves what it should when there is no such row or the cell is kept. -/
theorem next_row_fit {f : Nat → Nat → BitVec 16} (hin : Inside con) (hs : con.state = .STATE_NOR)
    (hds : ∀ ch ∈ ds, Digit ch)
    (hkept : ∀ r c, c < 80 → wanted con (number ds).toNat e r c = cell con r c)
    (hcall : Ends Never (e.call (con.read (number ds))) fun d =>
      Drawn (con.read (number ds)) d ∧ ∀ r c, r < 25 → c < 80 → cell d r c =
        if r = con.y.toNat + 1 ∧ c = 0 then f r c else cell con r c) :
    Edits con ds e ↔
      con.y.toNat = 24 ∨ f (con.y.toNat + 1) 0 = cell con (con.y.toNat + 1) 0 := by
  have hy := hin.fits.y_lt
  rw [edits_iff hs hds hcall]
  constructor
  · intro h
    by_cases hbottom : con.y.toNat = 24
    · exact .inl hbottom
    · have hcell := h (con.y.toNat + 1) 0 (by omega) (by decide)
      rw [if_pos ⟨rfl, rfl⟩, hkept _ _ (by decide)] at hcell
      exact .inr hcell
  · intro h r c hr hc
    rw [hkept r c hc]
    split
    · rename_i hnext
      rcases h with hbottom | h
      · omega
      · rw [hnext.1, hnext.2, h]
    · rfl

theorem deleteChars_fit (hin : Inside con) (hs : con.state = .STATE_NOR)
    (hds : ∀ ch ∈ ds, Digit ch) :
    Edits con ds .deleteChars ↔ Fitting con (number ds).toNat .deleteChars := by
  obtain ⟨n, hn⟩ : ∃ n, n = (number ds).toNat := ⟨_, rfl⟩
  have hy := hin.fits.y_lt
  have hx := hin.fits.x_le
  rw [Fitting, ← hn]
  by_cases hlast : con.x.toNat < 80
  · have hcall : Ends Never (Edit.deleteChars.call (con.read (number ds))) fun d =>
        Drawn (con.read (number ds)) d ∧ ∀ r c, r < 25 → c < 80 → cell d r c =
          if r = con.y.toNat ∧ con.x.toNat ≤ c then
            if c + min (max n 1) 25 < 80 then cell con r (c + min (max n 1) 25) else con.erase
          else cell con r c := by
      rw [Edit.call, csiP, csiRepeat_eq hin, ← hn]
      exact deleteChars_cells (hin.read _) hlast
    rw [edits_iff hs hds hcall, ← hn, if_pos hlast]
    constructor
    · intro h
      by_cases hsmall : n ≤ 25
      · exact .inl hsmall
      · refine .inr fun c hc hcol => ?_
        have hcell := h con.y.toNat c hy hcol
        have hwanted : wanted con n .deleteChars con.y.toNat c =
            if c + max n 1 < 80 then cell con con.y.toNat (c + max n 1) else con.erase :=
          if_pos ⟨rfl, hc⟩
        rw [if_pos ⟨rfl, hc⟩, hwanted, show min (max n 1) 25 = 25 by omega,
          show max n 1 = n by omega] at hcell
        exact hcell
    · intro h r c hr hc
      show _ = if r = con.y.toNat ∧ con.x.toNat ≤ c then _ else _
      by_cases hrow : r = con.y.toNat ∧ con.x.toNat ≤ c
      · rw [if_pos hrow, if_pos hrow]
        rcases h with hsmall | h
        · rw [show min (max n 1) 25 = max n 1 by omega]
        · by_cases hsmall : n ≤ 25
          · rw [show min (max n 1) 25 = max n 1 by omega]
          · rw [show min (max n 1) 25 = 25 by omega, show max n 1 = n by omega, hrow.1]
            exact h c hrow.2 hc
      · rw [if_neg hrow, if_neg hrow]
  · have hpending : con.x.toNat = 80 := by omega
    have hcall : Ends Never (Edit.deleteChars.call (con.read (number ds))) fun d =>
        Drawn (con.read (number ds)) d ∧ ∀ r c, r < 25 → c < 80 → cell d r c =
          if r = con.y.toNat + 1 ∧ c = 0 then con.erase else cell con r c := by
      rw [Edit.call, csiP, csiRepeat_eq hin, ← hn]
      exact deleteChars_pending (hin.read _) hpending (by omega)
    rw [next_row_fit (e := .deleteChars) hin hs hds (fun r c hc => if_neg (by omega))
      hcall, if_neg hlast]
    exact or_congr_right eq_comm

theorem insertChars_fit (hin : Inside con) (hs : con.state = .STATE_NOR)
    (hds : ∀ ch ∈ ds, Digit ch) :
    Edits con ds .insertChars ↔ Fitting con (number ds).toNat .insertChars := by
  obtain ⟨n, hn⟩ : ∃ n, n = (number ds).toNat := ⟨_, rfl⟩
  have hy := hin.fits.y_lt
  have hx := hin.fits.x_le
  rw [Fitting, ← hn]
  by_cases hlast : con.x.toNat < 80
  · have hcall : Ends Never (Edit.insertChars.call (con.read (number ds))) fun d =>
        Drawn (con.read (number ds)) d ∧ ∀ r c, r < 25 → c < 80 → cell d r c =
          if r = con.y.toNat ∧ con.x.toNat ≤ c then
            if c < con.x.toNat + min (max n 1) 25 then
              (cell con con.y.toNat con.x.toNat).extractLsb' 8 8 ++ con.erase.setWidth 8
            else cell con r (c - min (max n 1) 25)
          else cell con r c := by
      rw [Edit.call, csiAt, csiRepeat_eq hin, ← hn]
      exact insertChars_cells (hin.read _) hlast
    have hwanted : ∀ c, con.x.toNat ≤ c → wanted con n .insertChars con.y.toNat c =
        if c < con.x.toNat + max n 1 then con.erase else cell con con.y.toNat (c - max n 1) :=
      fun c hc => if_pos ⟨rfl, hc⟩
    rw [edits_iff hs hds hcall, ← hn, if_pos hlast]
    constructor
    · intro h
      refine ⟨?_, ?_⟩
      · -- the cell at the cursor is one of the new ones
        have hcell := h con.y.toNat con.x.toNat hy hlast
        rw [if_pos ⟨rfl, Nat.le_refl _⟩, if_pos (by omega), hwanted _ (Nat.le_refl _),
          if_pos (by omega)] at hcell
        have hattr := congrArg (BitVec.extractLsb' 8 8) hcell
        rw [BitVec.extractLsb'_append_eq_left] at hattr
        exact hattr
      · by_cases hsmall : n ≤ 25
        · exact .inl hsmall
        · refine .inr fun c hc hcol => ?_
          have hcell := h con.y.toNat c hy hcol
          rw [if_pos ⟨rfl, by omega⟩, if_neg (by omega), hwanted _ (by omega),
            show min (max n 1) 25 = 25 by omega, show max n 1 = n by omega] at hcell
          exact hcell
    · rintro ⟨hattr, h⟩ r c hr hc
      have hblank : (cell con con.y.toNat con.x.toNat).extractLsb' 8 8 ++ con.erase.setWidth 8
          = con.erase := by
        rw [hattr]
        exact halves con.erase
      rw [hblank]
      by_cases hrow : r = con.y.toNat ∧ con.x.toNat ≤ c
      · rw [if_pos hrow, hrow.1, hwanted c hrow.2]
        by_cases hsmall : n ≤ 25
        · rw [show min (max n 1) 25 = max n 1 by omega]
        · rw [show min (max n 1) 25 = 25 by omega, show max n 1 = n by omega]
          by_cases hnew : c < con.x.toNat + 25
          · rw [if_pos hnew, if_pos (by omega)]
          · rw [if_neg hnew]
            exact (h.resolve_left hsmall) c (by omega) hc
      · rw [if_neg hrow]
        exact (if_neg hrow).symm
  · have hpending : con.x.toNat = 80 := by omega
    have hcall : Ends Never (Edit.insertChars.call (con.read (number ds))) fun d =>
        Drawn (con.read (number ds)) d ∧ ∀ r c, r < 25 → c < 80 → cell d r c =
          if r = con.y.toNat + 1 ∧ c = 0 then
            (cell con r c).extractLsb' 8 8 ++ con.erase.setWidth 8
          else cell con r c := by
      rw [Edit.call, csiAt, csiRepeat_eq hin, ← hn]
      exact insertChars_pending (hin.read _) hpending (by omega)
    rw [next_row_fit (e := .insertChars) hin hs hds (fun r c hc => if_neg (by omega))
      hcall, if_neg hlast]
    refine or_congr_right ⟨fun hcell => ?_, fun hchar => ?_⟩
    · have hchar := congrArg (BitVec.setWidth 8) hcell
      rw [BitVec.setWidth_append_eq_right] at hchar
      exact hchar.symm
    · rw [← hchar]
      exact halves _

/-! ### Rows that are deleted -/

/-- Rows that agree with those below them all the way down are blank. -/
theorem column_blank {f : Nat → BitVec 16} {blank : BitVec 16} (hf : ∀ r, 25 ≤ r → f r = blank)
    (hk : 2 ≤ k) (heven : ∀ r, y ≤ r → r < 25 → (r - y) % 2 = 0 → f r = f (r + k))
    (hodd : ∀ r, y < r → r < 24 → (r - y) % 2 = 1 → f (r + 1) = f (r + k)) (r : Nat) (hr : y < r)
    (hlt : r < 25) (hrow : (r - y) % 2 = 0 ∨ y + k < r) : f r = blank := by
  induction hm : 25 - r using Nat.strongRecOn generalizing r with
  | ind m ih =>
    -- from a row below this one, blank or behind the screen
    have hbelow : ∀ q, r < q → (q - y) % 2 = 0 ∨ y + k < q → f q = blank := by
      intro q hq hrow'
      by_cases hend : 25 ≤ q
      · exact hf q hend
      · exact ih (25 - q) (by omega) q (by omega) (by omega) hrow' rfl
    by_cases hpar : (r - y) % 2 = 0
    · rw [heven r (Nat.le_of_lt hr) hlt hpar]
      exact hbelow (r + k) (by omega) (.inr (by omega))
    have hfar : y + k < r := hrow.resolve_left hpar
    by_cases hkpar : k % 2 = 1
    · have h1 := heven (r - k) (by omega) (by omega) (by omega)
      have h2 := hodd (r - k - 1) (by omega) (by omega) (by omega)
      have h3 := heven (r - 1) (by omega) (by omega) (by omega)
      rw [show r - k + k = r by omega] at h1
      rw [show r - k - 1 + 1 = r - k by omega, show r - k - 1 + k = r - 1 by omega] at h2
      rw [← h1, h2, h3]
      exact hbelow (r - 1 + k) (by omega) (.inr (by omega))
    · have h1 := hodd (r - k) (by omega) (by omega) (by omega)
      have h2 := heven (r - k + 1) (by omega) (by omega) (by omega)
      rw [show r - k + k = r by omega] at h1
      rw [show r - k + 1 + k = r + 1 by omega] at h2
      rw [← h1, h2]
      exact hbelow (r + 1) (by omega) (.inl (by omega))

/-- The rows that are copied are those that should be. -/
theorem column_fits {f : Nat → BitVec 16} {blank : BitVec 16} (hf : ∀ r, 25 ≤ r → f r = blank)
    (hy : y < 25) (hk : 2 ≤ k) :
    ((∀ r, y ≤ r → r < 25 → (r - y) % 2 = 0 → f r = f (r + k)) ∧
      ∀ r, y < r → r < 24 → (r - y) % 2 = 1 → f (r + 1) = f (r + k)) ↔
    (f y = f (y + k) ∧ ∀ r, y < r → r < 25 → (r - y) % 2 = 0 ∨ y + k < r → f r = blank) := by
  constructor
  · rintro ⟨heven, hodd⟩
    exact ⟨heven y (Nat.le_refl y) hy (by omega), column_blank hf hk heven hodd⟩
  · rintro ⟨hfirst, hblank⟩
    have hfar : ∀ r, y + k < r → f r = blank := by
      intro r hr
      by_cases hend : 25 ≤ r
      · exact hf r hend
      · exact hblank r (by omega) (by omega) (.inr hr)
    refine ⟨fun r hr hlt hpar => ?_, fun r hr hlt hpar => ?_⟩
    · by_cases hcursor : r = y
      · rw [hcursor]
        exact hfirst
      · rw [hblank r (by omega) hlt (.inl hpar), hfar (r + k) (by omega)]
    · rw [hblank (r + 1) (by omega) (by omega) (.inl (by omega)), hfar (r + k) (by omega)]

theorem below_behind (con : Console) (c r : Nat) (hr : 25 ≤ r) : below con c r = con.erase :=
  if_neg (by omega)

/-- The last row of the screen, where it is copied over. -/
def HiddenFits (con : Console) (n c : Nat) : Prop :=
  con.y.toNat % 2 = 1 → cell con 25 c = con.erase ∨ con.top = 76 ∧ 2 ≤ n

/-- A column of the screen after rows were deleted. -/
theorem column_deleted (hy : con.y.toNat < 25) {c : Nat}
    (hk : k = min (max n 1) (25 - con.y.toNat)) :
    (∀ r, r < 25 →
      (if con.y.toNat < r ∧ (r - con.y.toNat) % 2 = 1 then
        if r = 24 ∧ con.top = 76 ∧ 2 ≤ min (max n 1) 25 then con.erase else cell con (r + 1) c
      else cell con r c) = wanted con n .deleteLines r c) ↔
    ((∀ r, con.y.toNat ≤ r → r < 25 → (r - con.y.toNat) % 2 = 0 →
        below con c r = below con c (r + k)) ∧
      ∀ r, con.y.toNat < r → r < 24 → (r - con.y.toNat) % 2 = 1 →
        below con c (r + 1) = below con c (r + k)) ∧
    HiddenFits con n c := by
  have hwanted : ∀ r, con.y.toNat ≤ r → wanted con n .deleteLines r c = below con c (r + k) := by
    intro r hr
    rw [hk]
    exact if_neg (by omega)
  have hshown : ∀ r, r < 25 → below con c r = cell con r c := fun r hr => if_pos hr
  constructor
  · intro h
    refine ⟨⟨fun r hr hlt hpar => ?_, fun r hr hlt hpar => ?_⟩, fun hodd => ?_⟩
    · have hrow := h r hlt
      rw [if_neg (by omega), hwanted r hr] at hrow
      rw [hshown r hlt]
      exact hrow
    · have hrow := h r (by omega)
      rw [if_pos ⟨hr, hpar⟩, if_neg (by omega), hwanted r (by omega)] at hrow
      rw [hshown (r + 1) (by omega)]
      exact hrow
    · have hrow := h 24 (by decide)
      rw [if_pos (by omega), hwanted 24 (by omega), below_behind con c _ (by omega)] at hrow
      by_cases hlast : con.top = 76 ∧ 2 ≤ n
      · exact .inr hlast
      · rw [if_neg (by omega)] at hrow
        exact .inl hrow
  · rintro ⟨⟨heven, hodd⟩, hhidden⟩ r hr
    by_cases habove : r < con.y.toNat
    · rw [if_neg (by omega)]
      exact (if_pos habove).symm
    rw [hwanted r (by omega)]
    by_cases hpar : con.y.toNat < r ∧ (r - con.y.toNat) % 2 = 1
    · rw [if_pos hpar]
      by_cases hlast : r = 24
      · subst hlast
        rw [below_behind con c _ (by omega)]
        split
        · rfl
        · exact (hhidden (by omega)).resolve_right (by omega)
      · rw [if_neg (by omega), ← hodd r hpar.1 (by omega) hpar.2, hshown _ (by omega)]
    · rw [if_neg hpar, ← heven r (by omega) hr (by omega), hshown r hr]

theorem deleteLines_fit (hin : Inside con) (hs : con.state = .STATE_NOR)
    (hds : ∀ ch ∈ ds, Digit ch) :
    Edits con ds .deleteLines ↔ Fitting con (number ds).toNat .deleteLines := by
  obtain ⟨n, hn⟩ : ∃ n, n = (number ds).toNat := ⟨_, rfl⟩
  obtain ⟨k, hk⟩ : ∃ k, k = min (max n 1) (25 - con.y.toNat) := ⟨_, rfl⟩
  have hy := hin.fits.y_lt
  have hcall : Ends Never (Edit.deleteLines.call (con.read (number ds))) fun d =>
      Drawn (con.read (number ds)) d ∧ ∀ r c, r < 25 → c < 80 → cell d r c =
        if con.y.toNat < r ∧ (r - con.y.toNat) % 2 = 1 then
          if r = 24 ∧ con.top = 76 ∧ 2 ≤ min (max n 1) 25 then con.erase else cell con (r + 1) c
        else cell con r c := by
    rw [Edit.call, csiM, csiRepeat_eq hin, ← hn]
    exact deleteLines_cells (hin.read _) (by omega)
  have hcolumns : Edits con ds .deleteLines ↔ ∀ c, c < 80 →
      ((∀ r, con.y.toNat ≤ r → r < 25 → (r - con.y.toNat) % 2 = 0 →
          below con c r = below con c (r + k)) ∧
        ∀ r, con.y.toNat < r → r < 24 → (r - con.y.toNat) % 2 = 1 →
          below con c (r + 1) = below con c (r + k)) ∧ HiddenFits con n c := by
    rw [edits_iff hs hds hcall, ← hn]
    constructor
    · intro h c hc
      exact (column_deleted hy hk).mp fun r hr => h r c hr hc
    · intro h r c hr hc
      exact (column_deleted hy hk).mpr (h c hc) r hr
  rw [hcolumns, Fitting, ← hn, ← hk]
  refine forall_congr' fun c => forall_congr' fun _ => and_congr ?_ Iff.rfl
  by_cases hone : k = 1
  · rw [if_pos hone, hone]
    exact and_iff_left fun r _ _ _ => rfl
  · rw [if_neg hone]
    exact column_fits (below_behind con c) hy (by omega)

/-- On which screens each of the control sequences leaves what it should. -/
theorem edits_exact (con : Console) (ds : List Byte) (e : Edit) (hin : Inside con)
    (hs : con.state = .STATE_NOR) (hds : ∀ ch ∈ ds, Digit ch) :
    Edits con ds e ↔ Fitting con (number ds).toNat e := by
  cases e with
  | insertLines => exact iff_of_true (insertLines_fit hin hs hds) trivial
  | deleteLines => exact deleteLines_fit hin hs hds
  | deleteChars => exact deleteChars_fit hin hs hds
  | insertChars => exact insertChars_fit hin hs hds

theorem edits_exact_zero :
    Edits (zeroConsole 0xB8000) [0x32] .deleteLines ↔
      Fitting (zeroConsole 0xB8000) (number [0x32]).toNat .deleteLines := by
  have hfits : Fits (0xB8000 : BitVec 32) 0 24 (0xB8000 + 160 * 24) :=
    ⟨by decide, by decide, by decide, by decide, by decide, by decide⟩
  have hin : Inside (zeroConsole 0xB8000) :=
    Inside.intro ⟨rfl, rfl, rfl, rfl, rfl, rfl, rfl⟩ hfits (show (0 : BitVec 32) ≤ 80 by decide)
      (show (0 : BitVec 32) < 25 by decide) (Nat.zero_le _)
  exact edits_exact _ [0x32] .deleteLines hin rfl (by decide)

/-- `console_clear` leaves a blank screen. -/
theorem consoleClear_displays (hg : Geometry con) :
    Ends Never (consoleClear con) fun d =>
      Displays d ⟨fun _ => con.erase, 0, 0, con.erase, con.style⟩ := by
  have hcount : (con.mem_size >>> 1).toNat = 8160 := by
    rw [hg.mem_size]
    rfl
  have hbase : con.mem_base.toNat = 0xB8000 + 2 * 0 := by
    rw [hg.mem_base]
    rfl
  have hg' : Geometry { con with screen := con.mem_base, pos := con.mem_base, x := 0, y := 0 } :=
    ⟨hg.1, hg.2, hg.3, hg.4, hg.5, hg.6, hg.7⟩
  refine Ends.mono (eraseScreen_puts hg' hbase (by rw [hcount])) fun d hd => ?_
  obtain ⟨⟨m, rfl⟩, hw⟩ := hd
  refine ⟨fun i hi => ?_, rfl, rfl, rfl, rfl⟩
  have htop : (con.mem_base.toNat - 0xB8000) / 160 = 0 := by
    rw [hbase]
  show Console.word _ (80 * ((con.mem_base.toNat - 0xB8000) / 160) + i) = con.erase
  rw [htop]
  refine (hw (80 * 0 + i) (by omega)).trans (if_pos ?_)
  rw [hcount]
  omega

/-- The screen `console_init` leaves. -/
theorem consoleInit_displays (mem : BitVec 32 → Byte) :
    Ends Never (consoleInit mem) fun c => Displays c ⟨fun _ => ERASE, 0, 0, ERASE, STYLE⟩ := by
  have hsize : MEM_SIZE / ROW_SIZE * ROW_SIZE = 16320 := by decide
  have hend : MEM_BASE + MEM_SIZE / ROW_SIZE * ROW_SIZE = 0xBBFC0 := by decide
  exact consoleClear_displays ⟨rfl, hsize, hend, rfl, rfl, rfl, rfl⟩

/-- A character is written, and its line deleted. -/
theorem line_kept : ∃ con, (consoleInit (fun _ => 0) >>= writeAll [[0x61]]) = .ok con ∧
    Inside con ∧ con.state = .STATE_NOR ∧ ¬ Edits con [] .deleteLines := by
  obtain ⟨mem, hmem⟩ : ∃ mem : BitVec 32 → Byte, mem = fun _ => 0 := ⟨_, rfl⟩
  rw [← hmem]
  obtain ⟨c, hc, ⟨hcin, hparser⟩, hblank⟩ :=
    returns ((consoleInit_inside mem).and (consoleInit_displays mem))
  have hcstate : c.state = .STATE_NOR := congrArg Parser.state hparser
  obtain ⟨con, hcon, hin, hs, hshown⟩ :=
    returns (consoleBytes_displays [0x61] hcin hcstate hblank (by decide))
  refine ⟨con, ?_, hin, hs, fun hedits => ?_⟩
  · rw [hc, bind_ok, writeAll, consoleWrite, hcon]
    rfl
  · have hfit := (deleteLines_fit hin hs (fun ch hch => absurd hch List.not_mem_nil)).mp hedits
    have hy : con.y.toNat = 0 := hshown.y
    have hcolumn := (hfit 0 (by decide)).1
    rw [hy] at hcolumn
    have hfirst := (if_pos (by decide)).mp hcolumn 0 (Nat.le_refl 0) (by decide) rfl
    have hrow : cell con 0 0 = cell con 1 0 := hfirst
    rw [hshown.cell hin (by decide) (by decide), hshown.cell hin (by decide) (by decide)] at hrow
    exact absurd hrow (by decide)

end NeonixConsole
