import Neonix.Screens

/-! # Insertions and deletions, cell by cell

    What `insert_line`, `delete_line`, `delete_char` and `insert_char` leave in the
    words of the video memory when they run several times, and what the display
    shows of it. -/

namespace NeonixConsole

open NeonixByteBits NeonixMachine NeonixOutcome

variable {con c : Console} {start ptr : BitVec 32} {n t p q : Nat} {w : Nat → BitVec 16}

theorem Drawn.top (h : Drawn con c) : c.top = con.top := by
  obtain ⟨m, rfl⟩ := h
  rfl

theorem Drawn.y (h : Drawn con c) : c.y = con.y := by
  obtain ⟨m, rfl⟩ := h
  rfl

theorem Drawn.pos (h : Drawn con c) : c.pos = con.pos := by
  obtain ⟨m, rfl⟩ := h
  rfl

theorem Drawn.inside (h : Drawn con c) (hin : Inside con) : Inside c := (h.steps hin).inside

/-- The cells of the screen are words of the video memory. -/
theorem Puts.cells {x : Res Console} (hin : Inside con) (h : Puts con x w) :
    Ends Never x fun c =>
      Drawn con c ∧ ∀ r k, 80 * r + k < 2080 → cell c r k = w (80 * con.top + (80 * r + k)) := by
  refine Ends.mono h fun c hc => ⟨hc.1, fun r k hcell => ?_⟩
  have htop := hin.top_eq.2
  rw [cell_eq (hc.1.inside hin) hcell, hc.1.top]
  exact hc.2 _ (by omega)

/-- The row of the video memory the cursor is in. -/
theorem Inside.line (hin : Inside con) :
    (con.screen + con.y * con.row_size).toNat = 0xB8000 + 2 * (80 * (con.top + con.y.toNat)) ∧
      con.top + con.y.toNat ≤ 100 := by
  have hy := hin.fits.y_lt
  obtain ⟨hscreen, htop⟩ := hin.top_eq
  rw [hin.row_start, hscreen]
  omega

theorem Geometry.turns (hg : Geometry con) : con.mem_size.toNat = 16320 := by
  rw [hg.mem_size]
  rfl

theorem Geometry.row_bytes (hg : Geometry con) : con.row_size.toNat = 2 * 80 := by
  rw [hg.row_size]
  rfl

/-! ## `insert_line` -/

/-- The rows from a row on move down, from the end of the video memory on. -/
theorem moveDown_puts {i : BitVec 32} (hg : Geometry con)
    (hstart : start.toNat = 0xB8000 + 2 * (80 * t))
    (hi : 2 ≤ i.toNat) (hle : i.toNat + t ≤ 103) (hn : 104 ≤ n + i.toNat) :
    Puts con (moveDown con start i n) fun j =>
      if 80 * (t + 1) ≤ j ∧ j < 80 * (104 - i.toNat) then con.word (j - 80) else con.word j := by
  induction n generalizing con i with
  | zero => omega
  | succ n ih =>
      have hsrc : (con.mem_end - i * con.row_size).toNat = 0xBBFC0 - 160 * i.toNat := by
        rw [hg.mem_end, hg.row_size]
        bv_omega
      have htest : con.mem_end - i * con.row_size < start ↔ i.toNat + t = 103 := by
        rw [BitVec.lt_def, hsrc, hstart]
        omega
      rw [moveDown]
      by_cases hend : i.toNat + t = 103
      · rw [if_pos (htest.mpr hend)]
        exact Puts.refl fun j _ => (if_neg (by omega)).symm
      rw [if_neg (fun h => hend (htest.mp h))]
      have hdest : (con.mem_end - i * con.row_size + con.row_size).toNat
          = 0xBBFC0 - 160 * i.toNat + 160 := by
        rw [BitVec.toNat_add, hsrc, hg.row_size]
        show (_ + 160) % 2 ^ 32 = _
        omega
      have hnext : (i + 1).toNat = i.toNat + 1 := by bv_omega
      have hcopy : Puts con (memcpy con (con.mem_end - i * con.row_size + con.row_size)
          (con.mem_end - i * con.row_size) con.row_size.toNat) fun j =>
            if 80 * (103 - i.toNat) ≤ j ∧ j < 80 * (103 - i.toNat) + 80 then
              con.word (80 * (102 - i.toNat) + (j - 80 * (103 - i.toNat)))
            else con.word j := by
        rw [hg.row_bytes]
        exact memcpy_puts hg (by omega) (by omega) (by omega) (by omega) (by omega)
      refine hcopy.bind fun c hc hw => ?_
      refine (ih (hc.geometry hg) (by omega) (by omega) (by omega)).congr fun j hj => ?_
      rw [hnext]
      by_cases hrow : 80 * (t + 1) ≤ j ∧ j < 80 * (104 - (i.toNat + 1))
      · -- a row that moves later has not been stored to
        rw [if_pos hrow, hw _ (by omega), if_neg (by omega), if_pos (by omega)]
      · rw [if_neg hrow, hw j hj]
        by_cases hnow : 80 * (103 - i.toNat) ≤ j ∧ j < 80 * (103 - i.toNat) + 80
        · rw [if_pos hnow, if_pos (by omega)]
          congr 1
          omega
        · rw [if_neg hnow, if_neg (by omega)]

theorem insertLine_puts (hin : Inside con) (ht : t = con.top + con.y.toNat) :
    Puts con (insertLine con) fun j =>
      if 80 * t ≤ j ∧ j < 8160 then
        if j < 80 * (t + 1) then con.erase else con.word (j - 80)
      else con.word j := by
  subst ht
  obtain ⟨hline, hle⟩ := hin.line
  have hmove := moveDown_puts (i := 2) (n := con.mem_size.toNat) hin.toGeometry hline (by decide)
    (show 2 + _ ≤ 103 by omega) (by rw [hin.turns]; decide)
  refine hmove.bind fun c hc hw => ?_
  have hin' := hc.inside hin
  have herase : Puts c (eraseScreen c (c.screen + c.y * c.row_size) c.width.toNat) fun j =>
      if 80 * (con.top + con.y.toNat) ≤ j ∧ j < 80 * (con.top + con.y.toNat) + 80 then c.erase
      else c.word j := by
    have hline' := hin'.line.1
    rw [hc.top, hc.y] at hline'
    rw [hin'.width]
    exact eraseScreen_puts (n := 80) hin'.toGeometry (hc.y ▸ hline') (by omega)
  refine herase.congr fun j hj => ?_
  show _ = if _ then _ else _
  by_cases hrow : 80 * (con.top + con.y.toNat) ≤ j ∧ j < 80 * (con.top + con.y.toNat) + 80
  · rw [if_pos hrow, if_pos (by omega), if_pos (by omega), hc.erase]
  · rw [if_neg hrow, hw j hj]
    by_cases hbelow : 80 * (con.top + con.y.toNat + 1) ≤ j ∧ j < 80 * (104 - (2 : BitVec 32).toNat)
    · have h2 : (2 : BitVec 32).toNat = 2 := rfl
      rw [if_pos hbelow, if_pos (by omega), if_neg (by omega)]
    · have h2 : (2 : BitVec 32).toNat = 2 := rfl
      rw [if_neg hbelow, if_neg (by omega)]

theorem insertLines_puts (hin : Inside con) (ht : t = con.top + con.y.toNat) :
    Puts con (repeatTimes insertLine n con) fun j =>
      if 80 * t ≤ j ∧ j < 8160 then
        if j < 80 * (t + n) then con.erase else con.word (j - 80 * n)
      else con.word j := by
  induction n generalizing con with
  | zero =>
      refine Puts.refl fun j _ => ?_
      split
      · rw [if_neg (by omega)]
        rfl
      · rfl
  | succ n ih =>
      refine (insertLine_puts hin ht).bind fun c hc hw => ?_
      refine (ih (hc.inside hin) (by rw [hc.top, hc.y]; exact ht)).congr fun j hj => ?_
      show _ = if _ then _ else _
      rw [hc.erase]
      by_cases hrange : 80 * t ≤ j ∧ j < 8160
      · rw [if_pos hrange, if_pos hrange]
        by_cases hblank : j < 80 * (t + n)
        · rw [if_pos hblank, if_pos (by omega)]
        · rw [if_neg hblank, hw _ (by omega), if_pos (by omega)]
          by_cases hfirst : j - 80 * n < 80 * (t + 1)
          · rw [if_pos hfirst, if_pos (by omega)]
          · rw [if_neg hfirst, if_neg (by omega), Nat.mul_succ, Nat.sub_add_eq]
      · rw [if_neg hrange, if_neg hrange, hw j hj, if_neg hrange]

/-- The rows from the cursor's on move down, and blank rows take their place. -/
theorem insertLines_cells (hin : Inside con) :
    Ends Never (repeatTimes insertLine n con) fun c => Drawn con c ∧
      ∀ r k, r < 25 → k < 80 → cell c r k =
        if r < con.y.toNat then cell con r k
        else if r < con.y.toNat + n then con.erase else cell con (r - n) k := by
  have htop := hin.top_eq.2
  refine Ends.mono ((insertLines_puts hin rfl).cells hin) fun c hc => ⟨hc.1, fun r k hr hk => ?_⟩
  rw [hc.2 r k (by omega)]
  by_cases habove : r < con.y.toNat
  · rw [if_neg (by omega), if_pos habove, cell_eq hin (by omega)]
  · rw [if_pos (by omega), if_neg habove]
    by_cases hblank : r < con.y.toNat + n
    · rw [if_pos (by omega), if_pos hblank]
    · rw [if_neg (by omega), if_neg hblank, cell_eq hin (by omega)]
      congr 1
      omega

/-! ## `delete_line` -/

/-- Every other row from a row on is copied to the row above it. -/
theorem moveUp_puts {i : BitVec 32} (hg : Geometry con)
    (hstart : start.toNat = 0xB8000 + 2 * (80 * t))
    (ht : t ≤ 100) (hi : 1 ≤ i.toNat) (hle : i.toNat ≤ 51) (hn : 52 ≤ n + i.toNat) :
    Puts con (moveUp con start i n) fun j =>
      if t + 2 * i.toNat ≤ j / 80 + 1 ∧ j / 80 < 101 ∧ (j / 80 - t) % 2 = 1 then con.word (j + 80)
      else con.word j := by
  induction n generalizing con i with
  | zero => omega
  | succ n ih =>
      have hsrc : (start + 2 * (i * con.row_size)).toNat = start.toNat + 320 * i.toNat := by
        rw [hg.row_size]
        bv_omega
      have htest : con.mem_end ≤ start + 2 * (i * con.row_size) ↔ 102 ≤ t + 2 * i.toNat := by
        rw [hg.mem_end, BitVec.le_def, hsrc, hstart]
        show 0xBBFC0 ≤ _ ↔ _
        omega
      rw [moveUp]
      by_cases hend : 102 ≤ t + 2 * i.toNat
      · rw [if_pos (htest.mpr hend)]
        exact Puts.refl fun j _ => (if_neg (by omega)).symm
      rw [if_neg (fun h => hend (htest.mp h))]
      have hdest : (start + 2 * (i * con.row_size) - con.row_size).toNat
          = start.toNat + 320 * i.toNat - 160 := by
        rw [BitVec.toNat_sub_of_le, hsrc, hg.row_bytes]
        show con.row_size.toNat ≤ _
        rw [hsrc, hg.row_bytes]
        omega
      have hnext : (i + 1).toNat = i.toNat + 1 := by bv_omega
      have hcopy : Puts con (memcpy con (start + 2 * (i * con.row_size) - con.row_size)
          (start + 2 * (i * con.row_size)) con.row_size.toNat) fun j =>
            if 80 * (t + 2 * i.toNat - 1) ≤ j ∧ j < 80 * (t + 2 * i.toNat - 1) + 80 then
              con.word (80 * (t + 2 * i.toNat) + (j - 80 * (t + 2 * i.toNat - 1)))
            else con.word j := by
        rw [hg.row_bytes]
        exact memcpy_puts hg (by omega) (by omega) (by omega) (by omega) (by omega)
      refine hcopy.bind fun c hc hw => ?_
      refine (ih (hc.geometry hg) (by omega) (by omega) (by omega)).congr fun j hj => ?_
      rw [hnext]
      by_cases hrow : t + 2 * (i.toNat + 1) ≤ j / 80 + 1 ∧ j / 80 < 101 ∧ (j / 80 - t) % 2 = 1
      · -- the row below stands at an even distance and has not been stored to
        rw [if_pos hrow, hw _ (by omega), if_neg (by omega), if_pos (by omega)]
      · rw [if_neg hrow, hw j hj]
        by_cases hnow : 80 * (t + 2 * i.toNat - 1) ≤ j ∧ j < 80 * (t + 2 * i.toNat - 1) + 80
        · rw [if_pos hnow, if_pos (by omega)]
          congr 1
          omega
        · rw [if_neg hnow, if_neg (by omega)]

/-- The last row of the video memory is erased, not the last row of the screen. -/
theorem deleteLine_puts (hin : Inside con) (ht : t = con.top + con.y.toNat) :
    Puts con (deleteLine con) fun j =>
      if j / 80 = 101 then con.erase
      else if t < j / 80 ∧ j / 80 < 101 ∧ (j / 80 - t) % 2 = 1 then con.word (j + 80)
      else con.word j := by
  subst ht
  obtain ⟨hline, hle⟩ := hin.line
  have h1 : (1 : BitVec 32).toNat = 1 := rfl
  have hmove := moveUp_puts (i := 1) (n := con.mem_size.toNat) hin.toGeometry hline hle (by decide)
    (by decide) (by rw [hin.turns]; decide)
  refine hmove.bind fun c hc hw => ?_
  have hin' := hc.inside hin
  have hlast : (c.mem_end - c.row_size).toNat = 0xB8000 + 2 * 8080 := by
    rw [hin'.mem_end, hin'.row_size]
    rfl
  have herase : Puts c (eraseScreen c (c.mem_end - c.row_size) c.width.toNat) fun j =>
      if 8080 ≤ j ∧ j < 8080 + 80 then c.erase else c.word j := by
    rw [hin'.width]
    exact eraseScreen_puts (n := 80) hin'.toGeometry hlast (by decide)
  refine herase.congr fun j hj => ?_
  show _ = if _ then _ else _
  by_cases hrow : 8080 ≤ j ∧ j < 8080 + 80
  · rw [if_pos hrow, if_pos (by omega), hc.erase]
  · rw [if_neg hrow, if_neg (by omega), hw j hj, h1]
    exact if_congr (by omega) rfl rfl

/-- When they are deleted again, the rows at an odd distance are copies already. -/
theorem deleteLines_puts (hin : Inside con) (ht : t = con.top + con.y.toNat) (hn : 1 ≤ n) :
    Puts con (repeatTimes deleteLine n con) fun j =>
      if j / 80 = 101 then con.erase
      else if t < j / 80 ∧ j / 80 < 101 ∧ (j / 80 - t) % 2 = 1 then
        if j / 80 = 100 ∧ 2 ≤ n then con.erase else con.word (j + 80)
      else con.word j := by
  induction n generalizing con with
  | zero => omega
  | succ n ih =>
      refine (deleteLine_puts hin ht).bind fun c hc hw => ?_
      by_cases hone : n = 0
      · subst hone
        refine Puts.refl fun j hj => (hw j hj).trans ?_
        split
        · rfl
        · split
          · rw [if_neg (by omega)]
          · rfl
      refine (ih (hc.inside hin) (by rw [hc.top, hc.y]; exact ht) (by omega)).congr fun j hj => ?_
      show _ = if _ then _ else _
      by_cases hlast : j / 80 = 101
      · rw [if_pos hlast, if_pos hlast, hc.erase]
      rw [if_neg hlast, if_neg hlast]
      by_cases hodd : t < j / 80 ∧ j / 80 < 101 ∧ (j / 80 - t) % 2 = 1
      · rw [if_pos hodd, if_pos hodd, hc.erase, hw _ (by omega)]
        by_cases hback : j / 80 = 100
        · rw [if_pos (show (j + 80) / 80 = 101 by omega), if_pos (show _ ∧ 2 ≤ n + 1 by omega),
            ite_self]
        · rw [if_neg (by omega), if_neg (by omega), if_neg (by omega), if_neg (by omega)]
      · rw [if_neg hodd, if_neg hodd, hw j hj, if_neg hlast, if_neg hodd]

/-- Only the rows at an odd distance below the cursor's change. -/
theorem deleteLines_cells (hin : Inside con) (hn : 1 ≤ n) :
    Ends Never (repeatTimes deleteLine n con) fun c => Drawn con c ∧
      ∀ r k, r < 25 → k < 80 → cell c r k =
        if con.y.toNat < r ∧ (r - con.y.toNat) % 2 = 1 then
          if r = 24 ∧ con.top = 76 ∧ 2 ≤ n then con.erase else cell con (r + 1) k
        else cell con r k := by
  have htop := hin.top_eq.2
  refine Ends.mono ((deleteLines_puts hin rfl hn).cells hin) fun c hc => ⟨hc.1, fun r k hr hk => ?_⟩
  have hrow : (80 * con.top + (80 * r + k)) / 80 = con.top + r := by omega
  rw [hc.2 r k (by omega), hrow, if_neg (by omega)]
  by_cases hodd : con.y.toNat < r ∧ (r - con.y.toNat) % 2 = 1
  · rw [if_pos (by omega), if_pos hodd]
    refine if_congr (by omega) rfl ?_
    rw [cell_eq hin (by omega)]
    congr 1
    omega
  · rw [if_neg (by omega), if_neg hodd, cell_eq hin (by omega)]

/-! ## `delete_char` -/

/-- The word the cursor is at. -/
theorem Inside.pos_word (hin : Inside con) :
    con.pos.toNat = 0xB8000 + 2 * (80 * (con.top + con.y.toNat) + con.x.toNat) := by
  rw [hin.fits.pos, hin.top_eq.1]
  omega

/-- The words behind the cursor are pulled back, up to the end of the row. -/
theorem pullBack_puts {i : BitVec 16} (hg : Geometry con) (hptr : ptr.toNat = 0xB8000 + 2 * p)
    (hi : i.toNat ≤ 80) (hend : p + (79 - i.toNat) < 8160) (hn : 81 ≤ n + i.toNat) :
    Ends Never (pullBack con ptr i n) fun r =>
      (Drawn con r.2 ∧ ∀ j, j < 8192 → r.2.word j =
        if p ≤ j ∧ j < p + (79 - i.toNat) then con.word (j + 1) else con.word j) ∧
      r.1.toNat = 0xB8000 + 2 * (p + (79 - i.toNat)) := by
  induction n generalizing con ptr i p with
  | zero => omega
  | succ n ih =>
      have hnext : (i + 1).toNat = i.toNat + 1 := by bv_omega
      have htest : (i + 1).setWidth 32 < con.width ↔ i.toNat + 1 < 80 := by
        rw [hg.width, BitVec.lt_def, BitVec.toNat_setWidth, hnext]
        show (i.toNat + 1) % 2 ^ 32 < 80 ↔ _
        omega
      rw [pullBack]
      by_cases hcol : i.toNat + 1 < 80
      · rw [if_pos (htest.mpr hcol)]
        have hnextp : (ptr + 2).toNat = 0xB8000 + 2 * (p + 1) := by bv_omega
        rw [word_eq con hnextp]
        refine Ends.bind (store16_puts hg hptr (by omega) (con.word (p + 1))) fun c hc => ?_
        obtain ⟨hc, hw⟩ := hc
        have hw' : ∀ j, j < 8192 → c.word j = if j = p then con.word (p + 1) else con.word j := hw
        refine (ih (hc.geometry hg) hnextp (by omega) (by omega) (by omega)).mono fun r hr => ?_
        obtain ⟨⟨hdrawn, hwords⟩, hlast⟩ := hr
        refine ⟨⟨hc.trans hdrawn, fun j hj => ?_⟩, by omega⟩
        rw [hwords j hj, hnext]
        by_cases hlater : p + 1 ≤ j ∧ j < p + 1 + (79 - (i.toNat + 1))
        · rw [if_pos hlater, if_pos (by omega)]
          rw [hw' _ (by omega), if_neg (by omega)]
        · rw [if_neg hlater, hw' j hj]
          by_cases hfirst : j = p
          · rw [if_pos hfirst, if_pos (by omega), hfirst]
          · rw [if_neg hfirst, if_neg (by omega)]
      · rw [if_neg (fun h => hcol (htest.mp h))]
        refine ⟨⟨Drawn.refl, fun j _ => (if_neg (by omega)).symm⟩, ?_⟩
        show ptr.toNat = _
        omega

theorem Inside.column (hin : Inside con) : (con.x.setWidth 16).toNat = con.x.toNat := by
  have hx := hin.fits.x_le
  rw [BitVec.toNat_setWidth]
  omega

/-- A blank word comes into the last column, or to the cursor where that is behind
    the last column. -/
theorem deleteChar_puts (hin : Inside con) (hp : p = 80 * (con.top + con.y.toNat) + con.x.toNat) :
    Puts con (deleteChar con) fun j =>
      if p ≤ j ∧ j < p + (79 - con.x.toNat) then con.word (j + 1)
      else if j = p + (79 - con.x.toNat) then con.erase else con.word j := by
  have hcol := hin.column
  have hx := hin.fits.x_le
  have hline := hin.line.2
  have hloop := pullBack_puts (i := con.x.setWidth 16) (n := con.mem_size.toNat) (p := p)
    hin.toGeometry (hp ▸ hin.pos_word) (by omega) (by omega) (by rw [hin.turns]; omega)
  rw [hcol] at hloop
  refine Ends.bind hloop fun r hr => ?_
  obtain ⟨⟨hdrawn, hw⟩, hlast⟩ := hr
  refine Ends.mono (store16_puts (hdrawn.geometry hin.toGeometry) hlast (by omega) r.2.erase) fun c hc => ?_
  refine ⟨hdrawn.trans hc.1, fun j hj => (hc.2 j hj).trans ?_⟩
  show (if j = p + (79 - con.x.toNat) then _ else r.2.word j) = if _ then _ else if _ then _ else _
  rw [hw j hj, hdrawn.erase]
  by_cases hrange : p ≤ j ∧ j < p + (79 - con.x.toNat)
  · rw [if_neg (by omega), if_pos hrange, if_pos hrange]
  · rw [if_neg hrange, if_neg hrange]

theorem deleteChars_puts (hin : Inside con) (hp : p = 80 * (con.top + con.y.toNat) + con.x.toNat)
    (hq : q = p + (79 - con.x.toNat) + 1) :
    Puts con (repeatTimes deleteChar n con) fun j =>
      if p ≤ j ∧ j < q then if j + n < q then con.word (j + n) else con.erase else con.word j := by
  induction n generalizing con with
  | zero =>
      refine Puts.refl fun j _ => ?_
      split
      · rw [if_pos (by omega)]
        rfl
      · rfl
  | succ n ih =>
      refine (deleteChar_puts hin hp).bind fun c hc hw => ?_
      refine (ih (hc.inside hin) (by rw [hc.top, hc.y, hc.x]; exact hp)
        (by rw [hc.x]; exact hq)).congr fun j hj => ?_
      have hline := hin.line.2
      have hx := hin.fits.x_le
      rw [hc.erase]
      by_cases hrange : p ≤ j ∧ j < q
      · rw [if_pos hrange]
        show _ = if _ then _ else _
        rw [if_pos hrange]
        by_cases hleft : j + n < q
        · rw [if_pos hleft, hw _ (by omega)]
          by_cases hmore : j + (n + 1) < q
          · rw [if_pos hmore, if_pos (by omega), Nat.add_assoc]
          · rw [if_neg hmore, if_neg (by omega), if_pos (by omega)]
        · rw [if_neg hleft, if_neg (by omega)]
      · rw [if_neg hrange, hw j hj, if_neg (by omega), if_neg (by omega)]
        exact (if_neg hrange).symm

/-- The cells behind the cursor are pulled back. -/
theorem deleteChars_cells (hin : Inside con) (hx : con.x.toNat < 80) :
    Ends Never (repeatTimes deleteChar n con) fun c => Drawn con c ∧
      ∀ r k, r < 25 → k < 80 → cell c r k =
        if r = con.y.toNat ∧ con.x.toNat ≤ k then
          if k + n < 80 then cell con r (k + n) else con.erase
        else cell con r k := by
  have htop := hin.top_eq.2
  refine Ends.mono ((deleteChars_puts hin rfl rfl).cells hin) fun c hc =>
    ⟨hc.1, fun r k hr hk => ?_⟩
  rw [hc.2 r k (by omega)]
  by_cases hrow : r = con.y.toNat ∧ con.x.toNat ≤ k
  · rw [if_pos (by omega), if_pos hrow]
    by_cases hcol : k + n < 80
    · rw [if_pos (by omega), if_pos hcol, cell_eq hin (by omega)]
      congr 1
      omega
    · rw [if_neg (by omega), if_neg hcol]
  · rw [if_neg (by omega), if_neg hrow, cell_eq hin (by omega)]

/-- Behind the last column, the first cell of the next row is erased. -/
theorem deleteChars_pending (hin : Inside con) (hx : con.x.toNat = 80) (hn : 1 ≤ n) :
    Ends Never (repeatTimes deleteChar n con) fun c => Drawn con c ∧
      ∀ r k, r < 25 → k < 80 → cell c r k =
        if r = con.y.toNat + 1 ∧ k = 0 then con.erase else cell con r k := by
  have htop := hin.top_eq.2
  refine Ends.mono ((deleteChars_puts hin rfl rfl).cells hin) fun c hc =>
    ⟨hc.1, fun r k hr hk => ?_⟩
  rw [hc.2 r k (by omega)]
  by_cases hnext : r = con.y.toNat + 1 ∧ k = 0
  · rw [if_pos (by omega), if_neg (by omega), if_pos hnext]
  · rw [if_neg (by omega), if_neg hnext, cell_eq hin (by omega)]

/-! ## `insert_char` -/

/-- The words from the cursor on are pushed on, from the end of the row on. -/
theorem pushOn_puts (hg : Geometry con) (hpos : con.pos.toNat = 0xB8000 + 2 * p)
    (hptr : ptr.toNat = 0xB8000 + 2 * q) (hle : p ≤ q + 1) (hq : q < 8160) (hn : q + 2 ≤ p + n) :
    Puts con (pushOn con ptr n) fun j =>
      if p < j ∧ j ≤ q then con.word (j - 1) else con.word j := by
  induction n generalizing con ptr q with
  | zero => omega
  | succ n ih =>
      rw [pushOn]
      by_cases hlt : p < q
      · have htest : con.pos < ptr := by
          rw [BitVec.lt_def]
          omega
        have hprev : (ptr - 2).toNat = 0xB8000 + 2 * (q - 1) := by bv_omega
        rw [if_pos htest, word_eq con hprev]
        refine (store16_puts hg hptr hq (con.word (q - 1))).bind fun c hc hw => ?_
        refine (ih (hc.geometry hg) (by rw [hc.pos]; exact hpos) hprev (by omega) (by omega)
          (by omega)).congr
          fun j hj => ?_
        by_cases hlater : p < j ∧ j ≤ q - 1
        · rw [if_pos hlater, hw _ (by omega), if_neg (by omega), if_pos (by omega)]
        · rw [if_neg hlater, hw j hj]
          by_cases hfirst : j = q
          · rw [if_pos hfirst, if_pos (by omega), hfirst]
          · rw [if_neg hfirst, if_neg (by omega)]
      · have htest : ¬ con.pos < ptr := by
          rw [BitVec.lt_def]
          omega
        rw [if_neg htest]
        exact Puts.refl fun j _ => (if_neg (by omega)).symm

/-- The last store of `insert_char` is the character only. -/
theorem insertChar_puts (hin : Inside con) (hp : p = 80 * (con.top + con.y.toNat) + con.x.toNat)
    (hq : q = p + (79 - con.x.toNat) + 1) :
    Puts con (insertChar con) fun j =>
      if p ≤ j ∧ j < q then
        if j = p then (con.word p).extractLsb' 8 8 ++ con.erase.setWidth 8 else con.word (j - 1)
      else con.word j := by
  have hx := hin.fits.x_le
  have hline := hin.line.2
  have hpos := hin.pos_word
  rw [← hp] at hpos
  have hend : (con.pos + 2 * (con.width - con.x - 1)).toNat
      = 0xB8000 + 2 * (p + (80 - con.x.toNat) - 1) := by
    rw [hin.width]
    bv_omega
  have hpush := pushOn_puts (n := con.mem_size.toNat) hin.toGeometry hpos hend (by omega) (by omega)
    (by rw [hin.turns]; omega)
  refine hpush.bind fun c hc hw => ?_
  have hcpos := hpos
  rw [← hc.pos] at hcpos
  refine (store8_puts (hc.geometry hin.toGeometry) hcpos (by omega) (c.erase.setWidth 8)).congr
    fun j hj => ?_
  rw [hc.erase]
  by_cases hfirst : j = p
  · rw [if_pos hfirst, hw p (by omega), if_neg (by omega), if_pos (by omega), if_pos hfirst]
  · rw [if_neg hfirst, hw j hj]
    by_cases hrange : p < j ∧ j ≤ p + (80 - con.x.toNat) - 1
    · rw [if_pos hrange, if_pos (by omega), if_neg hfirst]
    · rw [if_neg hrange, if_neg (by omega)]

theorem insertChars_puts (hin : Inside con) (hp : p = 80 * (con.top + con.y.toNat) + con.x.toNat)
    (hq : q = p + (79 - con.x.toNat) + 1) :
    Puts con (repeatTimes insertChar n con) fun j =>
      if p ≤ j ∧ j < q then
        if j < p + n then (con.word p).extractLsb' 8 8 ++ con.erase.setWidth 8 else con.word (j - n)
      else con.word j := by
  induction n generalizing con with
  | zero =>
      refine Puts.refl fun j _ => ?_
      split
      · rw [if_neg (by omega)]
        rfl
      · rfl
  | succ n ih =>
      refine (insertChar_puts hin hp hq).bind fun c hc hw => ?_
      refine (ih (hc.inside hin) (by rw [hc.top, hc.y, hc.x]; exact hp)
        (by rw [hc.x]; exact hq)).congr fun j hj => ?_
      have hline := hin.line.2
      have hx := hin.fits.x_le
      have hcursor : c.word p = (con.word p).extractLsb' 8 8 ++ con.erase.setWidth 8 := by
        rw [hw p (by omega), if_pos (by omega), if_pos rfl]
      rw [hc.erase, hcursor, BitVec.extractLsb'_append_eq_left]
      by_cases hrange : p ≤ j ∧ j < q
      · rw [if_pos hrange]
        show _ = if _ then _ else _
        rw [if_pos hrange]
        by_cases hblank : j < p + n
        · rw [if_pos hblank, if_pos (by omega)]
        · rw [if_neg hblank, hw _ (by omega), if_pos (by omega)]
          by_cases hfirst : j - n = p
          · rw [if_pos hfirst, if_pos (by omega)]
          · rw [if_neg hfirst, if_neg (by omega), Nat.sub_sub]
      · rw [if_neg hrange, hw j hj, if_neg hrange]
        exact (if_neg hrange).symm

/-- The cells from the cursor on are pushed on; the new ones have the attribute of
    the one that was there. -/
theorem insertChars_cells (hin : Inside con) (hx : con.x.toNat < 80) :
    Ends Never (repeatTimes insertChar n con) fun c => Drawn con c ∧
      ∀ r k, r < 25 → k < 80 → cell c r k =
        if r = con.y.toNat ∧ con.x.toNat ≤ k then
          if k < con.x.toNat + n then
            (cell con con.y.toNat con.x.toNat).extractLsb' 8 8 ++ con.erase.setWidth 8
          else cell con r (k - n)
        else cell con r k := by
  have htop := hin.top_eq.2
  have hy := hin.fits.y_lt
  refine Ends.mono ((insertChars_puts hin rfl rfl).cells hin) fun c hc =>
    ⟨hc.1, fun r k hr hk => ?_⟩
  have hword : con.word (80 * (con.top + con.y.toNat) + con.x.toNat) =
      cell con con.y.toNat con.x.toNat := by
    rw [cell_eq hin (by omega)]
    congr 1
    omega
  rw [hc.2 r k (by omega), hword]
  by_cases hrow : r = con.y.toNat ∧ con.x.toNat ≤ k
  · rw [if_pos (by omega), if_pos hrow]
    by_cases hblank : k < con.x.toNat + n
    · rw [if_pos (by omega), if_pos hblank]
    · rw [if_neg (by omega), if_neg hblank, cell_eq hin (by omega)]
      congr 1
      omega
  · rw [if_neg (by omega), if_neg hrow, cell_eq hin (by omega)]

/-- Behind the last column, the first character of the next row is erased. -/
theorem insertChars_pending (hin : Inside con) (hx : con.x.toNat = 80) (hn : 1 ≤ n) :
    Ends Never (repeatTimes insertChar n con) fun c => Drawn con c ∧
      ∀ r k, r < 25 → k < 80 → cell c r k =
        if r = con.y.toNat + 1 ∧ k = 0 then
          (cell con r k).extractLsb' 8 8 ++ con.erase.setWidth 8
        else cell con r k := by
  have htop := hin.top_eq.2
  refine Ends.mono ((insertChars_puts hin rfl rfl).cells hin) fun c hc =>
    ⟨hc.1, fun r k hr hk => ?_⟩
  rw [hc.2 r k (by omega)]
  by_cases hnext : r = con.y.toNat + 1 ∧ k = 0
  · have hword : con.word (80 * (con.top + con.y.toNat) + con.x.toNat) = cell con r k := by
      rw [cell_eq hin (by omega)]
      congr 1
      omega
    rw [if_pos (by omega), if_pos (by omega), if_pos hnext, hword]
  · rw [if_neg (by omega), if_neg hnext, cell_eq hin (by omega)]

end NeonixConsole
