import Neonix.Console

/-! # The console stays inside its video memory

    The cursor, the saved cursor and the screen are tied together by `Inside`.
    Most functions only DRAW: they store inside the video memory and leave the
    record alone.  The others move the cursor, and for each of them `Steps` says
    that the invariant still holds and the state of the parser is the old one. -/

namespace NeonixConsole

open NeonixByteBits NeonixMachine NeonixOutcome

/-- The sizes `console_init` computes. -/
structure Geometry (con : Console) : Prop where
  mem_base : con.mem_base = 0xB8000
  mem_size : con.mem_size = 16320
  mem_end : con.mem_end = 0xBBFC0
  scr_size : con.scr_size = 4000
  width : con.width = 80
  height : con.height = 25
  row_size : con.row_size = 160

/-- The cursor is on the screen or behind its last column, and the screen and one
    more row are inside the video memory. -/
structure Inside (con : Console) : Prop extends Geometry con where
  screen_base : con.mem_base ≤ con.screen
  screen_row : (con.screen - con.mem_base) % con.row_size = 0
  screen_end : con.screen.toNat + con.scr_size.toNat + con.row_size.toNat ≤ con.mem_end.toNat
  x_le : con.x ≤ con.width
  y_lt : con.y < con.height
  saved_x_le : con.saved_x ≤ con.width
  saved_y_lt : con.saved_y < con.height
  pos : con.pos = con.screen + con.row_size * con.y + 2 * con.x
  argc_le : con.argc.toNat ≤ ARG_NR

/-- A call that stops for no reason. -/
def Never : Stop → Prop := fun _ => True

/-! ## Functions that draw -/

/-- Only the memory has changed. -/
def Drawn (con c : Console) : Prop := ∃ mem, c = { con with mem := mem }

variable {con c d : Console} {p start src dest ptr : BitVec 32} {n : Nat}

theorem Drawn.refl : Drawn con con := ⟨con.mem, rfl⟩

theorem Drawn.trans (h : Drawn con c) (h' : Drawn c d) : Drawn con d := by
  obtain ⟨m, rfl⟩ := h
  obtain ⟨m', rfl⟩ := h'
  exact ⟨m', rfl⟩

theorem Drawn.geometry (h : Drawn con c) (hg : Geometry con) : Geometry c := by
  obtain ⟨m, rfl⟩ := h
  exact ⟨hg.1, hg.2, hg.3, hg.4, hg.5, hg.6, hg.7⟩

theorem Drawn.x (h : Drawn con c) : c.x = con.x := by
  obtain ⟨m, rfl⟩ := h
  rfl

/-- A call that only draws, and returns. -/
def Draws (con : Console) (x : Res Console) : Prop := Ends Never x (Drawn con)

theorem Draws.refl : Draws con (.ok con) := Drawn.refl

theorem Draws.bind {x : Res Console} {f : Console → Res Console} (h : Draws con x)
    (hf : ∀ c, Drawn con c → Draws c (f c)) : Draws con (x >>= f) :=
  Ends.bind h fun c hc => (hf c hc).mono fun _ hd => hc.trans hd

theorem store8_draws (hlo : con.mem_base ≤ p) (hhi : p < con.mem_end) (v : Byte) :
    Draws con (store8 con p v) := by
  rw [store8, if_pos ⟨hlo, hhi⟩]
  exact ⟨_, rfl⟩

/-- Two bytes of the video memory. -/
theorem store16_draws (hg : Geometry con) (hlo : 0xB8000 ≤ p.toNat) (hhi : p.toNat + 2 ≤ 0xBBFC0)
    (v : BitVec 16) : Draws con (store16 con p v) := by
  refine (store8_draws ?_ ?_ _).bind fun c hc => store8_draws ?_ ?_ _
  · rw [hg.mem_base]
    bv_omega
  · rw [hg.mem_end]
    bv_omega
  · rw [(hc.geometry hg).mem_base]
    bv_omega
  · rw [(hc.geometry hg).mem_end]
    bv_omega

theorem memcpy_draws (hg : Geometry con) (hlo : 0xB8000 ≤ dest.toNat)
    (hhi : dest.toNat + n ≤ 0xBBFC0) : Draws con (memcpy con dest src n) := by
  induction n generalizing con dest src with
  | zero => exact Draws.refl
  | succ n ih =>
      refine (store8_draws ?_ ?_ _).bind fun c hc => ih (hc.geometry hg) ?_ ?_
      · rw [hg.mem_base]
        bv_omega
      · rw [hg.mem_end]
        bv_omega
      · bv_omega
      · bv_omega

theorem eraseScreen_draws (hg : Geometry con) (hlo : 0xB8000 ≤ start.toNat)
    (hhi : start.toNat + 2 * n ≤ 0xBBFC0) : Draws con (eraseScreen con start n) := by
  induction n generalizing con start with
  | zero => exact Draws.refl
  | succ n ih =>
      refine (store16_draws hg hlo (by omega) _).bind fun c hc => ih (hc.geometry hg) ?_ ?_
      · bv_omega
      · bv_omega

/-! ## Functions that move the cursor -/

/-- `x << 1`. -/
theorem shl_one (v : BitVec 32) : v <<< 1 = 2 * v := by
  refine BitVec.eq_of_toNat_eq ?_
  rw [BitVec.toNat_shiftLeft, Nat.shiftLeft_eq, BitVec.toNat_mul, Nat.mul_comm]
  rfl

/-- `v >> 1`. -/
theorem toNat_half (v : BitVec 32) : (v >>> 1).toNat = v.toNat / 2 := by
  rw [BitVec.toNat_ushiftRight, Nat.shiftRight_eq_div_pow, Nat.pow_one]

/-- The numbers of `Inside`, as natural numbers. -/
structure Fits (screen x y pos : BitVec 32) : Prop where
  base : 0xB8000 ≤ screen.toNat
  row : (screen.toNat - 0xB8000) % 160 = 0
  last : screen.toNat + 4160 ≤ 0xBBFC0
  x_le : x.toNat ≤ 80
  y_lt : y.toNat < 25
  pos : pos.toNat = screen.toNat + 160 * y.toNat + 2 * x.toNat

theorem Inside.fits (h : Inside con) : Fits con.screen con.x con.y con.pos := by
  have hbase := h.screen_base
  have hrow := h.screen_row
  have hend := h.screen_end
  have hx := h.x_le
  have hy := h.y_lt
  have hpos := h.pos
  rw [h.mem_base] at hbase
  rw [h.mem_base, h.row_size] at hrow
  rw [h.scr_size, h.row_size, h.mem_end] at hend
  rw [h.width] at hx
  rw [h.height] at hy
  rw [h.row_size] at hpos
  have hrow' : (con.screen - 0xB8000).toNat % 160 = 0 := by
    have hmod := congrArg BitVec.toNat hrow
    rwa [BitVec.toNat_umod] at hmod
  rw [BitVec.toNat_sub_of_le hbase] at hrow'
  refine ⟨?_, hrow', ?_, ?_, ?_, ?_⟩
  · bv_omega
  · bv_omega
  · bv_omega
  · bv_omega
  · bv_omega

/-- What a function has to show for the console it returns. -/
theorem Inside.intro (hg : Geometry c) (hf : Fits c.screen c.x c.y c.pos)
    (hsx : c.saved_x ≤ c.width) (hsy : c.saved_y < c.height) (ha : c.argc.toNat ≤ ARG_NR) :
    Inside c := by
  obtain ⟨hbase, hrow, hlast, hx, hy, hpos⟩ := hf
  refine ⟨hg, ?_, ?_, ?_, ?_, ?_, hsx, hsy, ?_, ha⟩
  · rw [hg.mem_base]
    bv_omega
  · rw [hg.mem_base, hg.row_size]
    refine BitVec.eq_of_toNat_eq ?_
    rw [BitVec.toNat_umod, BitVec.toNat_sub_of_le hbase]
    exact hrow
  · rw [hg.scr_size, hg.row_size, hg.mem_end]
    bv_omega
  · rw [hg.width]
    bv_omega
  · rw [hg.height]
    bv_omega
  · rw [hg.row_size]
    bv_omega

/-- The invariant holds, and the parser is where it was. -/
structure Steps (con c : Console) : Prop where
  inside : Inside c
  state : c.state = con.state
  argc : c.argc = con.argc

theorem Steps.refl (h : Inside con) : Steps con con := ⟨h, rfl, rfl⟩

theorem Steps.trans (h : Steps con c) (h' : Steps c d) : Steps con d :=
  ⟨h'.inside, h'.state.trans h.state, h'.argc.trans h.argc⟩

theorem Drawn.steps (h : Drawn con c) (hi : Inside con) : Steps con c := by
  have hg := h.geometry hi.toGeometry
  obtain ⟨m, rfl⟩ := h
  exact ⟨Inside.intro hg hi.fits hi.saved_x_le hi.saved_y_lt hi.argc_le, rfl, rfl⟩

theorem Draws.steps {x : Res Console} (h : Draws con x) (hi : Inside con) :
    Ends Never x (Steps con) :=
  h.mono fun _ hc => hc.steps hi

/-- The cursor and the screen are put somewhere else. -/
theorem Inside.place {screen x y pos : BitVec 32} (h : Inside con) (hf : Fits screen x y pos) :
    Steps con { con with screen := screen, x := x, y := y, pos := pos } :=
  ⟨Inside.intro ⟨h.1.1, h.1.2, h.1.3, h.1.4, h.1.5, h.1.6, h.1.7⟩ hf h.saved_x_le h.saved_y_lt
    h.argc_le, rfl, rfl⟩

theorem setXy_steps (h : Inside con) (x y : BitVec 32) : Steps con (setXy con x y) := by
  rw [setXy]
  split
  · exact Steps.refl h
  · rename_i hin
    refine h.place ?_
    obtain ⟨hbase, hrow, hlast, -, -, -⟩ := h.fits
    rw [h.width, h.height] at hin
    have hx : x.toNat ≤ 80 := by bv_omega
    have hy : y.toNat < 25 := by bv_omega
    refine ⟨hbase, hrow, hlast, hx, hy, ?_⟩
    rw [h.row_size, shl_one]
    bv_omega

theorem saveCursor_steps (h : Inside con) : Steps con (saveCursor con) :=
  ⟨Inside.intro ⟨h.1.1, h.1.2, h.1.3, h.1.4, h.1.5, h.1.6, h.1.7⟩ h.fits h.x_le h.y_lt h.argc_le,
    rfl, rfl⟩

theorem cr_steps (h : Inside con) : Steps con (cr con) := by
  obtain ⟨hbase, hrow, hlast, hx, hy, hpos⟩ := h.fits
  refine h.place ⟨hbase, hrow, hlast, by decide, hy, ?_⟩
  rw [shl_one]
  bv_omega

/-- A screen that is not the last one has two rows behind it. -/
theorem Inside.next_row (h : Inside con)
    (hlt : ¬ con.mem_end ≤ con.screen + con.scr_size + con.row_size) :
    con.screen.toNat + 4320 ≤ 0xBBFC0 := by
  obtain ⟨hbase, hrow, hlast, -, -, -⟩ := h.fits
  rw [h.mem_end, h.scr_size, h.row_size] at hlt
  have hstrict : con.screen.toNat + 4160 < 0xBBFC0 := by bv_omega
  omega

/-- Two rows are free behind the screen. -/
theorem rewind_steps (h : Inside con) :
    Ends Never (rewind con) fun c =>
      Steps con c ∧ c.x = con.x ∧ c.screen.toNat + 4320 ≤ 0xBBFC0 := by
  rw [rewind]
  refine Ends.ite (fun _ => ?_) fun hlt => ⟨Steps.refl h, rfl, h.next_row hlt⟩
  have hcopy : Draws con (memcpy con con.mem_base con.screen con.scr_size.toNat) := by
    refine memcpy_draws h.toGeometry ?_ ?_
    · rw [h.mem_base]
      decide
    · rw [h.mem_base, h.scr_size]
      decide
  refine Ends.bind hcopy fun c hd => ?_
  have hc := hd.steps h
  obtain ⟨hbase, hrow, hlast, hx, hy, hpos⟩ := hc.inside.fits
  have hfits : Fits c.mem_base c.x c.y (c.pos - (c.screen - c.mem_base)) := by
    rw [hc.inside.mem_base]
    refine ⟨by decide, by decide, by decide, hx, hy, ?_⟩
    bv_omega
  refine ⟨hc.trans (hc.inside.place hfits), hd.x, ?_⟩
  show c.mem_base.toNat + 4320 ≤ _
  rw [hc.inside.mem_base]
  bv_omega

/-- The screen moves up by a row, from the bottom of the video memory where it has
    reached the end. -/
theorem scrollUp_steps (h : Inside con) :
    Ends Never (scrollUp con) fun c => Steps con c ∧ c.x = con.x := by
  refine Ends.bind (rewind_steps h) fun c hc => ?_
  obtain ⟨hc, hx, hnext⟩ := hc
  have hi := hc.inside
  have hbase := hi.fits.base
  have herase : Draws c (eraseScreen c (c.screen + c.scr_size) c.width.toNat) := by
    rw [hi.scr_size, hi.width]
    exact eraseScreen_draws hi.toGeometry (by bv_omega) (by bv_omega)
  refine Ends.bind herase fun d hd => ?_
  obtain ⟨m, rfl⟩ := hd
  have hd := Drawn.steps ⟨m, rfl⟩ hi
  obtain ⟨-, hrow, -, hle, hy, hpos⟩ := hi.fits
  have hfits : Fits (c.screen + c.row_size) c.x c.y (c.pos + c.row_size) := by
    rw [hi.row_size]
    have hup : (c.screen + 160).toNat = c.screen.toNat + 160 := by bv_omega
    refine ⟨?_, ?_, ?_, hle, hy, ?_⟩
    · rw [hup]
      omega
    · rw [hup, Nat.sub_add_comm hbase, Nat.add_mod_right]
      exact hrow
    · rw [hup]
      omega
    · bv_omega
  exact ⟨(hc.trans hd).trans (hd.inside.place hfits), hx⟩

theorem lf_steps (h : Inside con) :
    Ends Never (lf con) fun c => Steps con c ∧ c.x = con.x := by
  rw [lf]
  refine Ends.ite (fun hy => ?_) fun _ => scrollUp_steps h
  obtain ⟨hbase, hrow, hlast, hx, hlt, hpos⟩ := h.fits
  rw [h.height] at hy
  refine ⟨h.place ⟨hbase, hrow, hlast, hx, by bv_omega, ?_⟩, rfl⟩
  rw [h.row_size]
  bv_omega

/-- The cursor goes to a column that may be behind the last one, and from there
    to the next row. -/
theorem wrap_steps {x pos : BitVec 32} (h : Inside con) (hx : x.toNat < 160)
    (hpos : pos.toNat = con.screen.toNat + 160 * con.y.toNat + 2 * x.toNat) :
    Ends Never (wrap { con with x := x, pos := pos }) fun c => Steps con c ∧ c.x.toNat < 80 := by
  obtain ⟨hbase, hrow, hlast, -, hlt, -⟩ := h.fits
  rw [wrap]
  refine Ends.ite (fun hw => ?_) fun hw => ?_
  · -- the record `lf` starts from is inside again
    have hw : 80 ≤ x.toNat := by
      have hle : con.width ≤ x := hw
      rw [h.width] at hle
      bv_omega
    have hfits : Fits con.screen (x - con.width) con.y (pos - con.row_size) := by
      rw [h.width, h.row_size]
      exact ⟨hbase, hrow, hlast, by bv_omega, hlt, by bv_omega⟩
    have hback := h.place hfits
    refine (lf_steps hback.inside).mono fun c hc => ⟨hback.trans hc.1, ?_⟩
    have hcol : c.x = x - con.width := hc.2
    rw [hcol, h.width]
    bv_omega
  · have hw : x.toNat < 80 := by
      have hlt : ¬ con.width ≤ x := hw
      rw [h.width] at hlt
      bv_omega
    exact ⟨h.place ⟨hbase, hrow, hlast, by omega, hlt, hpos⟩, hw⟩

theorem tab_steps (h : Inside con) : Ends Never (tab con) (Steps con) := by
  obtain ⟨hbase, hrow, hlast, hx, hy, hpos⟩ := h.fits
  have hand : (con.x &&& 7).toNat ≤ 7 := by
    rw [BitVec.toNat_and]
    exact Nat.and_le_right
  refine (wrap_steps h ?_ ?_).mono fun c hc => hc.1
  · bv_omega
  · rw [shl_one]
    bv_omega

theorem bs_steps (h : Inside con) : Ends Never (bs con) (Steps con) := by
  rw [bs]
  refine Ends.ite (fun _ => Steps.refl h) fun hx0 => ?_
  obtain ⟨hbase, hrow, hlast, hx, hy, hpos⟩ := h.fits
  have hfits : Fits con.screen (con.x - 1) con.y (con.pos - 2) :=
    ⟨hbase, hrow, hlast, by bv_omega, hy, by bv_omega⟩
  have hback := h.place hfits
  have hcol : 1 ≤ con.x.toNat := by bv_omega
  have hprev : (con.pos - 2).toNat = con.pos.toNat - 2 := by bv_omega
  have hdraw := store16_draws (p := con.pos - 2) hback.inside.toGeometry (by omega) (by omega)
    con.erase
  exact (hdraw.steps hback.inside).mono fun c hc => hback.trans hc

/-- A `u16` fits at the cursor even behind the last column. -/
theorem cursor_draws (h : Inside con) (v : BitVec 16) : Draws con (store16 con con.pos v) := by
  obtain ⟨hbase, hrow, hlast, hx, hy, hpos⟩ := h.fits
  exact store16_draws h.toGeometry (by omega) (by omega) v

theorem del_steps (h : Inside con) : Ends Never (del con) (Steps con) :=
  (cursor_draws h con.erase).steps h

/-- The byte is on the screen, in front of the cursor. -/
theorem chr_steps (h : Inside con) (ch : Byte) :
    Ends Never (chr con ch) fun c => Steps con c ∧ c.mem (c.pos - 2) = ch := by
  have hwrap : Ends Never (wrap { con with x := con.x, pos := con.pos }) _ :=
    wrap_steps h (by have := h.fits.x_le; omega) h.fits.pos
  refine Ends.bind hwrap fun c hc => ?_
  obtain ⟨hc, hx⟩ := hc
  obtain ⟨hbase, hrow, hlast, -, hy, hpos⟩ := hc.inside.fits
  have hin : c.mem_base ≤ c.pos ∧ c.pos < c.mem_end := by
    rw [hc.inside.mem_base, hc.inside.mem_end]
    bv_omega
  have hin' : c.mem_base ≤ c.pos + 1 ∧ c.pos + 1 < c.mem_end := by
    rw [hc.inside.mem_base, hc.inside.mem_end]
    bv_omega
  rw [store8, if_pos hin, bind_ok, store8, if_pos hin', bind_ok]
  have hfits : Fits c.screen (c.x + 1) c.y (c.pos + 2) :=
    ⟨hbase, hrow, hlast, by bv_omega, hy, by bv_omega⟩
  have hdrawn : Drawn c { c with
      mem := Function.update (Function.update c.mem c.pos ch) (c.pos + 1) c.style } := ⟨_, rfl⟩
  have hc' := hc.trans (hdrawn.steps hc.inside)
  refine ⟨hc'.trans (hc'.inside.place hfits), ?_⟩
  show Function.update (Function.update c.mem c.pos ch) (c.pos + 1) c.style (c.pos + 2 - 2) = ch
  rw [show c.pos + 2 - 2 = c.pos by bv_omega, Function.update_of_ne (by bv_omega),
    Function.update_self]

/-! ## Control sequences -/

/-- From the cursor to the end of the screen, from its start to the cursor, or all
    of it. -/
theorem csiJ_draws (h : Inside con) : Draws con (csiJ con) := by
  obtain ⟨hbase, hrow, hlast, hx, hy, hpos⟩ := h.fits
  rw [csiJ]
  refine Ends.ite (fun _ => ?_) fun _ => Ends.ite (fun _ => ?_) fun _ =>
    Ends.ite (fun _ => ?_) fun _ => Draws.refl
  · refine eraseScreen_draws h.toGeometry (by omega) ?_
    have hrest : (con.screen + con.scr_size - con.pos).toNat
        = con.screen.toNat + 4000 - con.pos.toNat := by
      rw [h.scr_size]
      bv_omega
    rw [toNat_half, hrest]
    omega
  · refine eraseScreen_draws h.toGeometry hbase ?_
    rw [toNat_half, BitVec.toNat_sub_of_le (by bv_omega)]
    omega
  · refine eraseScreen_draws h.toGeometry hbase ?_
    rw [h.scr_size]
    have hhalf : ((4000 : BitVec 32) >>> 1).toNat = 2000 := by decide
    rw [hhalf]
    omega

/-- The part of the row behind the cursor, the part in front of it, or all of it. -/
theorem csiK_draws (h : Inside con) : Draws con (csiK con) := by
  obtain ⟨hbase, hrow, hlast, hx, hy, hpos⟩ := h.fits
  have hstart : (con.pos - con.x <<< 1).toNat = con.pos.toNat - 2 * con.x.toNat := by
    rw [shl_one]
    bv_omega
  rw [csiK]
  refine Ends.ite (fun _ => ?_) fun _ => Ends.ite (fun _ => ?_) fun _ =>
    Ends.ite (fun _ => ?_) fun _ => Draws.refl
  · refine eraseScreen_draws h.toGeometry (by omega) ?_
    rw [h.width, BitVec.toNat_sub_of_le (by bv_omega)]
    show con.pos.toNat + 2 * (80 - con.x.toNat) ≤ _
    omega
  · refine eraseScreen_draws h.toGeometry ?_ ?_
    · rw [hstart]
      omega
    · rw [hstart]
      omega
  · refine eraseScreen_draws h.toGeometry ?_ ?_
    · rw [hstart]
      omega
    · rw [hstart, h.width]
      show _ + 2 * 80 ≤ _
      omega

/-- The loop of `insert_line` goes down to the cursor's row. -/
theorem moveDown_draws {i : BitVec 32} (hg : Geometry con) (hstart : 0xB8000 ≤ start.toNat)
    (hi : 2 ≤ i.toNat) (hle : i.toNat ≤ 103) (hn : 104 ≤ n + i.toNat) :
    Draws con (moveDown con start i n) := by
  induction n generalizing con i with
  | zero => omega
  | succ n ih =>
      have hsrc : (con.mem_end - i * con.row_size).toNat = 0xBBFC0 - 160 * i.toNat := by
        rw [hg.mem_end, hg.row_size]
        bv_omega
      rw [moveDown]
      refine Ends.ite (fun _ => Draws.refl) fun hlt => ?_
      -- the source is not below the first row of the video memory
      have hrow : start.toNat ≤ 0xBBFC0 - 160 * i.toNat := by
        rw [← hsrc]
        bv_omega
      have hdest : (con.mem_end - i * con.row_size + con.row_size).toNat
          = 0xBBFC0 - 160 * i.toNat + 160 := by
        rw [BitVec.toNat_add, hsrc, hg.row_size]
        show (_ + 160) % 2 ^ 32 = _
        omega
      refine Draws.bind (memcpy_draws hg ?_ ?_) fun c hc => ih (hc.geometry hg) ?_ ?_ ?_
      · rw [hdest]
        omega
      · rw [hdest, hg.row_size]
        show _ + 160 ≤ _
        omega
      · bv_omega
      · bv_omega
      · bv_omega

/-- The loop of `delete_line` goes up to the end of the video memory. -/
theorem moveUp_draws {i : BitVec 32} (hg : Geometry con) (hstart : 0xB8000 ≤ start.toNat)
    (hend : start.toNat ≤ 0xBBFC0) (hi : 1 ≤ i.toNat) (hle : i.toNat ≤ 51)
    (hn : 52 ≤ n + i.toNat) : Draws con (moveUp con start i n) := by
  induction n generalizing con i with
  | zero => omega
  | succ n ih =>
      have hsrc : (start + 2 * (i * con.row_size)).toNat = start.toNat + 320 * i.toNat := by
        rw [hg.row_size]
        bv_omega
      rw [moveUp]
      refine Ends.ite (fun _ => Draws.refl) fun hlt => ?_
      have hrow : start.toNat + 320 * i.toNat < 0xBBFC0 := by
        rw [← hsrc]
        rw [hg.mem_end] at hlt
        bv_omega
      have hdest : (start + 2 * (i * con.row_size) - con.row_size).toNat
          = start.toNat + 320 * i.toNat - 160 := by
        rw [BitVec.toNat_sub_of_le, hsrc, hg.row_size]
        · rfl
        · show con.row_size.toNat ≤ _
          rw [hsrc, hg.row_size]
          show 160 ≤ _
          omega
      refine Draws.bind (memcpy_draws hg ?_ ?_) fun c hc => ih (hc.geometry hg) ?_ ?_ ?_
      · rw [hdest]
        omega
      · rw [hdest, hg.row_size]
        show _ + 160 ≤ _
        omega
      · bv_omega
      · bv_omega
      · bv_omega

/-- The address of the cursor's row. -/
theorem Inside.row_start (h : Inside con) :
    (con.screen + con.y * con.row_size).toNat = con.screen.toNat + 160 * con.y.toNat := by
  obtain ⟨hbase, hrow, hlast, hx, hy, hpos⟩ := h.fits
  rw [h.row_size]
  bv_omega

theorem insertLine_draws (h : Inside con) : Draws con (insertLine con) := by
  have hrow := h.row_start
  obtain ⟨hbase, -, hlast, -, hy, -⟩ := h.fits
  have hsize : con.mem_size.toNat = 16320 := by
    rw [h.mem_size]
    rfl
  refine Draws.bind (moveDown_draws h.toGeometry ?_ (by decide) (by decide) ?_) fun c hc => ?_
  · rw [hrow]
    omega
  · rw [hsize]
    exact Nat.le_add_right_of_le (by omega)
  · have hi := (hc.steps h).inside
    have hrow := hi.row_start
    obtain ⟨hbase, -, hlast, -, hy, -⟩ := hi.fits
    refine eraseScreen_draws hi.toGeometry ?_ ?_
    · rw [hrow]
      omega
    · rw [hrow, hi.width]
      show _ + 2 * 80 ≤ _
      omega

theorem deleteLine_draws (h : Inside con) : Draws con (deleteLine con) := by
  have hrow := h.row_start
  obtain ⟨hbase, -, hlast, -, hy, -⟩ := h.fits
  have hsize : con.mem_size.toNat = 16320 := by
    rw [h.mem_size]
    rfl
  refine Draws.bind (moveUp_draws h.toGeometry ?_ ?_ (by decide) (by decide) ?_) fun c hc => ?_
  · rw [hrow]
    omega
  · rw [hrow]
    omega
  · rw [hsize]
    exact Nat.le_add_right_of_le (by omega)
  · have hg := hc.geometry h.toGeometry
    refine eraseScreen_draws hg ?_ ?_
    · rw [hg.mem_end, hg.row_size]
      decide
    · rw [hg.mem_end, hg.row_size, hg.width]
      decide

/-- The loop of `delete_char` ends in the last column at the latest. -/
theorem pullBack_draws {i : BitVec 16} (hg : Geometry con) (hlo : 0xB8000 ≤ ptr.toNat)
    (hi : i.toNat ≤ 80) (hhi : ptr.toNat + 2 * (80 - i.toNat) + 2 ≤ 0xBBFC0)
    (hn : 81 ≤ n + i.toNat) :
    Ends Never (pullBack con ptr i n) fun r =>
      Drawn con r.2 ∧ 0xB8000 ≤ r.1.toNat ∧ r.1.toNat + 2 ≤ 0xBBFC0 := by
  induction n generalizing con ptr i with
  | zero => omega
  | succ n ih =>
      have hin : ptr.toNat + 2 ≤ 0xBBFC0 := by omega
      rw [pullBack]
      refine Ends.ite (fun hlt => ?_) fun _ => ⟨Drawn.refl, hlo, hin⟩
      have hnext : (i + 1).toNat = i.toNat + 1 := by bv_omega
      have hcol : i.toNat + 1 < 80 := by
        rw [hg.width, BitVec.lt_def, BitVec.toNat_setWidth, hnext] at hlt
        have h80 : (i.toNat + 1) % 2 ^ 32 < 80 := hlt
        omega
      refine Ends.bind (store16_draws hg hlo (by omega) _) fun c hc => ?_
      refine (ih (hc.geometry hg) (by bv_omega) (by omega) ?_ (by omega)).mono fun r hr =>
        ⟨hc.trans hr.1, hr.2⟩
      rw [hnext]
      bv_omega

theorem deleteChar_draws (h : Inside con) : Draws con (deleteChar con) := by
  obtain ⟨hbase, hrow, hlast, hx, hy, hpos⟩ := h.fits
  have hi : (con.x.setWidth 16).toNat = con.x.toNat := by
    rw [BitVec.toNat_setWidth]
    omega
  have hsize : con.mem_size.toNat = 16320 := by
    rw [h.mem_size]
    rfl
  have hloop : Ends Never (pullBack con con.pos (con.x.setWidth 16) con.mem_size.toNat) _ :=
    pullBack_draws h.toGeometry (by omega) (by omega) (by omega) (by omega)
  refine Ends.bind hloop fun r hr => ?_
  obtain ⟨hc, hlo, hhi⟩ := hr
  exact Ends.mono (store16_draws (hc.geometry h.toGeometry) hlo hhi _) fun d hd => hc.trans hd

/-- The loop of `insert_char` goes down to the cursor. -/
theorem pushOn_draws (hg : Geometry con) (hlo : 0xB8000 ≤ con.pos.toNat)
    (hdown : con.pos.toNat ≤ ptr.toNat + 2) (hhi : ptr.toNat + 2 ≤ 0xBBFC0)
    (hn : ptr.toNat + 2 < con.pos.toNat + 2 * n) : Draws con (pushOn con ptr n) := by
  induction n generalizing con ptr with
  | zero => omega
  | succ n ih =>
      rw [pushOn]
      refine Ends.ite (fun hlt => ?_) fun _ => Draws.refl
      have hprev : (ptr - 2).toNat = ptr.toNat - 2 := by bv_omega
      have hlt : con.pos.toNat < ptr.toNat := hlt
      refine Draws.bind (store16_draws hg (by omega) hhi _) fun c hc => ?_
      have hcur : c.pos = con.pos := by
        obtain ⟨m, rfl⟩ := hc
        rfl
      refine ih (hc.geometry hg) ?_ ?_ ?_ ?_
      · rw [hcur]
        exact hlo
      · rw [hcur]
        omega
      · omega
      · rw [hcur]
        omega

/-- Behind the last column the loop starts in front of the cursor and makes no turn. -/
theorem insertChar_draws (h : Inside con) : Draws con (insertChar con) := by
  obtain ⟨hbase, hrow, hlast, hx, hy, hpos⟩ := h.fits
  have hsize : con.mem_size.toNat = 16320 := by
    rw [h.mem_size]
    rfl
  have hptr : (con.pos + 2 * (con.width - con.x - 1)).toNat + 2
      = con.pos.toNat + 2 * (80 - con.x.toNat) := by
    rw [h.width]
    bv_omega
  refine Draws.bind (pushOn_draws h.toGeometry ?_ ?_ ?_ ?_) fun c hc => ?_
  · omega
  · omega
  · omega
  · omega
  · have hi := (hc.steps h).inside
    obtain ⟨hbase, hrow, hlast, hx, hy, hpos⟩ := hi.fits
    refine store8_draws ?_ ?_ _
    · rw [hi.mem_base]
      bv_omega
    · rw [hi.mem_end]
      bv_omega

theorem repeatTimes_draws {f : Console → Res Console} (hf : ∀ c, Inside c → Draws c (f c))
    (h : Inside con) : Draws con (repeatTimes f n con) := by
  induction n generalizing con with
  | zero => exact Draws.refl
  | succ n ih => exact (hf con h).bind fun c hc => ih (hc.steps h).inside

theorem csiRepeat_draws {f : Console → Res Console} (hf : ∀ c, Inside c → Draws c (f c))
    (h : Inside con) : Draws con (csiRepeat f con) :=
  repeatTimes_draws hf h

/-! ## Functions that change the rest of the record -/

/-- The fields the invariant does not speak of. -/
theorem Inside.dress (h : Inside con) (state : State) (args : Fin ARG_NR → BitVec 32)
    (ques : BitVec 32) (style : BitVec 8) (erase : BitVec 16) :
    Inside { con with state := state, args := args, ques := ques, style := style, erase := erase } :=
  Inside.intro ⟨h.1.1, h.1.2, h.1.3, h.1.4, h.1.5, h.1.6, h.1.7⟩ h.fits h.saved_x_le h.saved_y_lt
    h.argc_le

/-- The indices `csi_m` uses are below the number of parameters. -/
theorem styles_steps {i : BitVec 32} (h : Inside con) (hi : i.toNat + n ≤ ARG_NR) :
    Ends Never (styles con i n) (Steps con) := by
  induction n generalizing con i with
  | zero => exact Steps.refl h
  | succ n ih =>
      have hlt : i.toNat < ARG_NR := by omega
      have hnext : (i + 1).toNat = i.toNat + 1 := by
        have hle : i.toNat < 16 := hlt
        bv_omega
      rw [styles, argAt, dif_pos hlt, bind_ok]
      have hd := h.dress con.state con.args con.ques
        (styleOf con.style (con.args ⟨i.toNat, hlt⟩)) con.erase
      exact (ih hd (by omega)).mono fun c hc => ⟨hc.inside, hc.state, hc.argc⟩

theorem csiStyle_steps (h : Inside con) : Ends Never (csiStyle con) (Steps con) := by
  have hstart := h.dress con.state con.args con.ques 0 con.erase
  refine Ends.bind (styles_steps hstart ?_) fun c hc => ?_
  · rw [show (0 : BitVec 32).toNat = 0 from rfl, Nat.zero_add]
    exact h.argc_le
  · exact ⟨hc.inside.dress c.state c.args c.ques c.style _, hc.state, hc.argc⟩

theorem atLeastOne_steps (h : Inside con) : Steps con (atLeastOne con) := by
  rw [atLeastOne]
  split
  · exact ⟨h.dress con.state _ con.ques con.style con.erase, rfl, rfl⟩
  · exact Steps.refl h

theorem fromZero_steps (h : Inside con) (i : Fin ARG_NR) : Steps con (fromZero con i) := by
  rw [fromZero]
  split
  · exact Steps.refl h
  · exact ⟨h.dress con.state _ con.ques con.style con.erase, rfl, rfl⟩

/-- Whatever the final byte, the parser is back in its normal state. -/
theorem stateCsi_steps (h : Inside con) (ch : Byte) :
    Ends Never (stateCsi con ch) (Steps { con with state := .STATE_NOR }) := by
  have hi : Inside { con with state := .STATE_NOR } :=
    h.dress .STATE_NOR con.args con.ques con.style con.erase
  have hone := atLeastOne_steps hi
  have hzero := fromZero_steps hi 0
  rw [stateCsi]
  -- cursor movements
  refine Ends.ite (fun _ => hzero.trans (setXy_steps hzero.inside _ _)) fun _ => ?_
  refine Ends.ite (fun _ => hone.trans (setXy_steps hone.inside _ _)) fun _ => ?_
  refine Ends.ite (fun _ => hone.trans (setXy_steps hone.inside _ _)) fun _ => ?_
  refine Ends.ite (fun _ => hone.trans (setXy_steps hone.inside _ _)) fun _ => ?_
  refine Ends.ite (fun _ => hone.trans (setXy_steps hone.inside _ _)) fun _ => ?_
  refine Ends.ite (fun _ => hone.trans (setXy_steps hone.inside _ _)) fun _ => ?_
  refine Ends.ite (fun _ => hone.trans (setXy_steps hone.inside _ _)) fun _ => ?_
  refine Ends.ite (fun _ => hzero.trans (setXy_steps hzero.inside _ _)) fun _ => ?_
  refine Ends.ite (fun _ => ?_) fun _ => ?_
  · have hboth := hzero.trans (fromZero_steps hzero.inside 1)
    exact hboth.trans (setXy_steps hboth.inside _ _)
  -- functions that draw
  refine Ends.ite (fun _ => (csiJ_draws hi).steps hi) fun _ => ?_
  refine Ends.ite (fun _ => (csiK_draws hi).steps hi) fun _ => ?_
  refine Ends.ite (fun _ => (csiRepeat_draws (fun _ => insertLine_draws) hi).steps hi) fun _ => ?_
  refine Ends.ite (fun _ => (csiRepeat_draws (fun _ => deleteLine_draws) hi).steps hi) fun _ => ?_
  refine Ends.ite (fun _ => (csiRepeat_draws (fun _ => deleteChar_draws) hi).steps hi) fun _ => ?_
  refine Ends.ite (fun _ => (csiRepeat_draws (fun _ => insertChar_draws) hi).steps hi) fun _ => ?_
  -- the style, and the saved cursor
  refine Ends.ite (fun _ => csiStyle_steps hi) fun _ => ?_
  refine Ends.ite (fun _ => Steps.refl hi) fun _ => ?_
  refine Ends.ite (fun _ => ?_) fun _ => ?_
  · have hsave := saveCursor_steps hi
    exact hsave.trans (setXy_steps hsave.inside _ _)
  · exact Ends.ite (fun _ => setXy_steps hi _ _) fun _ => Steps.refl hi

/-! ## Bytes

    `parse` is the parser alone: what a byte does to the state and to the number
    of parameters, whatever the rest of the record. -/

/-- What the parser knows. -/
structure Parser where
  state : State
  argc : Nat
  deriving DecidableEq

/-- The parser of a console. -/
def Console.parser (con : Console) : Parser := ⟨con.state, con.argc.toNat⟩

/-- A byte among the parameters. -/
def parseArg (argc : Nat) (ch : Byte) : Parser :=
  if ARG_NR ≤ argc then ⟨.STATE_ARG, argc⟩
  else if ch = 0x3B then ⟨.STATE_ARG, argc + 1⟩
  else if 0x30 ≤ ch ∧ ch ≤ 0x39 then ⟨.STATE_ARG, argc⟩
  else ⟨.STATE_NOR, argc + 1⟩

def parse : Parser → Byte → Parser
  | ⟨.STATE_NOR, argc⟩, ch => ⟨if ch = ESC then .STATE_ESC else .STATE_NOR, argc⟩
  | ⟨.STATE_ESC, argc⟩, ch => ⟨if ch = 0x5B then .STATE_QUE else .STATE_ESC, argc⟩
  | ⟨.STATE_QUE, _⟩, ch => if ch = 0x3F then ⟨.STATE_ARG, 0⟩ else parseArg 0 ch
  | ⟨.STATE_ARG, argc⟩, ch => parseArg argc ch
  | ⟨.STATE_CSI, argc⟩, _ => ⟨.STATE_NOR, argc⟩

theorem Steps.parser (h : Steps con c) : c.parser = con.parser := by
  rw [Console.parser, Console.parser, h.state, h.argc]

/-- A byte in the normal state: only `ESC` leaves it. -/
theorem stateNormal_steps (h : Inside con) (hs : con.state = .STATE_NOR) (ch : Byte) :
    Ends Never (stateNormal con ch) fun c => Inside c ∧ c.parser = parse con.parser ch := by
  have hp : con.parser = ⟨.STATE_NOR, con.argc.toNat⟩ := by rw [Console.parser, hs]
  have hstay : ch ≠ ESC → ∀ c, Steps con c → Inside c ∧ c.parser = parse con.parser ch := by
    intro hne c hc
    refine ⟨hc.inside, ?_⟩
    rw [hc.parser, hp, parse, if_neg hne]
  rw [stateNormal]
  refine Ends.ite (fun hc => ?_) fun _ => ?_
  · exact hstay (by rcases hc with rfl | rfl <;> decide) _ (Steps.refl h)
  refine Ends.ite (fun hc => (bs_steps h).mono (hstay (by rw [hc]; decide))) fun _ => ?_
  refine Ends.ite (fun hc => (tab_steps h).mono (hstay (by rw [hc]; decide))) fun _ => ?_
  refine Ends.ite (fun hc => ?_) fun _ => ?_
  · refine Ends.bind (lf_steps h) fun c hl => ?_
    exact hstay (by rw [hc]; decide) _ (hl.1.trans (cr_steps hl.1.inside))
  refine Ends.ite (fun hc => ?_) fun _ => ?_
  · exact (lf_steps h).mono fun c hl =>
      hstay (by rcases hc with rfl | rfl <;> decide) c hl.1
  refine Ends.ite (fun hc => hstay (by rw [hc]; decide) _ (cr_steps h)) fun _ => ?_
  refine Ends.ite (fun hc => (del_steps h).mono (hstay (by rw [hc]; decide))) fun _ => ?_
  refine Ends.ite (fun hc => ?_) fun hne => ?_
  · refine ⟨h.dress .STATE_ESC con.args con.ques con.style con.erase, ?_⟩
    rw [hp, parse, if_pos hc]
    rfl
  · exact (chr_steps h ch).mono fun c hc => hstay hne c hc.1

/-- A byte after `ESC`: only `[` leaves the state. -/
theorem stateEsc_steps (h : Inside con) (hs : con.state = .STATE_ESC) (ch : Byte) :
    Ends Never (stateEsc con ch) fun c => Inside c ∧ c.parser = parse con.parser ch := by
  have hp : con.parser = ⟨.STATE_ESC, con.argc.toNat⟩ := by rw [Console.parser, hs]
  rw [stateEsc]
  refine Ends.ite (fun hc => ?_) fun hne => ?_
  · refine ⟨h.dress .STATE_QUE con.args con.ques con.style con.erase, ?_⟩
    rw [hp, parse, if_pos hc]
    rfl
  have hstay : ∀ c, Steps con c → Inside c ∧ c.parser = parse con.parser ch := by
    intro c hc
    refine ⟨hc.inside, ?_⟩
    rw [hc.parser, hp, parse, if_neg hne]
  refine Ends.ite (fun _ => ?_) fun _ => ?_
  · exact Ends.bind (lf_steps h) fun c hl => hstay _ (hl.1.trans (cr_steps hl.1.inside))
  refine Ends.ite (fun _ => hstay _ (Steps.refl h)) fun _ => ?_
  refine Ends.ite (fun _ => (lf_steps h).mono fun c hl => hstay c hl.1) fun _ => ?_
  refine Ends.ite (fun _ => hstay _ (Steps.refl h)) fun _ => ?_
  refine Ends.ite (fun _ => hstay _ (saveCursor_steps h)) fun _ => ?_
  exact Ends.ite (fun _ => hstay _ (setXy_steps h _ _)) fun _ => hstay _ (Steps.refl h)

/-- The number of parameters. -/
theorem Inside.count (h : Inside con) {argc : BitVec 32} (ha : argc.toNat ≤ ARG_NR) :
    Inside { con with argc := argc } :=
  Inside.intro ⟨h.1.1, h.1.2, h.1.3, h.1.4, h.1.5, h.1.6, h.1.7⟩ h.fits h.saved_x_le h.saved_y_lt ha

/-- A byte among the parameters: the array is indexed below its length. -/
theorem argByte_steps (h : Inside con) (hs : con.state = .STATE_ARG) (ch : Byte) :
    Ends Never (argByte con ch) fun c => Inside c ∧ c.parser = parseArg con.argc.toNat ch := by
  have hup : ¬ ARG_NR ≤ con.argc.toNat → (con.argc + 1).toNat = con.argc.toNat + 1 := by
    intro hlt
    have h16 : ¬ 16 ≤ con.argc.toNat := hlt
    bv_omega
  rw [argByte, stateArg, parseArg]
  by_cases hfull : ARG_NR ≤ con.argc.toNat
  · rw [if_pos hfull, if_pos hfull, bind_ok]
    exact ⟨h, by rw [Console.parser, hs]⟩
  rw [if_neg hfull, if_neg hfull]
  have hlt : con.argc.toNat < ARG_NR := Nat.not_le.mp hfull
  have hnext : (con.argc + 1).toNat ≤ ARG_NR := by
    rw [hup hfull]
    exact hlt
  by_cases hsemi : ch = 0x3B
  · rw [if_pos hsemi, if_pos hsemi, bind_ok]
    refine ⟨h.count hnext, ?_⟩
    rw [← hup hfull, ← hs]
    rfl
  rw [if_neg hsemi, if_neg hsemi]
  by_cases hdigit : 0x30 ≤ ch ∧ ch ≤ 0x39
  · rw [if_pos hdigit, if_pos hdigit, argAt, dif_pos hlt]
    refine ⟨h.dress con.state _ con.ques con.style con.erase, ?_⟩
    rw [← hs]
    rfl
  · rw [if_neg hdigit, if_neg hdigit, bind_ok]
    have hd := (h.count hnext).dress .STATE_CSI con.args con.ques con.style con.erase
    refine (stateCsi_steps hd ch).mono fun c hc => ⟨hc.inside, ?_⟩
    rw [hc.parser, ← hup hfull]
    rfl

/-- One byte keeps the invariant, and the parser makes its step. -/
theorem consoleByte_steps (h : Inside con) (ch : Byte) :
    Ends Never (consoleByte con ch) fun c => Inside c ∧ c.parser = parse con.parser ch := by
  rw [consoleByte]
  cases hs : con.state with
  | STATE_NOR => exact stateNormal_steps h hs ch
  | STATE_ESC => exact stateEsc_steps h hs ch
  | STATE_QUE =>
      have hp : con.parser = ⟨.STATE_QUE, con.argc.toNat⟩ := by rw [Console.parser, hs]
      have hzero := h.count (show (0 : BitVec 32).toNat ≤ ARG_NR by decide)
      rw [hp, parse]
      by_cases hq : ch = 0x3F
      · simp only [if_pos hq]
        exact ⟨hzero.dress .STATE_ARG _ 1 con.style con.erase, rfl⟩
      · simp only [if_neg hq]
        exact argByte_steps (hzero.dress .STATE_ARG (fun _ => 0) 0 con.style con.erase) rfl ch
  | STATE_ARG =>
      have hp : con.parser = ⟨.STATE_ARG, con.argc.toNat⟩ := by rw [Console.parser, hs]
      rw [hp, parse]
      exact argByte_steps h hs ch
  | STATE_CSI =>
      have hp : con.parser = ⟨.STATE_CSI, con.argc.toNat⟩ := by rw [Console.parser, hs]
      rw [hp, parse]
      exact (stateCsi_steps h ch).mono fun c hc => ⟨hc.inside, hc.parser⟩

/-- The parser after a list of bytes. -/
def parseAll : List Byte → Parser → Parser
  | [], p => p
  | ch :: buf, p => parseAll buf (parse p ch)

/-- A chunk keeps the invariant. -/
theorem consoleBytes_steps (buf : List Byte) (h : Inside con) :
    Ends Never (consoleBytes buf con) fun c => Inside c ∧ c.parser = parseAll buf con.parser := by
  induction buf generalizing con with
  | nil => exact ⟨h, rfl⟩
  | cons ch buf ih =>
      refine Ends.bind (consoleByte_steps h ch) fun c hc => ?_
      rw [parseAll, ← hc.2]
      exact ih hc.1

/-! ## Runs -/

/-- The screen goes to the bottom of the video memory and all of it is erased. -/
theorem consoleClear_inside (hg : Geometry con) (hsx : con.saved_x ≤ con.width)
    (hsy : con.saved_y < con.height) (ha : con.argc.toNat ≤ ARG_NR) :
    Ends Never (consoleClear con) fun c => Inside c ∧ c.parser = con.parser := by
  have hfits : Fits con.mem_base 0 0 con.mem_base := by
    rw [hg.mem_base]
    exact ⟨by decide, by decide, by decide, by decide, by decide, by decide⟩
  have hi : Inside { con with screen := con.mem_base, pos := con.mem_base, x := 0, y := 0 } :=
    Inside.intro ⟨hg.1, hg.2, hg.3, hg.4, hg.5, hg.6, hg.7⟩ hfits hsx hsy ha
  have hend : con.mem_base.toNat + 2 * (con.mem_size >>> 1).toNat ≤ 0xBBFC0 := by
    rw [hg.mem_base, hg.mem_size]
    decide
  have herase := eraseScreen_draws hi.toGeometry hfits.base hend
  exact (herase.steps hi).mono fun c hc => ⟨hc.inside, hc.parser⟩

/-- The console `console_init` leaves. -/
theorem consoleInit_inside (mem : BitVec 32 → Byte) :
    Ends Never (consoleInit mem) fun c => Inside c ∧ c.parser = ⟨.STATE_NOR, 0⟩ := by
  have hsize : MEM_SIZE / ROW_SIZE * ROW_SIZE = 16320 := by decide
  have hend : MEM_BASE + MEM_SIZE / ROW_SIZE * ROW_SIZE = 0xBBFC0 := by decide
  refine consoleClear_inside ⟨rfl, hsize, hend, rfl, rfl, rfl, rfl⟩ ?_ ?_ ?_
  · show (0 : BitVec 32) ≤ 80
    decide
  · show (0 : BitVec 32) < 25
    decide
  · exact Nat.zero_le _

/-- Chunks written one after the other. -/
def writeAll : List (List Byte) → Console → Res Console
  | [], con => .ok con
  | buf :: chunks, con => do
      let r ← consoleWrite con buf
      writeAll chunks r.2

theorem writeAll_steps (chunks : List (List Byte)) (h : Inside con) :
    Ends Never (writeAll chunks con) fun c =>
      Inside c ∧ c.parser = chunks.foldl (fun p buf => parseAll buf p) con.parser := by
  induction chunks generalizing con with
  | nil => exact ⟨h, rfl⟩
  | cons buf chunks ih =>
      rw [writeAll, consoleWrite, bind_assoc]
      refine Ends.bind (consoleBytes_steps buf h) fun c hc => ?_
      rw [List.foldl_cons, ← hc.2]
      exact ih hc.1

/-- What a call that stops for no reason returns. -/
theorem returns {α : Type} {x : Res α} {Q : α → Prop} (h : Ends Never x Q) :
    ∃ a, x = .ok a ∧ Q a := by
  cases x with
  | error e => exact absurd trivial h
  | ok a => exact ⟨a, rfl, h⟩

/-- From `console_init` on, whatever is written in whatever chunks, no call stops
    and the console stays inside its video memory. -/
theorem console_inside (mem : BitVec 32 → Byte) (chunks : List (List Byte)) :
    ∃ con, (consoleInit mem >>= writeAll chunks) = .ok con ∧ Inside con := by
  refine returns (Ends.bind (consoleInit_inside mem) fun c hc => ?_)
  exact (writeAll_steps chunks hc.1).mono fun d hd => hd.1

end NeonixConsole
