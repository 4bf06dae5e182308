import Neonix.ConsoleMemory

/-! # Hardware scrolling

    What a console shows is a `Screen`: its cells, row after row, and the cursor.
    Where the screen stands in the video memory is no part of it.  Every byte of
    the normal state has its meaning on screens, so two consoles that show the
    same screen keep showing the same one. -/

namespace NeonixConsole

open NeonixByteBits NeonixMachine NeonixOutcome

/-- 25 rows of 80 cells, and the cursor; a cell is a character and its attribute. -/
structure Screen where
  cells : Nat → BitVec 16
  x : Nat
  y : Nat
  erase : BitVec 16
  style : BitVec 8

namespace Screen

/-- A cell is drawn. -/
def put (s : Screen) (i : Nat) (v : BitVec 16) : Screen :=
  { s with cells := fun j => if j = i then v else s.cells j }

/-- The cell at the cursor. -/
def cursor (s : Screen) : Nat := 80 * s.y + s.x

def lf (s : Screen) : Screen :=
  if s.y + 1 < 25 then { s with y := s.y + 1 }
  else { s with cells := fun i => if 1920 ≤ i then s.erase else s.cells (i + 80) }

def cr (s : Screen) : Screen := { s with x := 0 }

def wrap (s : Screen) : Screen := if 80 ≤ s.x then lf { s with x := s.x - 80 } else s

def tab (s : Screen) : Screen := wrap { s with x := s.x + (8 - s.x % 8) }

def bs (s : Screen) : Screen :=
  if s.x = 0 then s else put { s with x := s.x - 1 } (s.cursor - 1) s.erase

def del (s : Screen) : Screen := s.put s.cursor s.erase

def chr (s : Screen) (ch : Byte) : Screen :=
  let s := s.wrap
  { s.put s.cursor (s.style ++ ch) with x := s.x + 1 }

/-- What a byte of the normal state does. -/
def type (s : Screen) (ch : Byte) : Screen :=
  if ch = NUL ∨ ch = BEL then s
  else if ch = BS then s.bs
  else if ch = HT then s.tab
  else if ch = LF then s.lf.cr
  else if ch = VT ∨ ch = FF then s.lf
  else if ch = CR then s.cr
  else if ch = DEL then s.del
  else s.chr ch

end Screen

/-- The row of the video memory the screen begins in. -/
def Console.top (con : Console) : Nat := (con.screen.toNat - 0xB8000) / 160

/-- What the console shows. -/
structure Displays (con : Console) (s : Screen) : Prop where
  cells : ∀ i, i < 2000 → con.word (80 * con.top + i) = s.cells i
  x : con.x.toNat = s.x
  y : con.y.toNat = s.y
  erase : con.erase = s.erase
  style : con.style = s.style

variable {con c d : Console} {s s' : Screen} {i j : Nat}

theorem Inside.top_eq (h : Inside con) :
    con.screen.toNat = 0xB8000 + 160 * con.top ∧ con.top ≤ 76 := by
  obtain ⟨hbase, hrow, hlast, -, -, -⟩ := h.fits
  rw [Console.top]
  omega

/-- The cursor is at its cell. -/
theorem Displays.pos_eq (hin : Inside con) (h : Displays con s) :
    con.pos.toNat = 0xB8000 + 2 * (80 * con.top + s.cursor) := by
  rw [hin.fits.pos, hin.top_eq.1, h.x, h.y, Screen.cursor]
  omega

theorem Displays.cursor_le (hin : Inside con) (h : Displays con s) : s.cursor ≤ 2000 := by
  have hx := hin.fits.x_le
  have hy := hin.fits.y_lt
  rw [h.x] at hx
  rw [h.y] at hy
  rw [Screen.cursor]
  omega

/-- A word of the screen, or the one behind it, is drawn. -/
theorem Displays.drawn {x : Res Console} {v : BitVec 16} (h : Displays con s)
    (hx : Puts con x fun j => if j = 80 * con.top + i then v else con.word j)
    (htop : con.top ≤ 76) : Ends Never x fun c => Displays c (s.put i v) := by
  refine Ends.mono hx fun c hc => ?_
  obtain ⟨⟨m, rfl⟩, hwords⟩ := hc
  refine ⟨fun j hj => ?_, h.x, h.y, h.erase, h.style⟩
  have hword := hwords (80 * con.top + j) (by omega)
  refine hword.trans ?_
  show _ = if j = i then v else s.cells j
  rw [← h.cells j hj]
  exact if_congr (by omega) rfl rfl

/-- The cursor is put somewhere else. -/
theorem Displays.place (h : Displays con s) (x y pos : BitVec 32) :
    Displays { con with x := x, y := y, pos := pos } { s with x := x.toNat, y := y.toNat } :=
  ⟨h.cells, rfl, rfl, h.erase, h.style⟩

/-! ## Bytes of the normal state -/

theorem cr_displays (h : Displays con s) : Displays (cr con) s.cr :=
  ⟨h.cells, rfl, h.y, h.erase, h.style⟩

/-- The copy to the bottom of the video memory shows the same screen. -/
theorem rewind_displays (hin : Inside con) (h : Displays con s) :
    Ends Never (rewind con) fun c => Displays c s := by
  rw [rewind]
  refine Ends.ite (fun hend => ?_) fun _ => h
  have hlast := hin.fits.last
  have hfull : 0xBBFC0 ≤ con.screen.toNat + 4160 := by
    rw [hin.mem_end, hin.scr_size, hin.row_size] at hend
    bv_omega
  obtain ⟨hscreen, htop⟩ := hin.top_eq
  have hcopy : Puts con (memcpy con con.mem_base con.screen con.scr_size.toNat) fun j =>
      if 0 ≤ j ∧ j < 0 + 2000 then con.word (80 * con.top + (j - 0)) else con.word j := by
    rw [hin.mem_base, hin.scr_size]
    exact memcpy_puts (n := 2000) hin.toGeometry rfl (by omega) (by omega) (by omega) (by omega)
  refine Ends.bind hcopy fun c hc => ?_
  obtain ⟨⟨m, rfl⟩, hwords⟩ := hc
  refine ⟨fun i hi => ?_, h.x, h.y, h.erase, h.style⟩
  have hzero : Console.top { con with
      mem := m, pos := con.pos - (con.screen - con.mem_base), screen := con.mem_base } = 0 := by
    show (con.mem_base.toNat - 0xB8000) / 160 = 0
    rw [hin.mem_base]
    rfl
  rw [hzero, Nat.mul_zero, Nat.zero_add]
  refine (hwords i (by omega)).trans ((if_pos (by omega)).trans ?_)
  rw [← h.cells i hi, Nat.sub_zero]

/-- A line feed in the last row moves the rows up, wherever the screen stands. -/
theorem scrollUp_displays (hin : Inside con) (h : Displays con s) :
    Ends Never (scrollUp con) fun c =>
      Displays c { s with cells := fun i => if 1920 ≤ i then s.erase else s.cells (i + 80) } := by
  refine Ends.bind ((rewind_steps hin).and (rewind_displays hin h)) fun c hc => ?_
  obtain ⟨⟨hsteps, -, hnext⟩, hc⟩ := hc
  have hin' := hsteps.inside
  have hrow : (c.screen + c.row_size).toNat = c.screen.toNat + 160 := by
    rw [hin'.row_size]
    bv_omega
  obtain ⟨hscreen, htop⟩ := hin'.top_eq
  have hbehind : (c.screen + c.scr_size).toNat = 0xB8000 + 2 * (80 * c.top + 2000) := by
    rw [hin'.scr_size]
    bv_omega
  have herase : Puts c (eraseScreen c (c.screen + c.scr_size) c.width.toNat) fun j =>
      if 80 * c.top + 2000 ≤ j ∧ j < 80 * c.top + 2000 + 80 then c.erase else c.word j := by
    rw [hin'.width]
    exact eraseScreen_puts (n := 80) hin'.toGeometry hbehind (by omega)
  refine Ends.bind herase fun d hd => ?_
  obtain ⟨⟨m, rfl⟩, hwords⟩ := hd
  refine ⟨fun i hi => ?_, hc.x, hc.y, hc.erase, hc.style⟩
  have hup : Console.top { c with
      mem := m, screen := c.screen + c.row_size, pos := c.pos + c.row_size } = c.top + 1 := by
    show ((c.screen + c.row_size).toNat - 0xB8000) / 160 = c.top + 1
    omega
  rw [hup]
  refine (hwords (80 * (c.top + 1) + i) (by omega)).trans ?_
  show (if _ then _ else _) = if 1920 ≤ i then s.erase else s.cells (i + 80)
  by_cases hlast : 1920 ≤ i
  · rw [if_pos (by omega), if_pos hlast, hc.erase]
  · rw [if_neg (by omega), if_neg hlast, ← hc.cells (i + 80) (by omega)]
    congr 1
    omega

theorem lf_displays (hin : Inside con) (h : Displays con s) :
    Ends Never (lf con) fun c => Displays c s.lf := by
  have hy := hin.fits.y_lt
  have hlt : con.y + 1 < con.height ↔ s.y + 1 < 25 := by
    rw [hin.height, ← h.y]
    constructor
    · intro hlt
      bv_omega
    · intro hlt
      bv_omega
  rw [lf, Screen.lf]
  by_cases hrow : s.y + 1 < 25
  · rw [if_pos (hlt.mpr hrow), if_pos hrow]
    refine ⟨h.cells, h.x, ?_, h.erase, h.style⟩
    show (con.y + 1).toNat = s.y + 1
    rw [← h.y]
    bv_omega
  · rw [if_neg (fun h => hrow (hlt.mp h)), if_neg hrow]
    exact scrollUp_displays hin h

/-- The column may be behind the last one. -/
theorem wrap_displays (x pos : BitVec 32) (hin : Inside con) (h : Displays con s)
    (hx : x.toNat < 160)
    (hpos : pos.toNat = con.screen.toNat + 160 * con.y.toNat + 2 * x.toNat) :
    Ends Never (wrap { con with x := x, pos := pos }) fun c =>
      Displays c (Screen.wrap { s with x := x.toNat }) := by
  have hle : con.width ≤ x ↔ 80 ≤ x.toNat := by
    rw [hin.width]
    exact BitVec.le_def
  rw [wrap, Screen.wrap]
  by_cases hwide : 80 ≤ x.toNat
  · obtain ⟨hbase, hrow, hlast, -, hlt, -⟩ := hin.fits
    have hcol : (x - con.width).toNat = x.toNat - 80 := by
      rw [hin.width]
      bv_omega
    have hfits : Fits con.screen (x - con.width) con.y (pos - con.row_size) := by
      rw [hin.width, hin.row_size]
      exact ⟨hbase, hrow, hlast, by bv_omega, hlt, by bv_omega⟩
    have hback := h.place (x - con.width) con.y (pos - con.row_size)
    rw [hcol, h.y] at hback
    rw [if_pos (hle.mpr hwide), if_pos hwide]
    exact lf_displays (hin.place hfits).inside hback
  · rw [if_neg (fun h => hwide (hle.mp h)), if_neg hwide]
    exact ⟨h.cells, rfl, h.y, h.erase, h.style⟩

theorem tab_displays (hin : Inside con) (h : Displays con s) :
    Ends Never (tab con) fun c => Displays c s.tab := by
  obtain ⟨hbase, hrow, hlast, hx, hy, hpos⟩ := hin.fits
  have hand : (con.x &&& 7).toNat = con.x.toNat % 8 := by
    rw [BitVec.toNat_and]
    exact Nat.and_two_pow_sub_one_eq_mod con.x.toNat 3
  have hcol : (con.x + (8 - (con.x &&& 7))).toNat = s.x + (8 - s.x % 8) := by
    rw [← h.x]
    bv_omega
  have hwrap := wrap_displays (con.x + (8 - (con.x &&& 7)))
    (con.pos + ((8 - (con.x &&& 7)) <<< 1)) hin h (by bv_omega) (by rw [shl_one]; bv_omega)
  rw [hcol] at hwrap
  exact hwrap

theorem bs_displays (hin : Inside con) (h : Displays con s) :
    Ends Never (bs con) fun c => Displays c s.bs := by
  obtain ⟨hbase, hrow, hlast, hx, hy, hpos⟩ := hin.fits
  have hcursor := h.pos_eq hin
  have htop := hin.top_eq.2
  rw [bs, Screen.bs]
  by_cases hzero : con.x = 0
  · rw [if_pos hzero, if_pos (by rw [← h.x, hzero]; rfl)]
    exact h
  · have hne : con.x.toNat ≠ 0 := fun h0 => hzero (BitVec.eq_of_toNat_eq h0)
    have hcol : (con.x - 1).toNat = s.x - 1 := by
      rw [← h.x]
      bv_omega
    have hback := h.place (con.x - 1) con.y (con.pos - 2)
    rw [hcol, h.y] at hback
    have hge : s.x ≤ s.cursor := Nat.le_add_left _ _
    have hle := h.cursor_le hin
    rw [h.x] at hne
    have hprev : (con.pos - 2).toNat = 0xB8000 + 2 * (80 * con.top + (s.cursor - 1)) := by bv_omega
    have hg : Geometry { con with x := con.x - 1, pos := con.pos - 2 } :=
      ⟨hin.1.1, hin.1.2, hin.1.3, hin.1.4, hin.1.5, hin.1.6, hin.1.7⟩
    rw [if_neg hzero, if_neg hne]
    refine Ends.mono (hback.drawn (store16_puts hg hprev (by omega) con.erase) htop) fun c hc => ?_
    rw [h.erase] at hc
    exact hc

theorem del_displays (hin : Inside con) (h : Displays con s) :
    Ends Never (del con) fun c => Displays c s.del := by
  have htop := hin.top_eq.2
  have hle := h.cursor_le hin
  rw [del, Screen.del, h.erase]
  exact h.drawn (store16_puts hin.toGeometry (h.pos_eq hin) (by omega) s.erase) htop

/-- The two stores of `chr` are one of a `u16`. -/
theorem chr_store (con : Console) (ch : Byte) :
    (store8 con con.pos ch >>= fun c => store8 c (c.pos + 1) c.style) =
      store16 con con.pos (con.style ++ ch) := by
  have hlow : (con.style ++ ch).setWidth 8 = ch := BitVec.setWidth_append_eq_right
  have hhigh : (con.style ++ ch).extractLsb' 8 8 = con.style := BitVec.extractLsb'_append_eq_left
  rw [store16, hlow, hhigh, store8]
  split
  · rfl
  · rfl

theorem chr_displays (hin : Inside con) (h : Displays con s) (ch : Byte) :
    Ends Never (chr con ch) fun c => Displays c (s.chr ch) := by
  have hx : con.x.toNat < 160 := Nat.lt_of_le_of_lt hin.fits.x_le (by decide)
  have hplace : Ends Never (wrap { con with x := con.x, pos := con.pos }) fun c =>
      Steps con c ∧ c.x.toNat < 80 := wrap_steps hin hx hin.fits.pos
  have hwrap := hplace.and (wrap_displays con.x con.pos hin h hx hin.fits.pos)
  rw [h.x] at hwrap
  refine Ends.bind hwrap fun c hc => ?_
  obtain ⟨⟨hsteps, hcol⟩, hc⟩ := hc
  have hin' := hsteps.inside
  have htop := hin'.top_eq.2
  have hle := hc.cursor_le hin'
  rw [← bind_assoc, chr_store, hc.style]
  have hput := hc.drawn (store16_puts hin'.toGeometry (hc.pos_eq hin') (by omega) (s.wrap.style ++ ch))
    htop
  refine Ends.bind hput fun d hd => ?_
  have hx : d.x.toNat = s.wrap.x := hd.x
  have hx' : c.x.toNat = s.wrap.x := hc.x
  refine ⟨hd.cells, ?_, hd.y, hd.erase, hd.style⟩
  show (d.x + 1).toNat = s.wrap.x + 1
  bv_omega

/-- A byte other than `ESC`. -/
theorem stateNormal_displays (hin : Inside con) (h : Displays con s) {ch : Byte} (hch : ch ≠ ESC) :
    Ends Never (stateNormal con ch) fun c => Displays c (s.type ch) := by
  rw [stateNormal, Screen.type]
  split
  · exact h
  split
  · exact bs_displays hin h
  split
  · exact tab_displays hin h
  split
  · exact Ends.bind (lf_displays hin h) fun c hc => cr_displays hc
  split
  · exact lf_displays hin h
  split
  · exact cr_displays h
  split
  · exact del_displays hin h
  · exact chr_displays hin h ch

theorem consoleByte_displays (hin : Inside con) (hs : con.state = .STATE_NOR) (h : Displays con s)
    {ch : Byte}
    (hch : ch ≠ ESC) : Ends Never (consoleByte con ch) fun c =>
      Inside c ∧ c.state = .STATE_NOR ∧ Displays c (s.type ch) := by
  have hstate : parse con.parser ch = ⟨.STATE_NOR, con.argc.toNat⟩ := by
    rw [Console.parser, hs, parse, if_neg hch]
  rw [consoleByte, hs]
  refine ((stateNormal_steps hin hs ch).and (stateNormal_displays hin h hch)).mono fun c hc => ?_
  obtain ⟨⟨hin', hparser⟩, hc⟩ := hc
  exact ⟨hin', congrArg Parser.state (hparser.trans hstate), hc⟩

/-- Bytes without `ESC`, one after the other. -/
theorem consoleBytes_displays (buf : List Byte) (hin : Inside con) (hs : con.state = .STATE_NOR)
    (h : Displays con s) (hbuf : ESC ∉ buf) : Ends Never (consoleBytes buf con) fun c =>
      Inside c ∧ c.state = .STATE_NOR ∧ Displays c (buf.foldl Screen.type s) := by
  induction buf generalizing con s with
  | nil => exact ⟨hin, hs, h⟩
  | cons ch buf ih =>
      have hch : ch ≠ ESC := fun heq => hbuf (heq ▸ List.mem_cons_self)
      refine Ends.bind (consoleByte_displays hin hs h hch) fun c hc => ?_
      exact ih hc.1 hc.2.1 hc.2.2 fun hmem => hbuf (List.mem_cons_of_mem _ hmem)

/-! ## Two consoles -/

/-- The cell the display shows in a row and a column. -/
def cell (con : Console) (r c : Nat) : BitVec 16 :=
  load16 con (con.screen + BitVec.ofNat 32 (160 * r + 2 * c))

/-- The screen of a console. -/
def Console.shown (con : Console) : Screen :=
  ⟨fun i => con.word (80 * con.top + i), con.x.toNat, con.y.toNat, con.erase, con.style⟩

theorem displays_shown (con : Console) : Displays con con.shown :=
  ⟨fun _ _ => rfl, rfl, rfl, rfl, rfl⟩

/-- The row behind the screen is a row of the video memory as well. -/
theorem cell_eq (hin : Inside con) {r k : Nat} (hcell : 80 * r + k < 2080) :
    cell con r k = con.word (80 * con.top + (80 * r + k)) := by
  have hlast := hin.fits.last
  refine word_eq con ?_
  have haddr : (con.screen + BitVec.ofNat 32 (160 * r + 2 * k)).toNat =
      con.screen.toNat + (160 * r + 2 * k) := by
    bv_omega
  rw [haddr, hin.top_eq.1]
  omega

theorem Displays.cell (hin : Inside con) (h : Displays con s) {r k : Nat} (hr : r < 25)
    (hk : k < 80) :
    cell con r k = s.cells (80 * r + k) := by
  rw [cell_eq hin (by omega), h.cells _ (by omega)]

/-- Equal cells, rows and columns. -/
theorem Displays.of_cells (hin : Inside con) (hin' : Inside c) (h : Displays con s)
    (hcells : ∀ r k, r < 25 → k < 80 → NeonixConsole.cell con r k = NeonixConsole.cell c r k)
    (hx : con.x = c.x) (hy : con.y = c.y) (herase : con.erase = c.erase)
    (hstyle : con.style = c.style) :
    Displays c s := by
  refine ⟨fun i hi => ?_, hx ▸ h.x, hy ▸ h.y, herase ▸ h.erase, hstyle ▸ h.style⟩
  have hcell := hcells (i / 80) (i % 80) (by omega) (by omega)
  rw [cell_eq hin (by omega), cell_eq hin' (by omega)] at hcell
  rw [← h.cells i hi]
  have hi' : 80 * (i / 80) + i % 80 = i := Nat.div_add_mod i 80
  rw [hi'] at hcell
  exact hcell.symm

/-- Two consoles that show the same screen show the same screen after every byte,
    and a line feed in the last row moves the rows up. -/
theorem scrolling_invisible (con con' : Console) (buf : List Byte) (hin : Inside con)
    (hin' : Inside con') (hs : con.state = .STATE_NOR) (hs' : con'.state = .STATE_NOR)
    (hcells : ∀ r k, r < 25 → k < 80 → cell con r k = cell con' r k) (hx : con.x = con'.x)
    (hy : con.y = con'.y) (herase : con.erase = con'.erase) (hstyle : con.style = con'.style)
    (hbuf : ESC ∉ buf) (front : List Byte) (hfront : front <+: buf) :
    (∃ d d', consoleBytes front con = .ok d ∧ consoleBytes front con' = .ok d' ∧
      d.x = d'.x ∧ d.y = d'.y ∧ ∀ r k, r < 25 → k < 80 → cell d r k = cell d' r k) ∧
    ∀ d, consoleBytes front con = .ok d → d.y = 24 →
      ∃ e, consoleByte d LF = .ok e ∧
        ∀ k, k < 80 → (∀ r, r < 24 → cell e r k = cell d (r + 1) k) ∧ cell e 24 k = d.erase := by
  have hbytes : ESC ∉ front := fun hmem => hbuf (hfront.subset hmem)
  have hdisplays := displays_shown con
  have hdisplays' := hdisplays.of_cells hin hin' hcells hx hy herase hstyle
  obtain ⟨d, hd, hdin, hdstate, hdshows⟩ :=
    returns (consoleBytes_displays front hin hs hdisplays hbytes)
  obtain ⟨d', hd', hdin', -, hdshows'⟩ :=
    returns (consoleBytes_displays front hin' hs' hdisplays' hbytes)
  refine ⟨⟨d, d', hd, hd', ?_, ?_, fun r k hr hk => ?_⟩, ?_⟩
  · exact BitVec.eq_of_toNat_eq (hdshows.x.trans hdshows'.x.symm)
  · exact BitVec.eq_of_toNat_eq (hdshows.y.trans hdshows'.y.symm)
  · rw [hdshows.cell hdin hr hk, hdshows'.cell hdin' hr hk]
  · intro e he hlast
    obtain rfl : d = e := Except.ok.inj (hd.symm.trans he)
    obtain ⟨e, he, hein, -, heshows⟩ :=
      returns (consoleByte_displays hdin hdstate (displays_shown d) (by decide : LF ≠ ESC))
    have htype : d.shown.type LF = d.shown.lf.cr := rfl
    have hlf : d.shown.lf =
        { d.shown with cells := fun i => if 1920 ≤ i then d.erase else d.shown.cells (i + 80) } := by
      refine if_neg ?_
      show ¬ d.y.toNat + 1 < 25
      rw [hlast]
      decide
    rw [htype, hlf] at heshows
    refine ⟨e, he, fun k hk => ⟨fun r hr => ?_, ?_⟩⟩
    · rw [heshows.cell hein (by omega) hk, (displays_shown d).cell hdin (by omega) hk]
      refine (if_neg (by omega)).trans ?_
      rw [Nat.mul_succ, Nat.add_right_comm]
    · rw [heshows.cell hein (by decide) hk]
      exact if_pos (by omega)

/-- A screen of zeros in a row of the video memory. -/
def zeroConsole (screen : BitVec 32) : Console :=
  { mem_base := 0xB8000, mem_size := 16320, mem_end := 0xBBFC0, screen := screen, scr_size := 4000
    pos := screen + 160 * 24, x := 0, y := 24, saved_x := 0, saved_y := 0, width := 80, height := 25
    row_size := 160, state := .STATE_NOR, args := fun _ => 0, argc := 0, ques := 0, erase := ERASE
    style := STYLE, mem := fun _ => 0 }

theorem scrolling_invisible_feed :
    (∃ d d', consoleBytes [LF] (zeroConsole 0xB8000) = .ok d ∧
      consoleBytes [LF] (zeroConsole 0xBAF80) = .ok d' ∧
      d.x = d'.x ∧ d.y = d'.y ∧ ∀ r k, r < 25 → k < 80 → cell d r k = cell d' r k) ∧
    ∀ d, consoleBytes [LF] (zeroConsole 0xB8000) = .ok d → d.y = 24 →
      ∃ e, consoleByte d LF = .ok e ∧
        ∀ k, k < 80 → (∀ r, r < 24 → cell e r k = cell d (r + 1) k) ∧ cell e 24 k = d.erase := by
  have hfirst : Fits (0xB8000 : BitVec 32) 0 24 (0xB8000 + 160 * 24) :=
    ⟨by decide, by decide, by decide, by decide, by decide, by decide⟩
  have hlast : Fits (0xBAF80 : BitVec 32) 0 24 (0xBAF80 + 160 * 24) :=
    ⟨by decide, by decide, by decide, by decide, by decide, by decide⟩
  have hin : ∀ screen, Fits screen 0 24 (screen + 160 * 24) → Inside (zeroConsole screen) :=
    fun screen hfits => Inside.intro ⟨rfl, rfl, rfl, rfl, rfl, rfl, rfl⟩ hfits
      (show (0 : BitVec 32) ≤ 80 by decide) (show (0 : BitVec 32) < 25 by decide) (Nat.zero_le _)
  exact scrolling_invisible _ _ [LF] (hin _ hfirst) (hin _ hlast) rfl rfl (fun r k _ _ => rfl) rfl rfl
    rfl rfl (by decide) [LF] List.prefix_rfl

end NeonixConsole
