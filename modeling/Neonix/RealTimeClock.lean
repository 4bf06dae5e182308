import Mathlib.Order.Monotone.Basic
import Mathlib.Tactic.IntervalCases
import Neonix.Calendar

/-! # The clock of the machine: `time_read`, `mktime` and `set_alarm`

    The registers of the real-time clock are read one after the other while it
    ticks; `time_read_bcd` reads them all again unless the second is still the
    same.  `dateAt` is what a clock set right shows so many seconds after the
    beginning of 1970. -/

namespace NeonixRealTimeClock

open NeonixMachine NeonixCalendar

/-! ## A clock -/

/-- A date and a time; days and months count from 1, years from 1970. -/
structure Date where
  sec : Nat
  min : Nat
  hour : Nat
  mday : Nat
  mon : Nat
  year : Nat

/-- The date a month, or a year, begins with. -/
def Date.nextMonth (d : Date) : Date :=
  if d.mon < 12 then { d with mday := 1, mon := d.mon + 1 }
  else { d with mday := 1, mon := 1, year := d.year + 1 }

def Date.nextDay (d : Date) : Date :=
  if d.mday < monthDays (1970 + d.year) d.mon then { d with mday := d.mday + 1 } else d.nextMonth

/-- The next second. -/
def Date.tick (d : Date) : Date :=
  if d.sec < 59 then { d with sec := d.sec + 1 }
  else if d.min < 59 then { d with sec := 0, min := d.min + 1 }
  else if d.hour < 23 then { d with sec := 0, min := 0, hour := d.hour + 1 }
  else { d with sec := 0, min := 0, hour := 0 }.nextDay

def dateAt : Nat → Date
  | 0 => { sec := 0, min := 0, hour := 0, mday := 1, mon := 1, year := 0 }
  | n + 1 => (dateAt n).tick

structure Date.Valid (d : Date) : Prop where
  sec : d.sec < 60
  min : d.min < 60
  hour : d.hour < 24
  mday : 1 ≤ d.mday ∧ d.mday ≤ monthDays (1970 + d.year) d.mon
  mon : 1 ≤ d.mon ∧ d.mon ≤ 12

/-- The days of a year before a month. -/
def monthsBefore (year : Nat) : Nat → Nat
  | 0 | 1 => 0
  | mon + 1 => monthsBefore year mon + monthDays year mon

/-- The days before a date. -/
def Date.days (d : Date) : Nat :=
  daysBefore d.year + monthsBefore (1970 + d.year) d.mon + (d.mday - 1)

/-- The seconds before a date. -/
def Date.stamp (d : Date) : Nat := ((d.days * 24 + d.hour) * 60 + d.min) * 60 + d.sec

variable {d : Date} {n k i : Nat}

theorem monthsBefore_succ {year mon : Nat} (h : 1 ≤ mon) :
    monthsBefore year (mon + 1) = monthsBefore year mon + monthDays year mon := by
  obtain ⟨m, rfl⟩ : ∃ m, mon = m + 1 := ⟨mon - 1, by omega⟩
  rfl

/-- The months of a year. -/
theorem monthsBefore_year (year : Nat) :
    monthsBefore year 12 + monthDays year 12 = yearDays year := by
  by_cases h : Leap year <;> simp [monthsBefore, monthDays, yearDays, h]

theorem monthDays_pos (year mon : Nat) : 1 ≤ monthDays year mon := by
  rw [monthDays]
  split
  · split
    · decide
    · decide
  · split
    · decide
    · decide

theorem nextMonth_spec (h : d.Valid) (hlast : d.mday = monthDays (1970 + d.year) d.mon) :
    d.nextMonth.days = d.days + 1 ∧ d.nextMonth.Valid := by
  obtain ⟨hsec, hmin, hhour, hmday, hmon⟩ := h
  have hday : 1 ≤ d.mday := hmday.1
  rw [Date.nextMonth]
  by_cases hyear : d.mon < 12
  · rw [if_pos hyear]
    refine ⟨?_, hsec, hmin, hhour, ⟨Nat.le_refl 1, monthDays_pos _ _⟩, ?_⟩
    · show daysBefore d.year + monthsBefore (1970 + d.year) (d.mon + 1) + (1 - 1) = _
      rw [monthsBefore_succ hmon.1, Date.days]
      omega
    · show 1 ≤ d.mon + 1 ∧ d.mon + 1 ≤ 12
      omega
  · rw [if_neg hyear]
    have hdecember : d.mon = 12 := by omega
    refine ⟨?_, hsec, hmin, hhour, ⟨Nat.le_refl 1, monthDays_pos _ _⟩, Nat.le_refl 1, by
      show (1 : Nat) ≤ 12
      omega⟩
    have hmonths := monthsBefore_year (1970 + d.year)
    rw [hdecember] at hlast
    show daysBefore d.year + yearDays (1970 + d.year) + 0 + (1 - 1) = _
    rw [Date.days, hdecember]
    omega

theorem nextDay_spec (h : d.Valid) : d.nextDay.days = d.days + 1 ∧ d.nextDay.Valid := by
  rw [Date.nextDay]
  by_cases hday : d.mday < monthDays (1970 + d.year) d.mon
  · rw [if_pos hday]
    refine ⟨?_, h.sec, h.min, h.hour, ⟨Nat.succ_pos _, hday⟩, h.mon⟩
    have hone := h.mday.1
    show daysBefore d.year + monthsBefore (1970 + d.year) d.mon + (d.mday + 1 - 1) = _
    rw [Date.days]
    omega
  · rw [if_neg hday]
    exact nextMonth_spec h (Nat.le_antisymm h.mday.2 (Nat.le_of_not_lt hday))

theorem nextMonth_time (d : Date) : d.nextMonth.sec = d.sec ∧ d.nextMonth.min = d.min ∧
    d.nextMonth.hour = d.hour := by
  rw [Date.nextMonth]
  split
  · exact ⟨rfl, rfl, rfl⟩
  · exact ⟨rfl, rfl, rfl⟩

theorem nextDay_time (d : Date) : d.nextDay.sec = d.sec ∧ d.nextDay.min = d.min ∧
    d.nextDay.hour = d.hour := by
  rw [Date.nextDay]
  split
  · exact ⟨rfl, rfl, rfl⟩
  · exact nextMonth_time d

/-- A tick is a second. -/
theorem tick_spec (h : d.Valid) : d.tick.stamp = d.stamp + 1 ∧ d.tick.Valid := by
  obtain ⟨hsec, hmin, hhour, hmday, hmon⟩ := h
  rw [Date.tick]
  by_cases h1 : d.sec < 59
  · rw [if_pos h1]
    exact ⟨rfl, by show d.sec + 1 < 60; omega, hmin, hhour, hmday, hmon⟩
  rw [if_neg h1]
  by_cases h2 : d.min < 59
  · rw [if_pos h2]
    refine ⟨?_, by show 0 < 60; omega, by show d.min + 1 < 60; omega, hhour, hmday, hmon⟩
    show ((d.days * 24 + d.hour) * 60 + (d.min + 1)) * 60 + 0 = _
    rw [Date.stamp]
    omega
  rw [if_neg h2]
  by_cases h3 : d.hour < 23
  · rw [if_pos h3]
    refine ⟨?_, by show 0 < 60; omega, by show 0 < 60; omega, by show d.hour + 1 < 24; omega, hmday,
      hmon⟩
    show ((d.days * 24 + (d.hour + 1)) * 60 + 0) * 60 + 0 = _
    rw [Date.stamp]
    omega
  rw [if_neg h3]
  have hmidnight : ({ d with sec := 0, min := 0, hour := 0 } : Date).Valid :=
    ⟨by show 0 < 60; omega, by show 0 < 60; omega, by show 0 < 24; omega, hmday, hmon⟩
  obtain ⟨hdays, hvalid⟩ := nextDay_spec hmidnight
  obtain ⟨hs, hm, hh⟩ := nextDay_time { d with sec := 0, min := 0, hour := 0 }
  refine ⟨?_, hvalid⟩
  have hsame : ({ d with sec := 0, min := 0, hour := 0 } : Date).days = d.days := rfl
  rw [Date.stamp, hs, hm, hh, hdays, hsame, Date.stamp]
  dsimp only
  omega

/-- A clock set right. -/
theorem dateAt_spec (n : Nat) : (dateAt n).stamp = n ∧ (dateAt n).Valid := by
  induction n with
  | zero => exact ⟨rfl, by decide, by decide, by decide, by decide, by decide⟩
  | succ n ih =>
      obtain ⟨hstamp, hvalid⟩ := tick_spec ih.2
      exact ⟨hstamp.trans (congrArg (· + 1) ih.1), hvalid⟩

/-- A date lies in its year. -/
theorem days_lt (h : d.Valid) : d.days < daysBefore (d.year + 1) := by
  have hmonths : monthsBefore (1970 + d.year) d.mon + monthDays (1970 + d.year) d.mon ≤
      yearDays (1970 + d.year) := by
    obtain ⟨h1, h12⟩ := h.mon
    generalize d.mon = mon at h1 h12 ⊢
    by_cases hleap : Leap (1970 + d.year) <;> interval_cases mon <;>
      simp [monthsBefore, monthDays, yearDays, hleap]
  have hday := h.mday
  rw [Date.days, daysBefore]
  omega

/-- The seconds before a date of the years up to 2069 fit into a word. -/
theorem stamp_lt (h : d.Valid) (hyear : d.year < 100) : d.stamp < 2 ^ 32 := by
  have hdays := days_lt h
  have hhour := h.hour
  have hmin := h.min
  have hsec := h.sec
  rw [daysBefore_eq, leapsBefore_eq hyear] at hdays
  rw [Date.stamp]
  omega

theorem daysBefore_mono : Monotone daysBefore :=
  monotone_nat_of_le_succ fun years => Nat.le_add_right _ (yearDays (1970 + years))

/-- The years of the first hundred. -/
theorem year_lt (h : n < END) : (dateAt n).year < 100 := by
  obtain ⟨hstamp, -⟩ := dateAt_spec n
  by_contra hbig
  have hmono : 36525 ≤ daysBefore (dateAt n).year := by
    refine Nat.le_trans ?_ (daysBefore_mono (Nat.le_of_not_lt hbig))
    rw [daysBefore_eq, leapsBefore_eq (Nat.le_refl 100)]
  have hdays : daysBefore (dateAt n).year ≤ (dateAt n).days := by
    rw [Date.days, Nat.add_assoc]
    exact Nat.le_add_right _ _
  rw [Date.stamp] at hstamp
  rw [end_eq] at h
  omega

/-! ## `mktime` -/

/-- The date as `tm` has it, with the two digits of the year. -/
def Date.tm (d : Date) (time : Tm) : Tm :=
  { time with
    tm_sec := d.sec
    tm_min := d.min
    tm_hour := d.hour
    tm_mday := d.mday
    tm_mon := d.mon
    tm_year := ((1970 + d.year) % 100 : Nat) }

/-- A year of this century. -/
theorem mktime_century {time : Tm} (h : time.tm_year < 70) (h0 : 0 ≤ time.tm_year) :
    mktime time = mktime { time with tm_year := time.tm_year + 100 } := by
  rw [mktime, mktime, if_neg (show ¬ time.tm_year ≥ 70 by omega),
    if_pos (show time.tm_year + 100 ≥ 70 by omega)]
  dsimp only
  rw [show time.tm_year - 70 + 100 = time.tm_year + 100 - 70 by omega]

/-- The table of the months is the one of a leap year. -/
theorem monthStart_eq {year mon : Nat} (h : 1 ≤ mon ∧ mon ≤ 12) :
    monthStart mon = monthsBefore year mon + if 2 < mon ∧ ¬ Leap year then 1 else 0 := by
  obtain ⟨h1, h12⟩ := h
  by_cases hleap : Leap year <;> interval_cases mon <;>
    simp [monthStart, month, monthsBefore, monthDays, hleap]

/-- `mktime` of a date from 1970 to 2069 are the seconds before it. -/
theorem mktime_date (h : d.Valid) (hyear : d.year < 100) (time : Tm) :
    mktime (d.tm time) = .ok d.stamp := by
  have hmon := h.mon
  have hday := h.mday.1
  have hleap := leap_iff hyear
  have hdays : (daysBefore d.year : Int) = 365 * d.year + (d.year + 1) / 4 := by
    rw [daysBefore_eq, leapsBefore_eq (Nat.le_of_lt hyear)]
    push_cast
    rfl
  have hstart : monthStart d.mon = monthsBefore (1970 + d.year) d.mon +
      if 2 < d.mon ∧ ¬ Leap (1970 + d.year) then 1 else 0 := monthStart_eq hmon
  -- the two digits of the year count from 1900 before 2000, and from 2000 from then on
  have hfull : mktime (d.tm time) = mktime { d.tm time with tm_year := 70 + d.year } := by
    by_cases hold : d.year < 30
    · have hdigits : ((1970 + d.year) % 100 : Nat) = 70 + d.year := by omega
      rw [Date.tm, hdigits]
      push_cast
      rfl
    · have hdigits : ((1970 + d.year) % 100 : Nat) = d.year - 30 := by omega
      have hsmall : (d.tm time).tm_year = d.year - 30 := by
        show (((1970 + d.year) % 100 : Nat) : Int) = _
        omega
      rw [mktime_century (by omega) (by omega), hsmall, show (d.year : Int) - 30 + 100 = 70 + d.year by omega]
  have hlong : mktime { d.tm time with tm_year := 70 + d.year } =
      .ok (u32 (seconds { d.tm time with tm_year := 70 + d.year })) :=
    mktime_eq (by show (70 : Int) ≤ 70 + d.year; omega) (by
      show (1 : Int) ≤ d.mon ∧ (d.mon : Int) ≤ 12
      omega)
  have hseconds : seconds { d.tm time with tm_year := 70 + d.year } = d.stamp := by
    have hquot : ((70 + d.year : Int) - 70 + 1).tdiv 4 = (d.year + 1) / 4 := by
      rw [show (70 + d.year : Int) - 70 + 1 = ((d.year + 1 : Nat) : Int) by omega,
        Int.tdiv_eq_ediv_of_nonneg (Int.natCast_nonneg _)]
      push_cast
      rfl
    have hrem : (((70 + d.year : Int) - 70 + 2).tmod 4 ≠ 0) ↔ ¬ Leap (1970 + d.year) := by
      rw [hleap, show (70 + d.year : Int) - 70 + 2 = ((d.year + 2 : Nat) : Int) by omega,
        Int.tmod_eq_emod_of_nonneg (Int.natCast_nonneg _)]
      omega
    have hlate : ((d.mon : Int) > 2 ∧ ((70 + d.year : Int) - 70 + 2).tmod 4 ≠ 0) ↔
        2 < d.mon ∧ ¬ Leap (1970 + d.year) := and_congr (by omega) hrem
    show YEAR * ((70 + d.year : Int) - 70) + DAY * ((70 + d.year : Int) - 70 + 1).tdiv 4 +
        monthStart (d.mon : Int).toNat * DAY -
        (if (d.mon : Int) > 2 ∧ ((70 + d.year : Int) - 70 + 2).tmod 4 ≠ 0 then DAY else 0) +
      DAY * ((d.mday : Int) - 1) + HOUR * d.hour + MINUTE * d.min + d.sec = _
    rw [hquot, if_congr hlate rfl rfl, Int.toNat_natCast, hstart, Date.stamp, Date.days, YEAR, DAY,
      HOUR, MINUTE]
    push_cast
    split
    · omega
    · omega
  rw [hfull, hlong, u32_eq hseconds (stamp_lt h hyear)]

/-! ## The registers -/

/-- `bcd_to_bin`. -/
def bcdToBin (value : BitVec 8) : BitVec 8 := (value &&& 0xf#8) + (value >>> 4) * 10#8

/-- `bin_to_bcd`. -/
def binToBcd (value : BitVec 8) : BitVec 8 := value / 10#8 * 0x10#8 + value % 10#8

theorem bcd_back : ∀ v < 100, (bcdToBin (binToBcd (BitVec.ofNat 8 v))).toNat = v := by decide

/-- The registers of the clock that are read. -/
inductive Register where
  | second
  | minute
  | hour
  | weekday
  | day
  | month
  | year
  | century
  deriving DecidableEq

/-- What a register shows so many seconds after the beginning of 1970. -/
def shows (n : Nat) : Register → Nat
  | .second => (dateAt n).sec
  | .minute => (dateAt n).min
  | .hour => (dateAt n).hour
  | .weekday => ((dateAt n).days + 4) % 7 + 1
  | .day => (dateAt n).mday
  | .month => (dateAt n).mon
  | .year => (1970 + (dateAt n).year) % 100
  | .century => (1970 + (dateAt n).year) / 100

/-- `cmos_read` of a register of a clock set right. -/
def cmosRead (n : Nat) (r : Register) : BitVec 8 := binToBcd (BitVec.ofNat 8 (shows n r))

/-- The registers as they were read. -/
structure Reading where
  time : Tm
  century : Int

/-- A turn of the loop of `time_read_bcd`; `instant k` is the second the `k`-th call
    of `cmos_read` falls into. -/
def readAll (regs : Nat → Register → BitVec 8) (instant : Nat → Nat) (k : Nat) (time : Tm) :
    Reading where
  time :=
    { time with
      tm_sec := (regs (instant k) .second).toNat
      tm_min := (regs (instant (k + 1)) .minute).toNat
      tm_hour := (regs (instant (k + 2)) .hour).toNat
      tm_wday := (regs (instant (k + 3)) .weekday).toNat
      tm_mday := (regs (instant (k + 4)) .day).toNat
      tm_mon := (regs (instant (k + 5)) .month).toNat
      tm_year := (regs (instant (k + 6)) .year).toNat }
  century := (regs (instant (k + 7)) .century).toNat

/-- `time_read_bcd`, in at most so many turns. -/
def timeReadBcd (regs : Nat → Register → BitVec 8) (instant : Nat → Nat) :
    (turns k : Nat) → Tm → Option Reading
  | 0, _, _ => none
  | turns + 1, k, time =>
      let reading := readAll regs instant k time
      if reading.time.tm_sec ≠ (regs (instant (k + 8)) .second).toNat then
        timeReadBcd regs instant turns (k + 9) reading.time
      else some reading

/-- `get_yday`. -/
def getYday (time : Tm) : Res Int := do
  let days ← monthAt time.tm_mon
  let year := if time.tm_year ≥ 70 then time.tm_year - 70 else time.tm_year - 70 + 100
  let res := days + time.tm_mday
  return if (year + 2).tmod 4 ≠ 0 ∧ time.tm_mon > 2 then res - 1 else res

/-- `bcd_to_bin` of an `int`. -/
def fromBcd (x : Int) : Int := (bcdToBin (BitVec.ofInt 8 x)).toNat

/-- `time_read` from the end of its `time_read_bcd` on. -/
def convert (reading : Reading) : Res Reading := do
  let time : Tm :=
    { reading.time with
      tm_sec := fromBcd reading.time.tm_sec
      tm_min := fromBcd reading.time.tm_min
      tm_hour := fromBcd reading.time.tm_hour
      tm_wday := fromBcd reading.time.tm_wday
      tm_mday := fromBcd reading.time.tm_mday
      tm_mon := fromBcd reading.time.tm_mon
      tm_year := fromBcd reading.time.tm_year }
  let yday ← getYday time
  return {
    time := { time with tm_yday := yday, tm_isdst := -1 }
    century := fromBcd reading.century }

/-- `time_read`. -/
def timeRead (regs : Nat → Register → BitVec 8) (instant : Nat → Nat) (turns k : Nat)
    (time : Tm) : Res (Option Reading) :=
  match timeReadBcd regs instant turns k time with
  | none => .ok none
  | some reading => some <$> convert reading

/-- `time_init`: `startup_time`. -/
def timeInit (regs : Nat → Register → BitVec 8) (instant : Nat → Nat) (turns k : Nat)
    (time : Tm) : Res (Option Nat) := do
  match ← timeRead regs instant turns k time with
  | none => return none
  | some reading => return some (← mktime reading.time)

/-- The registers of the alarm. -/
def CMOS_SECOND : BitVec 8 := 0x01
def CMOS_MINUTE : BitVec 8 := 0x03
def CMOS_HOUR : BitVec 8 := 0x05
def CMOS_B : BitVec 8 := 0x0b

/-- The calls of `cmos_write` by `set_alarm`, from its `time_read` on.  The hours of a
    `u32` of seconds are few, so their sum does not wrap. -/
def setAlarm (secs : Nat) (time : Tm) : List (BitVec 8 × BitVec 8) :=
  let sec := secs % 60
  let secs := secs / 60
  let min := secs % 60
  let hour := secs / 60
  let tm_sec := time.tm_sec + sec
  let (tm_sec, tm_min) :=
    if tm_sec ≥ 60 then (tm_sec.tmod 60, time.tm_min + 1) else (tm_sec, time.tm_min)
  let tm_min := tm_min + min
  let (tm_min, tm_hour) :=
    if tm_min ≥ 60 then (tm_min.tmod 60, time.tm_hour + 1) else (tm_min, time.tm_hour)
  let tm_hour := tm_hour + hour
  let tm_hour := if tm_hour ≥ 24 then tm_hour.tmod 24 else tm_hour
  [(CMOS_HOUR, binToBcd (BitVec.ofInt 8 tm_hour)),
    (CMOS_MINUTE, binToBcd (BitVec.ofInt 8 tm_min)),
    (CMOS_SECOND, binToBcd (BitVec.ofInt 8 tm_sec)),
    (CMOS_B, 0b00100010)]

/-! ## What is read -/

/-- The time of day of a second. -/
theorem dateAt_time (n : Nat) : (dateAt n).sec = n % 60 ∧ (dateAt n).min = n / 60 % 60 ∧
    (dateAt n).hour = n / 3600 % 24 := by
  obtain ⟨hstamp, hvalid⟩ := dateAt_spec n
  have hsec := hvalid.sec
  have hmin := hvalid.min
  have hhour := hvalid.hour
  rw [Date.stamp] at hstamp
  omega

theorem shows_lt (h : n < END) (r : Register) : shows n r < 100 := by
  have hyear := year_lt h
  obtain ⟨hsec, hmin, hhour, hmday, hmon⟩ := (dateAt_spec n).2
  have hdays : monthDays (1970 + (dateAt n).year) (dateAt n).mon ≤ 31 := by
    rw [monthDays]
    split
    · split <;> omega
    · split <;> omega
  cases r with
  | second => exact Nat.lt_trans hsec (by omega)
  | minute => exact Nat.lt_trans hmin (by omega)
  | hour => exact Nat.lt_trans hhour (by omega)
  | weekday =>
      show ((dateAt n).days + 4) % 7 + 1 < 100
      omega
  | day =>
      show (dateAt n).mday < 100
      omega
  | month =>
      show (dateAt n).mon < 100
      omega
  | year => exact Nat.mod_lt _ (by omega)
  | century =>
      show (1970 + (dateAt n).year) / 100 < 100
      omega

/-- A register comes back from its BCD digits. -/
theorem fromBcd_cmosRead (h : n < END) (r : Register) :
    fromBcd ((cmosRead n r).toNat : Int) = shows n r := by
  rw [fromBcd, BitVec.ofInt_natCast, BitVec.ofNat_toNat, BitVec.setWidth_eq, cmosRead,
    bcd_back _ (shows_lt h r)]

/-- The second is the same a minute later only. -/
theorem same_second {m : Nat} (hle : n ≤ m) (hlt : m < n + 60)
    (h : cmosRead n .second = cmosRead m .second) : m = n := by
  have hback : ∀ n, (bcdToBin (cmosRead n .second)).toNat = n % 60 := by
    intro n
    have hsec : shows n .second = n % 60 := (dateAt_time n).1
    rw [cmosRead, hsec, bcd_back _ (by omega)]
  have hmod : n % 60 = m % 60 := by rw [← hback n, ← hback m, h]
  omega

/-- The reading of a date. -/
def Date.reading (d : Date) : Reading where
  time :=
    { tm_sec := d.sec
      tm_min := d.min
      tm_hour := d.hour
      tm_mday := d.mday
      tm_mon := d.mon
      tm_year := ((1970 + d.year) % 100 : Nat)
      tm_wday := ((d.days + 4) % 7 + 1 : Nat)
      tm_yday := (monthsBefore (1970 + d.year) d.mon + d.mday : Nat)
      tm_isdst := -1 }
  century := ((1970 + d.year) / 100 : Nat)

/-- `get_yday` counts the days of a year from 1. -/
theorem getYday_date (h : d.Valid) (hyear : d.year < 100) (time : Tm) :
    getYday (d.tm time) = .ok ((monthsBefore (1970 + d.year) d.mon + d.mday : Nat) : Int) := by
  have hmon := h.mon
  have hleap := leap_iff hyear
  have hstart : monthStart d.mon = monthsBefore (1970 + d.year) d.mon +
      if 2 < d.mon ∧ ¬ Leap (1970 + d.year) then 1 else 0 := monthStart_eq hmon
  have hlen : d.mon < month.length := by
    show d.mon < 13
    omega
  have hmonth : monthAt d.mon = .ok (monthStart d.mon) := by
    rw [monthAt, if_pos (Int.natCast_nonneg _), Int.toNat_natCast, List.getElem?_eq_getElem hlen,
      monthStart, List.getD_eq_getElem?_getD, List.getElem?_eq_getElem hlen, Option.getD_some]
  have hyears : (if (((1970 + d.year) % 100 : Nat) : Int) ≥ 70 then
      (((1970 + d.year) % 100 : Nat) : Int) - 70
      else (((1970 + d.year) % 100 : Nat) : Int) - 70 + 100) = d.year := by
    split
    · omega
    · omega
  have hlate : ((d.year : Int) + 2).tmod 4 ≠ 0 ∧ (d.mon : Int) > 2 ↔
      2 < d.mon ∧ ¬ Leap (1970 + d.year) := by
    rw [hleap, show (d.year : Int) + 2 = ((d.year + 2 : Nat) : Int) by omega,
      Int.tmod_eq_emod_of_nonneg (Int.natCast_nonneg _)]
    omega
  show (monthAt d.mon >>= fun days => _) = _
  rw [hmonth, bind_ok]
  refine congrArg Except.ok ?_
  show (if ((if (((1970 + d.year) % 100 : Nat) : Int) ≥ 70 then
      (((1970 + d.year) % 100 : Nat) : Int) - 70
      else (((1970 + d.year) % 100 : Nat) : Int) - 70 + 100) + 2).tmod 4 ≠ 0 ∧ (d.mon : Int) > 2
    then monthStart d.mon + (d.mday : Int) - 1 else monthStart d.mon + (d.mday : Int)) = _
  rw [hyears, if_congr hlate rfl rfl, hstart]
  push_cast
  split
  · omega
  · omega

/-- What is read while the second stays the same is the date. -/
theorem convert_readAll {instant : Nat → Nat} (hsame : ∀ i ≤ 8, instant (k + i) = n)
    (h : n < END) (time : Tm) :
    convert (readAll cmosRead instant k time) = .ok (dateAt n).reading := by
  have hback : ∀ i ≤ 8, ∀ r, fromBcd ((cmosRead (instant (k + i)) r).toNat : Int) = shows n r := by
    intro i hi r
    rw [hsame i hi]
    exact fromBcd_cmosRead h r
  have hvalid := (dateAt_spec n).2
  rw [convert, readAll]
  dsimp only
  rw [hback 1 (by omega), hback 2 (by omega), hback 3 (by omega), hback 4 (by omega),
    hback 5 (by omega), hback 6 (by omega), hback 7 (by omega),
    show instant k = instant (k + 0) from rfl, hback 0 (by omega)]
  have hyday := getYday_date hvalid (year_lt h)
    { (dateAt n).reading.time with tm_yday := time.tm_yday, tm_isdst := time.tm_isdst }
  show (getYday ((dateAt n).tm
    { (dateAt n).reading.time with tm_yday := time.tm_yday, tm_isdst := time.tm_isdst }) >>= _) = _
  rw [hyday, bind_ok]
  rfl

/-- `time_read_bcd` ends with a turn whose second stayed the same. -/
theorem timeReadBcd_spec {instant : Nat → Nat} {turns : Nat} {time : Tm} {reading : Reading}
    (h : timeReadBcd cmosRead instant turns k time = some reading) :
    ∃ j < turns, ∃ t, reading = readAll cmosRead instant (k + 9 * j) t ∧
      cmosRead (instant (k + 9 * j)) .second = cmosRead (instant (k + 9 * j + 8)) .second := by
  induction turns generalizing k time with
  | zero => cases h
  | succ turns ih =>
      rw [timeReadBcd] at h
      split at h
      next =>
        obtain ⟨j, hj, t, hreading, hsame⟩ := ih h
        have hnext : k + 9 + 9 * j = k + 9 * (j + 1) := by omega
        rw [hnext] at hreading hsame
        exact ⟨j + 1, Nat.succ_lt_succ hj, t, hreading, hsame⟩
      next hstays =>
        refine ⟨0, Nat.succ_pos _, time, (Option.some.inj h).symm, ?_⟩
        exact BitVec.eq_of_toNat_eq (Int.ofNat.inj (not_not.mp hstays))

/-- `time_read_bcd` ends with the first such turn. -/
theorem timeReadBcd_ends {instant : Nat → Nat} {turns j : Nat} (hj : j < turns)
    (hstill : instant (k + 9 * j + 8) = instant (k + 9 * j)) (time : Tm) :
    ∃ reading, timeReadBcd cmosRead instant turns k time = some reading := by
  induction turns generalizing k j time with
  | zero => exact absurd hj (Nat.not_lt_zero _)
  | succ turns ih =>
      rw [timeReadBcd]
      split
      next hmoved =>
        cases j with
        | zero =>
            rw [show k + 9 * 0 + 8 = k + 8 from rfl, show k + 9 * 0 = k from rfl] at hstill
            rw [hstill] at hmoved
            exact absurd rfl hmoved
        | succ j =>
            have hnext : k + 9 * (j + 1) = k + 9 + 9 * j := by omega
            rw [hnext] at hstill
            exact ih (Nat.lt_of_succ_lt_succ hj) hstill _
      next => exact ⟨_, rfl⟩

theorem cmosRead_time (n : Nat) : cmosRead n .second = binToBcd (BitVec.ofNat 8 (n % 60)) ∧
    cmosRead n .minute = binToBcd (BitVec.ofNat 8 (n / 60 % 60)) ∧
    cmosRead n .hour = binToBcd (BitVec.ofNat 8 (n / 3600 % 24)) := by
  obtain ⟨hsec, hmin, hhour⟩ := dateAt_time n
  rw [← hsec, ← hmin, ← hhour]
  exact ⟨rfl, rfl, rfl⟩

/-- `set_alarm` writes what the clock will show. -/
theorem setAlarm_date (n secs : Nat) : setAlarm secs (dateAt n).reading.time =
    [(CMOS_HOUR, cmosRead (n + secs) .hour),
      (CMOS_MINUTE, cmosRead (n + secs) .minute),
      (CMOS_SECOND, cmosRead (n + secs) .second), (CMOS_B, 0b00100010)] := by
  obtain ⟨hsec, hmin, hhour⟩ := dateAt_time n
  obtain ⟨hsecond, hminute, hhourly⟩ := cmosRead_time (n + secs)
  have htm_sec : (dateAt n).reading.time.tm_sec = ((n % 60 : Nat) : Int) := congrArg _ hsec
  have htm_min : (dateAt n).reading.time.tm_min = ((n / 60 % 60 : Nat) : Int) := congrArg _ hmin
  have htm_hour : (dateAt n).reading.time.tm_hour = ((n / 3600 % 24 : Nat) : Int) :=
    congrArg _ hhour
  -- each `if` carries one over to the next unit
  have hcarry : ∀ a b c : Nat, a + b < 120 →
      (if ((a : Nat) : Int) + (b : Nat) ≥ 60 then
        ((((a : Nat) : Int) + (b : Nat)).tmod 60, ((c : Nat) : Int) + 1)
        else (((a : Nat) : Int) + (b : Nat), ((c : Nat) : Int))) =
      ((((a + b) % 60 : Nat) : Int), ((c + (a + b) / 60 : Nat) : Int)) := by
    intro a b c hab
    rw [← Nat.cast_add, Int.tmod_eq_emod_of_nonneg (Int.natCast_nonneg _)]
    split
    · refine Prod.ext ?_ ?_
      · dsimp only
        omega
      · dsimp only
        omega
    · refine Prod.ext ?_ ?_
      · dsimp only
        omega
      · dsimp only
        omega
  have hday : ∀ a b : Nat, (if ((a : Nat) : Int) + (b : Nat) ≥ 24 then
      (((a : Nat) : Int) + (b : Nat)).tmod 24 else ((a : Nat) : Int) + (b : Nat)) =
      ((a + b) % 24 : Nat) := by
    intro a b
    rw [← Nat.cast_add, Int.tmod_eq_emod_of_nonneg (Int.natCast_nonneg _)]
    split
    · omega
    · omega
  -- so the three come out as those of the sum
  have hsum : (n % 60 + secs % 60) % 60 = (n + secs) % 60 := by omega
  have hsum_min : (n / 60 % 60 + (n % 60 + secs % 60) / 60 + secs / 60 % 60) % 60 =
      (n + secs) / 60 % 60 := by omega
  have hsum_hour : (n / 3600 % 24 +
      (n / 60 % 60 + (n % 60 + secs % 60) / 60 + secs / 60 % 60) / 60 + secs / 60 / 60) % 24 =
      (n + secs) / 3600 % 24 := by omega
  rw [setAlarm]
  dsimp only
  rw [htm_sec, htm_min, htm_hour, hcarry _ _ _ (by omega)]
  dsimp only
  rw [hcarry _ _ _ (by omega)]
  dsimp only
  rw [hday, hsum, hsum_min, hsum_hour, BitVec.ofInt_natCast, BitVec.ofInt_natCast,
    BitVec.ofInt_natCast, hsecond, hminute, hhourly]

/-! ## `time_init` and `set_alarm` -/

/-- `time_read` gives the date of a second in which it read the registers. -/
theorem timeRead_spec {instant : Nat → Nat} (hmono : Monotone instant)
    (hturn : ∀ k, instant (k + 8) < instant k + 60) {turns : Nat}
    (hend : instant (k + 9 * turns) < END) {time : Tm} {reading : Reading}
    (h : timeReadBcd cmosRead instant turns k time = some reading) :
    ∃ j < turns, (∀ i ≤ 8, instant (k + 9 * j + i) = instant (k + 9 * j)) ∧
      instant (k + 9 * j) < END ∧
      convert reading = .ok (dateAt (instant (k + 9 * j))).reading := by
  obtain ⟨j, hj, t, rfl, hsecond⟩ := timeReadBcd_spec h
  have hlast := hmono (show k + 9 * j ≤ k + 9 * j + 8 by omega)
  have hstill : instant (k + 9 * j + 8) = instant (k + 9 * j) :=
    same_second hlast (hturn (k + 9 * j)) hsecond
  have hin : instant (k + 9 * j) < END :=
    Nat.lt_of_le_of_lt (hmono (by omega)) hend
  have hsame : ∀ i ≤ 8, instant (k + 9 * j + i) = instant (k + 9 * j) := fun i hi =>
    Nat.le_antisymm ((hmono (Nat.add_le_add_left hi _)).trans hstill.le)
      (hmono (Nat.le_add_right _ _))
  exact ⟨j, hj, hsame, hin, convert_readAll hsame hin t⟩

theorem mktime_reading {n : Nat} (h : n < END) : mktime (dateAt n).reading.time = .ok n := by
  obtain ⟨hstamp, hvalid⟩ := dateAt_spec n
  have hmktime := mktime_date hvalid (year_lt h) (dateAt n).reading.time
  rw [hstamp] at hmktime
  exact hmktime

/-- The date read, the stamp made of it, and the alarm set from it are those of a
    second through a whole turn; the turns end with the first that lies in one second. -/
theorem clock_read {instant : Nat → Nat} (hmono : Monotone instant)
    (hturn : ∀ k, instant (k + 8) < instant k + 60) {turns : Nat}
    (hend : instant (k + 9 * turns) < END) (time : Tm) :
    (∀ reading, timeRead cmosRead instant turns k time = .ok (some reading) →
      ∃ j < turns, ∃ n, (∀ i ≤ 8, instant (k + 9 * j + i) = n) ∧ reading = (dateAt n).reading ∧
        timeInit cmosRead instant turns k time = .ok (some n) ∧
        ∀ secs, setAlarm secs reading.time =
          [(CMOS_HOUR, cmosRead (n + secs) .hour),
            (CMOS_MINUTE, cmosRead (n + secs) .minute),
            (CMOS_SECOND, cmosRead (n + secs) .second), (CMOS_B, 0b00100010)]) ∧
      ((∃ j < turns, instant (k + 9 * j + 8) = instant (k + 9 * j)) →
        ∃ reading, timeRead cmosRead instant turns k time = .ok (some reading)) := by
  constructor
  · intro reading h
    obtain ⟨bcd, hbcd⟩ : ∃ bcd, timeReadBcd cmosRead instant turns k time = some bcd := by
      cases hread : timeReadBcd cmosRead instant turns k time with
      | none =>
          rw [timeRead, hread] at h
          cases h
      | some bcd => exact ⟨bcd, rfl⟩
    obtain ⟨j, hj, hsame, hin, hdate⟩ := timeRead_spec hmono hturn hend hbcd
    have hread : timeRead cmosRead instant turns k time =
        .ok (some (dateAt (instant (k + 9 * j))).reading) := by
      rw [timeRead, hbcd]
      show some <$> convert bcd = _
      rw [hdate]
      rfl
    obtain rfl : reading = (dateAt (instant (k + 9 * j))).reading :=
      Option.some.inj (Except.ok.inj (h.symm.trans hread))
    refine ⟨j, hj, instant (k + 9 * j), hsame, rfl, ?_, setAlarm_date _⟩
    rw [timeInit, hread, bind_ok]
    show (mktime (dateAt (instant (k + 9 * j))).reading.time >>= _) = _
    rw [mktime_reading hin]
    rfl
  · rintro ⟨j, hj, hstill⟩
    obtain ⟨bcd, hbcd⟩ := timeReadBcd_ends hj hstill time
    obtain ⟨i, -, -, -, hdate⟩ := timeRead_spec hmono hturn hend hbcd
    refine ⟨(dateAt (instant (k + 9 * i))).reading, ?_⟩
    rw [timeRead, hbcd]
    show some <$> convert bcd = _
    rw [hdate]
    rfl

/-- The first turn meets the end of February 2000 and is given up. -/
theorem clock_read_leap_day :
    timeInit cmosRead (fun k => if k < 4 then 951868799 else 951868800) 2 0
      ⟨0, 0, 0, 0, 0, 0, 0, 0, 0⟩ = .ok (some 951868800) := by
  have hmono : Monotone fun k => if k < 4 then 951868799 else 951868800 := by
    intro k m hkm
    dsimp only
    split
    · split
      · omega
      · omega
    · rw [if_neg (by omega)]
  have hturn : ∀ k, (if k + 8 < 4 then 951868799 else 951868800) <
      (if k < 4 then 951868799 else 951868800) + 60 := by
    intro k
    split
    · split
      · omega
      · omega
    · split
      · omega
      · omega
  have hend : (if 0 + 9 * 2 < 4 then 951868799 else 951868800) < END := by
    rw [end_eq]
    decide
  obtain ⟨hall, hends⟩ := clock_read hmono hturn hend ⟨0, 0, 0, 0, 0, 0, 0, 0, 0⟩
  obtain ⟨reading, hread⟩ := hends ⟨1, by decide, by decide⟩
  obtain ⟨j, hj, n, hsame, -, hinit, -⟩ := hall reading hread
  have hn : n = 951868800 := by
    rw [← hsame 8 (Nat.le_refl 8)]
    exact if_neg (by omega)
  rw [hinit, hn]

end NeonixRealTimeClock
