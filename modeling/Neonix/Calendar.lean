import Mathlib.Tactic.IntervalCases
import Neonix.Machine

/-! # `kernel/time.c`: dates of time stamps

    `localtime` takes the year to be `days / 365`, so it is one too far in the
    last days of a year, and the leap days are taken off before the remainder by
    the length of the year.  The years of the kernel are counted from 1900; a
    `time_t` is a `u32`, and `int` arithmetic wraps. -/

namespace NeonixCalendar

open NeonixMachine

def MINUTE : Int := 60
def HOUR : Int := 60 * MINUTE
def DAY : Int := 24 * HOUR
def YEAR : Int := 365 * DAY

/-- A number as a `u32`. -/
def u32 (x : Int) : Nat := (x % 2 ^ 32).toNat

/-- `month`: the days of a leap year before each month. -/
def month : List Int := [0, 0, 31, 60, 91, 121, 152, 182, 213, 244, 274, 305, 335]

/-- `month[mon]`. -/
def monthAt (mon : Int) : Res Int :=
  match (if 0 ≤ mon then month[mon.toNat]? else none) with
  | some days => .ok days
  | none => .error .outOfBounds

/-- `tm`. -/
structure Tm where
  tm_sec : Int
  tm_min : Int
  tm_hour : Int
  tm_mday : Int
  tm_mon : Int
  tm_year : Int
  tm_wday : Int
  tm_yday : Int
  tm_isdst : Int
  deriving DecidableEq

/-- `elapsed_leap_years`. -/
def elapsedLeapYears (year : Int) : Int :=
  (year - 1).tdiv 4 - (year - 1).tdiv 100 + (year + 299).tdiv 400 - (1970 - 1900) / 4

/-- `is_leap_year`. -/
def IsLeapYear (year : Int) : Prop :=
  (year.tmod 4 = 0 ∧ year.tmod 100 ≠ 0) ∨ (year + 1900).tmod 400 = 0

instance (year : Int) : Decidable (IsLeapYear year) := inferInstanceAs (Decidable (_ ∨ _))

/-- The loop of `localtime` from the month `mon` on, for so many turns: the first month
    that begins after the day. -/
def monthLoop (offset yday : Int) : (turns : Nat) → (mon : Nat) → Nat
  | 0, mon => mon
  | turns + 1, mon =>
      if month.getD mon 0 - offset > yday then mon else monthLoop offset yday turns (mon + 1)

/-- `localtime`. -/
def localtime (stamp : Nat) (time : Tm) : Tm :=
  let remain := stamp / 60
  let tm_min := remain % 60
  let remain := remain / 60
  let days := remain / 24
  let years : Int := (days / 365 : Nat) + 70
  let offset : Int := if IsLeapYear years then 0 else 1
  let yday : Int := (u32 (days - elapsedLeapYears years) % (366 - offset).toNat : Nat)
  let mon : Nat := monthLoop offset yday 12 1 - 1
  { tm_sec := (stamp % 60 : Nat)
    tm_min := tm_min
    tm_hour := (remain % 24 : Nat)
    tm_wday := ((days + 4) % 7 : Nat)
    tm_year := years
    tm_yday := yday
    tm_mon := mon
    tm_mday := yday - month.getD mon 0 + offset + 1
    tm_isdst := time.tm_isdst }

/-- `mktime`. -/
def mktime (time : Tm) : Res Nat := do
  let year := if time.tm_year ≥ 70 then time.tm_year - 70 else time.tm_year - 70 + 100
  let res := u32 (YEAR * year)
  let res := u32 (res + DAY * (year + 1).tdiv 4)
  let days ← monthAt time.tm_mon
  let res := u32 (res + days * DAY)
  let res := if time.tm_mon > 2 ∧ (year + 2).tmod 4 ≠ 0 then u32 (res - DAY) else res
  let res := u32 (res + DAY * (time.tm_mday - 1))
  let res := u32 (res + HOUR * time.tm_hour)
  let res := u32 (res + MINUTE * time.tm_min)
  return u32 (res + time.tm_sec)

/-! ## The calendar -/

/-- The leap years. -/
def Leap (year : Nat) : Prop := year % 4 = 0 ∧ (year % 100 ≠ 0 ∨ year % 400 = 0)

instance (year : Nat) : Decidable (Leap year) := inferInstanceAs (Decidable (_ ∧ _))

/-- The days of a year. -/
def yearDays (year : Nat) : Nat := if Leap year then 366 else 365

/-- The days of a month. -/
def monthDays (year : Nat) (mon : Nat) : Nat :=
  if mon = 2 then if Leap year then 29 else 28
  else if mon = 4 ∨ mon = 6 ∨ mon = 9 ∨ mon = 11 then 30
  else 31

/-- The leap years from 1970 on before the year so many years later. -/
def leapsBefore : (years : Nat) → Nat
  | 0 => 0
  | years + 1 => leapsBefore years + if Leap (1970 + years) then 1 else 0

/-- The days from 1970 on before the year so many years later. -/
def daysBefore : (years : Nat) → Nat
  | 0 => 0
  | years + 1 => daysBefore years + yearDays (1970 + years)

/-- A date and a time of the calendar. -/
structure Valid (time : Tm) : Prop where
  year : 0 ≤ time.tm_year
  mon : 1 ≤ time.tm_mon ∧ time.tm_mon ≤ 12
  mday : 1 ≤ time.tm_mday ∧
    time.tm_mday ≤ monthDays (1900 + time.tm_year.toNat) time.tm_mon.toNat
  hour : 0 ≤ time.tm_hour ∧ time.tm_hour < 24
  min : 0 ≤ time.tm_min ∧ time.tm_min < 60
  sec : 0 ≤ time.tm_sec ∧ time.tm_sec < 60

/-- The stamp comes back from its date. -/
def RoundTrips (stamp : Nat) (time : Tm) : Prop :=
  Valid (localtime stamp time) ∧ mktime (localtime stamp time) = .ok stamp

/-- The day is one of a year without a leap day, from the first of March on, and
    as many days before the end of the year as there were leap years. -/
def Regular (stamp : Nat) : Prop :=
  ∃ years yday, stamp / 86400 = daysBefore years + yday ∧ ¬ Leap (1970 + years) ∧ 59 ≤ yday ∧
    yday + leapsBefore years < 365

/-- The first second of 2070. -/
def END : Nat := daysBefore 100 * 86400

/-- The order of dates and times. -/
def Earlier (s t : Tm) : Prop :=
  s.tm_year < t.tm_year ∨ s.tm_year = t.tm_year ∧
    (s.tm_mon < t.tm_mon ∨ s.tm_mon = t.tm_mon ∧
      (s.tm_mday < t.tm_mday ∨ s.tm_mday = t.tm_mday ∧
        (s.tm_hour < t.tm_hour ∨ s.tm_hour = t.tm_hour ∧
          (s.tm_min < t.tm_min ∨ s.tm_min = t.tm_min ∧ s.tm_sec < t.tm_sec))))

/-! ## Leap years -/

variable {years stamp : Nat} {time : Tm} {offset yday : Int}

theorem leap_iff (h : years < 100) : Leap (1970 + years) ↔ (years + 2) % 4 = 0 := by
  rw [Leap]
  omega

theorem leapsBefore_eq (h : years ≤ 100) : leapsBefore years = (years + 1) / 4 := by
  induction years with
  | zero => rfl
  | succ n ih =>
      have hleap := leap_iff (show n < 100 by omega)
      rw [leapsBefore, ih (by omega)]
      by_cases hn : (n + 2) % 4 = 0
      · rw [if_pos (hleap.mpr hn)]
        omega
      · rw [if_neg fun hx => hn (hleap.mp hx)]
        omega

theorem daysBefore_eq (years : Nat) : daysBefore years = 365 * years + leapsBefore years := by
  induction years with
  | zero => rfl
  | succ n ih =>
      rw [daysBefore, leapsBefore, ih, yearDays]
      by_cases hn : Leap (1970 + n)
      · rw [if_pos hn, if_pos hn]
        omega
      · rw [if_neg hn, if_neg hn]
        omega

/-- The leap years as `localtime` tells them. -/
theorem isLeapYear_iff (h : years ≤ 100) :
    IsLeapYear ((years : Int) + 70) ↔ (years + 2) % 4 = 0 := by
  rw [IsLeapYear, Int.tmod_eq_emod_of_nonneg (by omega), Int.tmod_eq_emod_of_nonneg (by omega),
    Int.tmod_eq_emod_of_nonneg (by omega)]
  omega

/-- The leap days that `localtime` takes off. -/
theorem elapsed_eq (h : years ≤ 100) :
    elapsedLeapYears ((years : Int) + 70) = ((years + 1) / 4 : Nat) := by
  rw [elapsedLeapYears, Int.tdiv_eq_ediv_of_nonneg (by omega),
    Int.tdiv_eq_ediv_of_nonneg (by omega),
    Int.tdiv_eq_ediv_of_nonneg (by omega)]
  omega

/-! ## Months -/

/-- The days before a month, with the days of the year behind the last one. -/
def monthStart (mon : Nat) : Int := month.getD mon 0

/-- The loop goes to the first month that begins after the day. -/
theorem monthLoop_spec (offset yday : Int) (turns mon : Nat) :
    mon ≤ monthLoop offset yday turns mon ∧ monthLoop offset yday turns mon ≤ mon + turns ∧
      (∀ j, mon ≤ j → j < monthLoop offset yday turns mon → monthStart j - offset ≤ yday) ∧
      (monthLoop offset yday turns mon = mon + turns ∨
        yday < monthStart (monthLoop offset yday turns mon) - offset) := by
  induction turns generalizing mon with
  | zero => exact ⟨Nat.le_refl _, Nat.le_refl _, fun j h1 h2 => absurd h2 (Nat.not_lt.mpr h1),
    .inl rfl⟩
  | succ turns ih =>
      rw [monthLoop]
      by_cases h : month.getD mon 0 - offset > yday
      · rw [if_pos h]
        exact ⟨Nat.le_refl _, by omega, fun j h1 h2 => absurd h2 (Nat.not_lt.mpr h1), .inr h⟩
      · rw [if_neg h]
        obtain ⟨h1, h2, h3, h4⟩ := ih (mon + 1)
        refine ⟨by omega, by omega, fun j hj hlt => ?_, ?_⟩
        · rcases Nat.eq_or_lt_of_le hj with rfl | hj
          · exact Int.not_lt.mp h
          · exact h3 j hj hlt
        · rcases h4 with h4 | h4
          · exact .inl (by omega)
          · exact .inr h4

/-- The month of a day of the year. -/
structure MonthOf (offset yday : Int) (mon : Nat) : Prop where
  range : 1 ≤ mon ∧ mon ≤ 12
  begun : monthStart mon - offset ≤ yday
  lasts : mon = 12 ∨ yday < monthStart (mon + 1) - offset

theorem monthLoop_month (h0 : 0 ≤ yday) (hoff : 0 ≤ offset) :
    MonthOf offset yday (monthLoop offset yday 12 1 - 1) := by
  obtain ⟨h1, h2, h3, h4⟩ := monthLoop_spec offset yday 12 1
  have hfirst : monthLoop offset yday 12 1 ≠ 1 := by
    intro heq
    rw [heq] at h4
    rcases h4 with h4 | h4
    · omega
    · replace h4 : yday < 0 - offset := h4
      omega
  obtain ⟨m, hm⟩ : ∃ m, monthLoop offset yday 12 1 = m + 2 :=
    ⟨monthLoop offset yday 12 1 - 2, by omega⟩
  rw [hm] at h2 h3 h4 ⊢
  refine ⟨by omega, h3 (m + 1) (by omega) (by omega), ?_⟩
  rcases h4 with h4 | h4
  · exact .inl (by omega)
  · exact .inr h4

/-- The months from March on are those the loop finds for the days from the first
    of March on. -/
theorem MonthOf.march {mon : Nat} (h : MonthOf offset yday mon) : 2 < mon ↔ 60 - offset ≤ yday := by
  obtain ⟨⟨h1, h2⟩, hbegun, hlasts⟩ := h
  interval_cases mon <;> simp [monthStart, month] at hbegun hlasts ⊢ <;> omega

/-! ## The day that comes back -/

/-- The second that `mktime` computes, before it is cut to a `u32`. -/
def seconds (time : Tm) : Int :=
  let year := time.tm_year - 70
  YEAR * year + DAY * (year + 1).tdiv 4 + monthStart time.tm_mon.toNat * DAY -
      (if time.tm_mon > 2 ∧ (year + 2).tmod 4 ≠ 0 then DAY else 0) +
    DAY * (time.tm_mday - 1) + HOUR * time.tm_hour + MINUTE * time.tm_min + time.tm_sec

theorem u32_add (x y : Int) : u32 (u32 x + y) = u32 (x + y) := by
  rw [u32, u32, u32]
  omega

theorem u32_sub (x y : Int) : u32 (u32 x - y) = u32 (x - y) := by
  rw [u32, u32, u32]
  omega

theorem u32_eq {n : Nat} {x : Int} (h : x = n) (hn : n < 2 ^ 32) : u32 x = n := by
  rw [u32]
  omega

/-- `mktime` of a date from 1970 on. -/
theorem mktime_eq (hyear : 70 ≤ time.tm_year) (hmon : 1 ≤ time.tm_mon ∧ time.tm_mon ≤ 12) :
    mktime time = .ok (u32 (seconds time)) := by
  obtain ⟨m, hm⟩ : ∃ m : Nat, time.tm_mon = m := Int.eq_ofNat_of_zero_le (by omega)
  have hlen : m < month.length := by
    show m < 13
    omega
  have hmonth : monthAt time.tm_mon = .ok (monthStart m) := by
    rw [monthAt, hm, if_pos (Int.natCast_nonneg m), Int.toNat_natCast,
      List.getElem?_eq_getElem hlen,
      monthStart, List.getD_eq_getElem?_getD, List.getElem?_eq_getElem hlen, Option.getD_some]
  rw [mktime, if_pos hyear]
  show (monthAt time.tm_mon >>= _) = _
  rw [hmonth, bind_ok]
  refine congrArg Except.ok ?_
  rw [seconds, hm, Int.toNat_natCast]
  by_cases hlate : (m : Int) > 2 ∧ (time.tm_year - 70 + 2).tmod 4 ≠ 0
  · rw [if_pos hlate, if_pos hlate]
    simp only [u32_add, u32_sub]
  · rw [if_neg hlate, if_neg hlate, Int.sub_zero]
    simp only [u32_add]

/-- The date `localtime` makes of a stamp: the year so many days / 365 after 1970,
    the offset of a year without a leap day, and the day of that year. -/
structure DateOf (stamp : Nat) (time : Tm) (mon : Nat) (offset yday : Int) : Prop where
  year : time.tm_year = (stamp / 86400 / 365 : Nat) + 70
  day : (offset = 0 ∧ (stamp / 86400 / 365 + 2) % 4 = 0 ∧
      yday = ((stamp / 86400 - (stamp / 86400 / 365 + 1) / 4) % 366 : Nat)) ∨
    (offset = 1 ∧ (stamp / 86400 / 365 + 2) % 4 ≠ 0 ∧
      yday = ((stamp / 86400 - (stamp / 86400 / 365 + 1) / 4) % 365 : Nat))
  month : MonthOf offset yday mon
  begins : time.tm_mon = mon
  mday : time.tm_mday = yday - monthStart mon + offset + 1
  hour : time.tm_hour = (stamp / 3600 % 24 : Nat)
  min : time.tm_min = (stamp / 60 % 60 : Nat)
  sec : time.tm_sec = (stamp % 60 : Nat)

theorem end_eq : END = 36525 * 86400 := by decide

theorem localtime_date (h : stamp < END) (time : Tm) :
    ∃ mon offset yday, DateOf stamp (localtime stamp time) mon offset yday := by
  rw [end_eq] at h
  obtain ⟨d, hd⟩ : ∃ d, d = stamp / 86400 := ⟨_, rfl⟩
  have hdays : stamp / 3600 / 24 = d := by rw [Nat.div_div_eq_div_mul, hd]
  have hhour : stamp / 60 / 60 = stamp / 3600 := Nat.div_div_eq_div_mul ..
  have hyears : d / 365 ≤ 100 := by omega
  have helapsed := elapsed_eq hyears
  have hu32 : u32 (d - elapsedLeapYears ((d / 365 : Nat) + 70)) = d - (d / 365 + 1) / 4 :=
    u32_eq (by omega) (by omega)
  obtain ⟨offset, hoffset⟩ : ∃ offset : Int, offset =
      if IsLeapYear ((d / 365 : Nat) + 70) then 0 else 1 :=
    ⟨_, rfl⟩
  obtain ⟨yday, hyday⟩ : ∃ yday : Int,
      yday = (u32 (d - elapsedLeapYears ((d / 365 : Nat) + 70)) % (366 - offset).toNat : Nat) :=
    ⟨_, rfl⟩
  have hcases : (offset = 0 ∧ (d / 365 + 2) % 4 = 0 ∧ yday = ((d - (d / 365 + 1) / 4) % 366 : Nat)) ∨
      (offset = 1 ∧ (d / 365 + 2) % 4 ≠ 0 ∧ yday = ((d - (d / 365 + 1) / 4) % 365 : Nat)) := by
    by_cases hleap : (d / 365 + 2) % 4 = 0
    · rw [if_pos ((isLeapYear_iff hyears).mpr hleap)] at hoffset
      refine .inl ⟨hoffset, hleap, ?_⟩
      rw [hyday, hu32, hoffset]
      rfl
    · rw [if_neg fun hx => hleap ((isLeapYear_iff hyears).mp hx)] at hoffset
      refine .inr ⟨hoffset, hleap, ?_⟩
      rw [hyday, hu32, hoffset]
      rfl
  have hmonth := monthLoop_month (show 0 ≤ yday by rw [hyday]; exact Int.natCast_nonneg _)
    (show 0 ≤ offset by omega)
  have htm : localtime stamp time =
      { tm_sec := (stamp % 60 : Nat), tm_min := (stamp / 60 % 60 : Nat),
        tm_hour := (stamp / 3600 % 24 : Nat), tm_wday := ((d + 4) % 7 : Nat),
        tm_year := (d / 365 : Nat) + 70, tm_yday := yday,
        tm_mon := (monthLoop offset yday 12 1 - 1 : Nat),
        tm_mday := yday - monthStart (monthLoop offset yday 12 1 - 1) + offset + 1,
        tm_isdst := time.tm_isdst } := by
    simp only [localtime, hdays, hhour]
    rw [← hoffset, ← hyday]
    rfl
  refine ⟨monthLoop offset yday 12 1 - 1, offset, yday, ?_⟩
  rw [htm]
  exact ⟨by rw [hd], hd ▸ hcases, hmonth, rfl, rfl, rfl, rfl, rfl⟩

/-- The day that `mktime` makes of a date of `localtime`: a day of January or February
    in a year without a leap day comes back a day late. -/
def dayBack (stamp : Nat) (offset yday : Int) : Int :=
  365 * (stamp / 86400 / 365 : Nat) + ((stamp / 86400 / 365 + 1) / 4 : Nat) + yday +
    if offset = 1 ∧ yday < 59 then 1 else 0

theorem DateOf.seconds {mon : Nat} (h : DateOf stamp time mon offset yday) :
    seconds time = 86400 * dayBack stamp offset yday + (stamp % 86400 : Nat) := by
  obtain ⟨hyear, hday, hmonth, hmon, hmday, hhour, hmin, hsec⟩ := h
  have hmarch := hmonth.march
  have hrange := hmonth.range
  have hclock : 3600 * (stamp / 3600 % 24) + 60 * (stamp / 60 % 60) + stamp % 60 =
      stamp % 86400 := by
    omega
  rw [NeonixCalendar.seconds, hyear, hmon, hmday, hhour, hmin, hsec, dayBack, Int.toNat_natCast,
    Int.tdiv_eq_ediv_of_nonneg (by omega), Int.tmod_eq_emod_of_nonneg (by omega), YEAR, MINUTE, HOUR,
    DAY, HOUR, MINUTE]
  have hlate : (((mon : Int) > 2 ∧ (((stamp / 86400 / 365 : Nat) : Int) + 70 - 70 + 2) % 4 ≠ 0) ↔
      offset = 1 ∧ 59 ≤ yday) := by
    omega
  by_cases hback : offset = 1 ∧ 59 ≤ yday
  · rw [if_pos (hlate.mpr hback), if_neg (by omega)]
    omega
  · rw [if_neg (fun hx => hback (hlate.mp hx))]
    rcases hday with ⟨hoff, -, -⟩ | ⟨hoff, -, -⟩
    · rw [if_neg (by omega)]
      omega
    · rw [if_pos (by omega)]
      omega

/-- The regular stamps, in what `localtime` computes of the day. -/
theorem regular_iff (hend : stamp < END) : Regular stamp ↔
    (stamp / 86400 / 365 + 2) % 4 ≠ 0 ∧
      (stamp / 86400 / 365 + 1) / 4 + 59 ≤ stamp / 86400 % 365 := by
  rw [end_eq] at hend
  obtain ⟨d, hd⟩ : ∃ d, d = stamp / 86400 := ⟨_, rfl⟩
  have hd' : d < 36525 := by omega
  rw [Regular, ← hd]
  clear hend hd
  constructor
  · rintro ⟨years, yd, hdate, hleap, hmarch, hlast⟩
    rw [daysBefore_eq] at hdate
    have hyears : years = d / 365 := by omega
    subst hyears
    rw [leapsBefore_eq (by omega)] at hdate hlast
    rw [leap_iff (by omega)] at hleap
    exact ⟨hleap, by omega⟩
  · rintro ⟨hleap, hlate⟩
    refine ⟨d / 365, d % 365 - (d / 365 + 1) / 4, ?_, ?_, ?_, ?_⟩
    · rw [daysBefore_eq, leapsBefore_eq (by omega)]
      omega
    · rw [leap_iff (by omega)]
      exact hleap
    · omega
    · rw [leapsBefore_eq (by omega)]
      omega

/-- The day comes back where the year is no further than the stamp's, has no leap
    day, and March has begun. -/
theorem DateOf.back_iff {mon : Nat} (h : DateOf stamp time mon offset yday) (hend : stamp < END) :
    dayBack stamp offset yday = (stamp / 86400 : Nat) ↔ Regular stamp := by
  rw [regular_iff hend, dayBack]
  rw [end_eq] at hend
  have hday := h.day
  clear h
  obtain ⟨d, hd⟩ : ∃ d, d = stamp / 86400 := ⟨_, rfl⟩
  obtain ⟨y, hy⟩ : ∃ y, y = d / 365 := ⟨_, rfl⟩
  have hd' : d < 36525 := by omega
  rw [← hd, ← hy] at hday ⊢
  clear hend hd
  rcases hday with ⟨hoff, hleap, hyday⟩ | ⟨hoff, hleap, hyday⟩
  · -- the remainder by 366 is the day of the year where 366 divides the years
    rw [if_neg (by omega), Int.add_zero]
    refine iff_of_false (fun heq => ?_) fun hx => hx.1 hleap
    have hsplit := Nat.div_add_mod (d - (y + 1) / 4) 366
    have hyears : 365 * y = 366 * ((d - (y + 1) / 4) / 366) := by omega
    omega
  · by_cases hmarch : yday < 59
    · rw [if_pos ⟨hoff, hmarch⟩]
      omega
    · rw [if_neg (by omega)]
      omega

/-! ## The stamps that come back -/

/-- The date of a regular stamp is in a year without a leap day, from March on. -/
theorem DateOf.regular {mon : Nat} (h : DateOf stamp time mon offset yday) (hend : stamp < END)
    (hreg : Regular stamp) : offset = 1 ∧ 59 ≤ yday ∧ yday < 365 ∧
      365 * (stamp / 86400 / 365 : Nat) + ((stamp / 86400 / 365 + 1) / 4 : Nat) + yday =
        (stamp / 86400 : Nat) := by
  obtain ⟨hleap, hlate⟩ := (regular_iff hend).mp hreg
  have hday := h.day
  obtain ⟨d, hd⟩ : ∃ d, d = stamp / 86400 := ⟨_, rfl⟩
  rw [← hd] at hleap hlate hday ⊢
  clear hend hd h hreg
  rcases hday with ⟨-, hno, -⟩ | ⟨hoff, -, hyday⟩
  · exact absurd hno hleap
  · exact ⟨hoff, by omega⟩

/-- The days of the months from March on, by the table. -/
theorem monthDays_eq (year : Nat) {mon : Nat} (h : 2 < mon ∧ mon ≤ 12) :
    (monthDays year mon : Int) =
      (if mon = 12 then 366 else monthStart (mon + 1)) - monthStart mon := by
  obtain ⟨h3, h12⟩ := h
  interval_cases mon <;> simp [monthDays, monthStart, month]

theorem DateOf.valid {mon : Nat} (h : DateOf stamp time mon offset yday) (hend : stamp < END)
    (hreg : Regular stamp) : Valid time := by
  obtain ⟨hoff, hmarch, hlast, -⟩ := h.regular hend hreg
  have hlate := h.month.march.mpr (by omega)
  have hrange := h.month.range
  refine ⟨?_, ?_, ?_, ?_, ?_, ?_⟩
  · rw [h.year]
    omega
  · rw [h.begins]
    omega
  · rw [h.mday, h.begins, Int.toNat_natCast, hoff, monthDays_eq _ ⟨hlate, hrange.2⟩]
    have hbegun := h.month.begun
    have hends := h.month.lasts
    rw [hoff] at hbegun hends
    by_cases hmon : mon = 12
    · rw [if_pos hmon]
      omega
    · rw [if_neg hmon]
      have hnext := hends.resolve_left hmon
      omega
  · rw [h.hour]
    omega
  · rw [h.min]
    omega
  · rw [h.sec]
    omega

/-- The months begin one after the other. -/
theorem monthStart_mono {j k : Nat} (hjk : j ≤ k) (hk : k ≤ 12) : monthStart j ≤ monthStart k := by
  have hall : ∀ k ≤ 12, ∀ j ≤ k, monthStart j ≤ monthStart k := by decide
  exact hall k hk j hjk

/-- Of two regular stamps the earlier one has the earlier date. -/
theorem DateOf.earlier {stamp' : Nat} {time' : Tm} {mon mon' : Nat} {offset' yday' : Int}
    (h : DateOf stamp time mon offset yday) (h' : DateOf stamp' time' mon' offset' yday')
    (hend' : stamp' < END) (hreg : Regular stamp) (hreg' : Regular stamp') (hlt : stamp < stamp') :
    Earlier time time' := by
  obtain ⟨hoff, -, -, hdate⟩ := h.regular (Nat.lt_trans hlt hend') hreg
  obtain ⟨hoff', -, -, hdate'⟩ := h'.regular hend' hreg'
  have hdays : stamp / 86400 ≤ stamp' / 86400 := Nat.div_le_div_right (Nat.le_of_lt hlt)
  rcases Nat.lt_or_eq_of_le (Nat.div_le_div_right (c := 365) hdays) with hyear | hyear
  · left
    rw [h.year, h'.year]
    omega
  right
  refine ⟨by rw [h.year, h'.year, hyear], ?_⟩
  rw [hyear] at hdate
  obtain ⟨⟨-, h12⟩, hbegun, hends⟩ := h.month
  obtain ⟨⟨-, h12'⟩, hbegun', hends'⟩ := h'.month
  rw [h.begins, h'.begins, h.mday, h'.mday]
  rcases Nat.lt_trichotomy mon mon' with hmon | hmon | hmon
  · exact .inl (by omega)
  · subst hmon
    refine .inr ⟨rfl, ?_⟩
    rcases Nat.lt_or_eq_of_le hdays with hday | hday
    · exact .inl (by omega)
    · rw [h.hour, h'.hour, h.min, h'.min, h.sec, h'.sec]
      exact .inr ⟨by omega, by omega⟩
  · -- a later month would begin before the day and end behind it
    have hmono := monthStart_mono (show mon' + 1 ≤ mon from hmon) h12
    omega

/-- The stamps whose dates are valid and come back are the regular ones, and on
    these `localtime` keeps the order. -/
theorem calendar_round_trips (time : Tm) :
    (∀ stamp < END, RoundTrips stamp time ↔ Regular stamp) ∧
      ∀ stamp < END, ∀ stamp' < END, Regular stamp → Regular stamp' → stamp < stamp' →
        Earlier (localtime stamp time) (localtime stamp' time) := by
  refine ⟨fun stamp hend => ?_, fun stamp hend stamp' hend' hreg hreg' hlt => ?_⟩
  · obtain ⟨mon, offset, yday, hdate⟩ := localtime_date hend time
    have hyear : 70 ≤ (localtime stamp time).tm_year := by
      rw [hdate.year]
      omega
    have hmon : 1 ≤ (localtime stamp time).tm_mon ∧ (localtime stamp time).tm_mon ≤ 12 := by
      rw [hdate.begins]
      have hrange := hdate.month.range
      omega
    have hday : 0 ≤ yday ∧ yday < 366 := by
      rcases hdate.day with ⟨-, -, hyday⟩ | ⟨-, -, hyday⟩ <;> omega
    have hback : mktime (localtime stamp time) = .ok stamp ↔
        dayBack stamp offset yday = (stamp / 86400 : Nat) := by
      rw [mktime_eq hyear hmon, hdate.seconds]
      rw [end_eq] at hend
      obtain ⟨n, hn⟩ : ∃ n : Nat, dayBack stamp offset yday = n := by
        refine Int.eq_ofNat_of_zero_le ?_
        rw [dayBack]
        split <;> omega
      have hsmall : n < 37000 := by
        rw [dayBack] at hn
        split at hn <;> omega
      have hu32 : u32 (86400 * dayBack stamp offset yday + (stamp % 86400 : Nat)) =
          86400 * n + stamp % 86400 := u32_eq (by rw [hn]; omega) (by omega)
      rw [hu32, hn]
      constructor
      · intro heq
        have hstamp := Except.ok.inj heq
        omega
      · intro heq
        refine congrArg Except.ok ?_
        omega
    rw [RoundTrips, hback, hdate.back_iff hend]
    exact ⟨fun h => h.2, fun h => ⟨hdate.valid hend h, h⟩⟩
  · obtain ⟨mon, offset, yday, hdate⟩ := localtime_date hend time
    obtain ⟨mon', offset', yday', hdate'⟩ := localtime_date hend' time
    exact hdate.earlier hdate' hend' hreg hreg' hlt

/-- What `localtime` is given to fill. -/
def blank : Tm := ⟨0, 0, 0, 0, 0, 0, 0, 0, 0⟩

/-- The first of March and the first of April 1970. -/
theorem calendar_round_trips_spring :
    (RoundTrips (59 * 86400) blank ↔ Regular (59 * 86400)) ∧
      Earlier (localtime (59 * 86400) blank) (localtime (90 * 86400) blank) :=
  ⟨(calendar_round_trips blank).1 (59 * 86400) (by decide),
    (calendar_round_trips blank).2 (59 * 86400) (by decide) (90 * 86400) (by decide)
      ⟨0, 59, rfl, by decide, by decide, by decide⟩ ⟨0, 90, rfl, by decide, by decide, by decide⟩
      (by decide)⟩

/-- The last day of February 1970 gets a date that is none and comes back as the
    first of March; the last day of 1972 gets a date of 1973. -/
theorem date_lost : (localtime (58 * 86400) blank).tm_mon = 2 ∧
    (localtime (58 * 86400) blank).tm_mday = 29 ∧ ¬ RoundTrips (58 * 86400) blank ∧
    (localtime (1095 * 86400) blank).tm_year = 73 ∧ ¬ RoundTrips (1095 * 86400) blank := by
  have hmarch : mktime (localtime (58 * 86400) blank) = .ok (59 * 86400) := by decide +kernel
  have hyear : mktime (localtime (1095 * 86400) blank) = .ok (1460 * 86400) := by decide +kernel
  refine ⟨by decide +kernel, by decide +kernel, fun h => ?_, by decide +kernel, fun h => ?_⟩
  · rw [RoundTrips, hmarch] at h
    exact absurd (Except.ok.inj h.2) (by decide)
  · rw [RoundTrips, hyear] at h
    exact absurd (Except.ok.inj h.2) (by decide)

end NeonixCalendar
