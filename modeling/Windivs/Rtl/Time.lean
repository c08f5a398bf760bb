import Windivs.Lib.Blocks

/-!
# Times and calendar dates

`RtlTimeToTimeFields` and `RtlTimeFieldsToTime` of `sdk/lib/rtl/time.c`. A time is a number of
ticks of 100 ns since the first of January 1601; the fields are those of a calendar date and a time
of day.

The years are consecutive blocks of days, and so are the months of a year. One routine adds up
blocks, with a closed formula for the years; the other one looks for the block a day lies in, from
an estimate for the year on. `Windivs.RtlTime.daysSinceEpoch_eq` says that the closed formula gives
the start of a year, and `Windivs.RtlTime.timeFields_roundTrip` that the two routines are inverse
to each other.
-/

namespace Windivs

open Int64

namespace RtlTime

/-! ### The routines -/

/-- `TIME_FIELDS`, whose fields are `CSHORT`s. -/
structure TimeFields where
  year : Int16
  month : Int16
  day : Int16
  hour : Int16
  minute : Int16
  second : Int16
  milliseconds : Int16
  weekday : Int16
  deriving DecidableEq, Repr

/-- `YearLengths`. -/
def yearLengths : List ℕ := [365, 366]

/-- `MonthLengths`. -/
def monthLengths : List (List ℕ) :=
  [[31, 28, 31, 30, 31, 30, 31, 31, 30, 31, 30, 31],
    [31, 29, 31, 30, 31, 30, 31, 31, 30, 31, 30, 31]]

/-- `IsLeapYear`, with the remainders of C. -/
def isLeapYear (year : ℤ) : ℕ :=
  if year.tmod 4 = 0 ∧ (year.tmod 100 ≠ 0 ∨ year.tmod 400 = 0) then 1 else 0

/-- `DaysSinceEpoch`, with the quotients of C. No year that fits a `CSHORT`, or that is estimated
for a time, brings an `int` to its limits here. -/
def daysSinceEpoch (year : ℤ) : ℤ :=
  let year := year - 1
  let days := year * 365 + year.tdiv 4 - year.tdiv 100 + year.tdiv 400
  days - ((1601 - 1) * 365 + (1601 - 1) / 4 - (1601 - 1) / 100 + (1601 - 1) / 400)

/-- `MonthLengths[IsLeapYear(Year)]`. -/
def monthsOf (year : ℤ) : List ℕ := monthLengths.getD (isLeapYear year) []

/-- The check at the start of `RtlTimeFieldsToTime`. -/
def fieldsInvalid (f : TimeFields) : Prop :=
  f.milliseconds.toInt < 0 ∨ 999 < f.milliseconds.toInt ∨
    f.second.toInt < 0 ∨ 59 < f.second.toInt ∨
    f.minute.toInt < 0 ∨ 59 < f.minute.toInt ∨
    f.hour.toInt < 0 ∨ 23 < f.hour.toInt ∨
    f.month.toInt < 1 ∨ 12 < f.month.toInt ∨
    f.day.toInt < 1 ∨
    (monthsOf f.year.toInt).getD (f.month.toInt - 1).toNat 0 < f.day.toInt ∨
    f.year.toInt < 1601

instance : DecidablePred fieldsInvalid := fun _ => by
  unfold fieldsInvalid
  infer_instance

/-- `RtlTimeFieldsToTime`: the time, if the fields are accepted. From the year 30828 on, the
`LONGLONG` wraps. -/
def rtlTimeFieldsToTime (f : TimeFields) : Option Int64 :=
  if fieldsInvalid f then none
  else
    let time := Int64.ofInt (daysSinceEpoch f.year.toInt)
    -- for (CurMonth = 1; CurMonth < IntTimeFields.Month; CurMonth++)
    let time := (List.range (f.month.toInt - 1).toNat).foldl
      (fun time m => time + Int64.ofInt ((monthsOf f.year.toInt).getD m 0)) time
    let time := time + Int64.ofInt (f.day.toInt - 1)
    let time := time * 86400
    let time := time + Int64.ofInt (f.hour.toInt * 3600 + f.minute.toInt * 60 + f.second.toInt)
    let time := time * 10000000
    some (time + Int64.ofInt (f.milliseconds.toInt * 10000))

/-- A turn of the loop over the years: `CurYear` and `Days`. -/
def yearTurn (s : ℕ × ℕ) : Turn (ℕ × ℕ) (Run (ℕ × ℕ)) :=
  let length := yearLengths.getD (isLeapYear s.1) 0
  if s.2 < length then .leave (.ok s) else .again (s.1 + 1, s.2 - length)

/-- A turn of the loop over the months: `CurMonth` and `Days`. -/
def monthTurn (months : List ℕ) (s : ℕ × ℕ) : Turn (ℕ × ℕ) (Run (ℕ × ℕ)) :=
  match months[s.1]? with
  | none => .leave (.error .accessViolation)
  | some length => if length ≤ s.2 then .again (s.1 + 1, s.2 - length) else .leave (.ok s)

/-- `RtlTimeToTimeFields`. The time is taken as a `ULONGLONG`, and a number of days is a `ULONG`. -/
def rtlTimeToTimeFields (budget : ℕ) (time : Int64) : Run TimeFields := do
  let intTime := time.toUInt64.toNat
  let milliseconds := intTime % 10000000 / 10000
  let intTime := intTime / 10000000
  let days := intTime / 86400 % 2 ^ 32
  let secondsInDay := intTime % 86400
  let hour := secondsInDay / 3600
  let secondsInDay := secondsInDay % 3600
  let weekday := (1 + days) % 7
  let curYear := 1601 + days / 366
  let daysLeft := ((days - daysSinceEpoch curYear) % 2 ^ 32).toNat
  let (curYear, daysLeft) ← runLoop yearTurn budget (curYear, daysLeft)
  let (curMonth, daysLeft) ← runLoop (monthTurn (monthsOf curYear)) budget (0, daysLeft)
  return {
    year := .ofNat curYear
    month := .ofNat (curMonth + 1)
    day := .ofNat (daysLeft + 1)
    hour := .ofNat hour
    minute := .ofNat (secondsInDay / 60)
    second := .ofNat (secondsInDay % 60)
    milliseconds := .ofNat milliseconds
    weekday := .ofNat weekday }

/-! ### The calendar -/

/-- The days of a year. -/
def yearLength (year : ℕ) : ℕ := yearLengths.getD (isLeapYear year) 0

/-- The days of a month, counted from zero. -/
def monthLength (year month : ℕ) : ℕ := (monthsOf year).getD month 0

/-- **The number of a day**, counted from the first of January 1601: the days of the years before
its year, those of the months before its month, and those before it in its month. -/
def dayNumber (year month day : ℕ) : ℕ :=
  ∑ y ∈ Finset.Ico 1601 year, yearLength y + ∑ m ∈ Finset.range (month - 1), monthLength year m +
    (day - 1)

section

variable (year : ℕ)

theorem isLeapYear_natCast : isLeapYear year =
    if year % 4 = 0 ∧ (year % 100 ≠ 0 ∨ year % 400 = 0) then 1 else 0 := by
  rw [isLeapYear]
  congr 1
  simp only [Int.tmod_eq_emod_of_nonneg (Int.natCast_nonneg year)]
  exact propext (by omega)

theorem yearLength_eq : yearLength year =
    if year % 4 = 0 ∧ (year % 100 ≠ 0 ∨ year % 400 = 0) then 366 else 365 := by
  rw [yearLength, isLeapYear_natCast]
  split <;> rfl

/-- The quotients of C are the usual ones for years that are positive. -/
theorem daysSinceEpoch_natCast : daysSinceEpoch ((year + 1 : ℕ) : ℤ) =
    (year : ℤ) * 365 + year / 4 - year / 100 + year / 400 - 584388 := by
  simp only [daysSinceEpoch]
  norm_num

theorem daysSinceEpoch_succ {year : ℕ} (h : 1 ≤ year) :
    daysSinceEpoch ((year + 1 : ℕ) : ℤ) = daysSinceEpoch year + yearLength year := by
  obtain ⟨y, rfl⟩ : ∃ y, year = y + 1 := ⟨year - 1, by omega⟩
  rw [daysSinceEpoch_natCast, daysSinceEpoch_natCast, yearLength_eq]
  split <;> push_cast <;> omega

/-- **The closed formula** gives the number of days between the starts of two years. -/
theorem daysSinceEpoch_eq {year : ℕ} (h : 1601 ≤ year) :
    blockStart yearLength 1601 + daysSinceEpoch year = blockStart yearLength year := by
  induction year, h using Nat.le_induction with
  | base =>
    have hzero : daysSinceEpoch (1601 : ℕ) = 0 := by decide
    rw [hzero, add_zero]
  | succ year h ih =>
    rw [daysSinceEpoch_succ (by omega), ← add_assoc, ih, blockStart_succ, Nat.cast_add]

theorem yearLength_ge : 365 ≤ yearLength year := by
  rw [yearLength_eq]
  split <;> omega

theorem yearLength_le : yearLength year ≤ 366 := by
  rw [yearLength_eq]
  split <;> omega

/-- A year ends with its twelfth month. -/
theorem blockStart_monthLength : blockStart (monthLength year) 12 = yearLength year := by
  have hleap : isLeapYear year = 0 ∨ isLeapYear year = 1 := by
    rw [isLeapYear_natCast]
    split <;> simp
  unfold monthLength monthsOf yearLength
  rcases hleap with h | h <;> rw [h] <;> rfl

theorem length_monthsOf : (monthsOf year).length = 12 := by
  rw [monthsOf, isLeapYear_natCast]
  split <;> rfl

end

theorem dayNumber_eq {year : ℕ} (h : 1601 ≤ year) (month day : ℕ) :
    blockStart yearLength 1601 + dayNumber year month day =
      blockStart yearLength year + blockStart (monthLength year) (month - 1) + (day - 1) := by
  have hyears := Finset.sum_Ico_consecutive yearLength (Nat.zero_le 1601) h
  rw [Nat.Ico_zero_eq_range, Nat.Ico_zero_eq_range] at hyears
  rw [dayNumber, ← Nat.add_assoc, ← Nat.add_assoc, blockStart, blockStart, blockStart, hyears]

/-! ### The loops -/

theorem yearTurn_eq (y d : ℕ) : yearTurn (y, d) =
    if d < yearLength y then .leave (.ok (y, d)) else .again (y + 1, d - yearLength y) := rfl

theorem monthTurn_eq {year m : ℕ} (hm : m < 12) (d : ℕ) : monthTurn (monthsOf year) (m, d) =
    if monthLength year m ≤ d then .again (m + 1, d - monthLength year m)
    else .leave (.ok (m, d)) := by
  have hget : (monthsOf year)[m]? = some (monthLength year m) := by
    rw [monthLength, List.getD_eq_getElem?_getD,
      List.getElem?_eq_getElem (by rw [length_monthsOf]; exact hm), Option.getD_some]
  rw [monthTurn, hget]

/-- **The loop over the years** finds the year of a day. -/
theorem runLoop_yearTurn {d year r cur q n : ℕ} (h : InBlock yearLength d year r)
    (hd : d = blockStart yearLength cur + q) (hn : year < cur + n) :
    runLoop yearTurn n (cur, q) = .ok (year, r) := by
  refine runLoop_scan h (fun j q hj hq => ?_) ?_ hd hn
  · rw [yearTurn_eq, if_neg (by omega)]
  · rw [yearTurn_eq, if_pos h.lt]

/-- **The loop over the months** finds the month of a day of the year. -/
theorem runLoop_monthTurn {year d m r n : ℕ} (h : InBlock (monthLength year) d m r) (hm : m < 12)
    (hn : 12 ≤ n) : runLoop (monthTurn (monthsOf year)) n (0, d) = .ok (m, r) := by
  have hr := h.lt
  refine runLoop_scan h (fun j q hj hq => ?_) ?_ (by simp) (by omega)
  · rw [monthTurn_eq (by omega), if_pos hq]
  · rw [monthTurn_eq hm, if_neg (by omega)]

/-- The estimate of the year is not too high. -/
theorem blockStart_estimate_le (days : ℕ) :
    blockStart yearLength (1601 + days / 366) ≤ blockStart yearLength 1601 + days := by
  have hle := blockStart_add_le yearLength_le 1601 (days / 366)
  omega

/-- The days that are left from the estimated year on. -/
theorem daysLeft_eq {days : ℕ} (hdays : days < 2 ^ 32) :
    blockStart yearLength 1601 + days = blockStart yearLength (1601 + days / 366) +
      ((days - daysSinceEpoch ((1601 + days / 366 : ℕ) : ℤ)) % 2 ^ 32).toNat := by
  have hest := blockStart_estimate_le days
  have heq := daysSinceEpoch_eq (show 1601 ≤ 1601 + days / 366 by omega)
  have hmono := blockStart_mono yearLength (show 1601 ≤ 1601 + days / 366 by omega)
  omega

/-! ### Moments -/

/-- **A moment of the calendar**: a date from 1601 on, and a time of day up to the millisecond. -/
structure Moment where
  year : ℕ
  month : ℕ
  day : ℕ
  hour : ℕ
  minute : ℕ
  second : ℕ
  milliseconds : ℕ
  year_ge : 1601 ≤ year
  year_lt : year < 2 ^ 15
  month_ge : 1 ≤ month
  month_le : month ≤ 12
  day_ge : 1 ≤ day
  day_le : day ≤ monthLength year (month - 1)
  hour_lt : hour < 24
  minute_lt : minute < 60
  second_lt : second < 60
  milliseconds_lt : milliseconds < 1000

namespace Moment

/-- The number of the day. -/
def days (c : Moment) : ℕ := dayNumber c.year c.month c.day

/-- The ticks since the first of January 1601. -/
def ticks (c : Moment) : ℕ :=
  ((c.days * 86400 + (c.hour * 3600 + c.minute * 60 + c.second)) * 1000 + c.milliseconds) * 10000

/-- The fields of a moment. The first of January 1601 was a Monday. -/
def fields (c : Moment) : TimeFields where
  year := .ofNat c.year
  month := .ofNat c.month
  day := .ofNat c.day
  hour := .ofNat c.hour
  minute := .ofNat c.minute
  second := .ofNat c.second
  milliseconds := .ofNat c.milliseconds
  weekday := .ofNat ((1 + c.days) % 7)

variable (c : Moment)

theorem inBlock_month :
    InBlock (monthLength c.year) (blockStart (monthLength c.year) (c.month - 1) + (c.day - 1))
      (c.month - 1) (c.day - 1) := by
  have hday := c.day_ge
  have hday' := c.day_le
  exact ⟨rfl, by omega⟩

theorem inBlock_year :
    InBlock yearLength (blockStart yearLength 1601 + c.days) c.year
      (blockStart (monthLength c.year) (c.month - 1) + (c.day - 1)) := by
  refine ⟨by rw [days, dayNumber_eq c.year_ge, Nat.add_assoc], ?_⟩
  have hlt := c.inBlock_month.lt
  have hmono := blockStart_mono (monthLength c.year)
    (show c.month - 1 + 1 ≤ 12 by have := c.month_ge; have := c.month_le; omega)
  rw [blockStart_succ, blockStart_monthLength] at hmono
  omega

theorem days_lt : c.days < 11500000 := by
  have hblock := c.inBlock_year
  have hlen := yearLength_le c.year
  have hyears := blockStart_add_le yearLength_le 1601 (c.year - 1601)
  have hge := c.year_ge
  have hlt := c.year_lt
  have heq := hblock.eq
  have hr := hblock.lt
  rw [Nat.add_sub_cancel' hge] at hyears
  omega

end Moment

/-- **Every day from 1601 on has a date.** -/
theorem exists_date (days : ℕ) : ∃ year month day, 1601 ≤ year ∧ year ≤ 1601 + days / 365 ∧
    1 ≤ month ∧ month ≤ 12 ∧ 1 ≤ day ∧ day ≤ monthLength year (month - 1) ∧
    dayNumber year month day = days := by
  have hge := le_blockStart_add yearLength_ge 1601 (days + 1)
  obtain ⟨year, r, -, hyear⟩ :=
    exists_inBlock (show blockStart yearLength 1601 + days < blockStart yearLength (1601 + (days + 1))
      by omega)
  have hyear_ge : 1601 ≤ year := hyear.le_of_start_le (by omega)
  have hyear_le : blockStart yearLength 1601 + (year - 1601) * 365 ≤ blockStart yearLength year := by
    have := le_blockStart_add yearLength_ge 1601 (year - 1601)
    rwa [Nat.add_sub_cancel' hyear_ge] at this
  have heq := hyear.eq
  obtain ⟨m, d, hm, hmonth⟩ :=
    exists_inBlock (show r < blockStart (monthLength year) 12 by
      rw [blockStart_monthLength]; exact hyear.lt)
  have hday := hmonth.lt
  have hr := hmonth.eq
  refine ⟨year, m + 1, d + 1, hyear_ge, by omega, by omega, by omega, by omega, by simpa using hday, ?_⟩
  have hnumber := dayNumber_eq hyear_ge (m + 1) (d + 1)
  simp only [Nat.add_sub_cancel] at hnumber
  omega

/-- **Every time is a moment**, and less than a millisecond. -/
theorem exists_moment {t : ℕ} (ht : t < 2 ^ 63) : ∃ c : Moment, t = c.ticks + t % 10000 := by
  obtain ⟨year, month, day, hyear, hyear', hmonth, hmonth', hday, hday', hdays⟩ :=
    exists_date (t / 864000000000)
  refine ⟨⟨year, month, day, t / 36000000000 % 24, t / 600000000 % 60, t / 10000000 % 60,
    t / 10000 % 1000, hyear, by omega, hmonth, hmonth', hday, hday', Nat.mod_lt _ (by omega),
    Nat.mod_lt _ (by omega), Nat.mod_lt _ (by omega), Nat.mod_lt _ (by omega)⟩, ?_⟩
  simp only [Moment.ticks, Moment.days, hdays]
  omega

/-! ### The two routines -/

/-- The seven fields that say which moment is meant. -/
structure TimeFields.SameMoment (f g : TimeFields) : Prop where
  year : f.year = g.year
  month : f.month = g.month
  day : f.day = g.day
  hour : f.hour = g.hour
  minute : f.minute = g.minute
  second : f.second = g.second
  milliseconds : f.milliseconds = g.milliseconds

/-- The months are added up one by one. -/
theorem foldl_months (year : ℕ) (a : ℤ) (k : ℕ) :
    (List.range k).foldl (fun time m => time + ofInt ((monthsOf year).getD m 0))
      (ofInt a) = ofInt (a + blockStart (monthLength year) k) := by
  induction k with
  | zero => simp
  | succ k ih =>
    rw [List.range_succ, List.foldl_append, ih, List.foldl_cons, List.foldl_nil, ← ofInt_add,
      blockStart_succ, monthLength]
    push_cast
    rw [add_assoc]

namespace Moment

variable (c : Moment)

theorem day_le_yearLength : c.day ≤ 366 := by
  have hlt := c.inBlock_year.lt
  have hlen := yearLength_le c.year
  omega

theorem toInt_year : c.fields.year.toInt = c.year := Int16.toInt_ofNat_of_lt c.year_lt

theorem toInt_month : c.fields.month.toInt = c.month :=
  Int16.toInt_ofNat_of_lt (by have := c.month_le; omega)

theorem toInt_day : c.fields.day.toInt = c.day :=
  Int16.toInt_ofNat_of_lt (by have := c.day_le_yearLength; omega)

theorem toInt_hour : c.fields.hour.toInt = c.hour :=
  Int16.toInt_ofNat_of_lt (by have := c.hour_lt; omega)

theorem toInt_minute : c.fields.minute.toInt = c.minute :=
  Int16.toInt_ofNat_of_lt (by have := c.minute_lt; omega)

theorem toInt_second : c.fields.second.toInt = c.second :=
  Int16.toInt_ofNat_of_lt (by have := c.second_lt; omega)

theorem toInt_milliseconds : c.fields.milliseconds.toInt = c.milliseconds :=
  Int16.toInt_ofNat_of_lt (by have := c.milliseconds_lt; omega)

/-- The fields of a moment are accepted. -/
theorem not_fieldsInvalid {f : TimeFields} (h : f.SameMoment c.fields) : ¬ fieldsInvalid f := by
  have hmonth := c.month_ge
  have hday := c.day_le
  rw [monthLength] at hday
  rw [fieldsInvalid, h.year, h.month, h.day, h.hour, h.minute, h.second, h.milliseconds, toInt_year,
    toInt_month, toInt_day, toInt_hour, toInt_minute, toInt_second, toInt_milliseconds,
    show ((c.month : ℤ) - 1).toNat = c.month - 1 by omega]
  have := c.year_ge
  have := c.month_le
  have := c.day_ge
  have := c.hour_lt
  have := c.minute_lt
  have := c.second_lt
  have := c.milliseconds_lt
  omega

/-- **`RtlTimeFieldsToTime` of a moment** is its number of ticks. -/
theorem rtlTimeFieldsToTime_eq {f : TimeFields} (h : f.SameMoment c.fields) :
    rtlTimeFieldsToTime f = some (ofInt c.ticks) := by
  have hyears := daysSinceEpoch_eq c.year_ge
  have hnumber := dayNumber_eq c.year_ge c.month c.day
  have hday := c.day_ge
  rw [rtlTimeFieldsToTime, if_neg (c.not_fieldsInvalid h), h.year, h.month, h.day, h.hour, h.minute,
    h.second, h.milliseconds, toInt_year, toInt_month, toInt_day, toInt_hour, toInt_minute,
    toInt_second, toInt_milliseconds]
  dsimp only
  rw [foldl_months, show ((c.month : ℤ) - 1).toNat = c.month - 1 by omega]
  rw [show (86400 : Int64) = ofInt 86400 from rfl,
    show (10000000 : Int64) = ofInt 10000000 from rfl]
  simp only [← ofInt_add, ← ofInt_mul]
  congr 2
  rw [ticks, days]
  omega

/-- The estimate of the year is at most 99 years behind. -/
theorem year_lt_estimate : c.year < 1601 + c.days / 366 + 100 := by
  have hge := c.year_ge
  have hlt := c.days_lt
  have heq := c.inBlock_year.eq
  have hyears := le_blockStart_add yearLength_ge 1601 (c.year - 1601)
  rw [Nat.add_sub_cancel' hge] at hyears
  omega

/-- **`RtlTimeToTimeFields` of a time** within a moment gives the fields of the moment. -/
theorem rtlTimeToTimeFields_eq {time : Int64} {rest : ℕ} (hrest : rest < 10000)
    (h : time.toUInt64.toNat = c.ticks + rest) {budget : ℕ} (hbudget : 100 ≤ budget) :
    rtlTimeToTimeFields budget time = .ok c.fields := by
  have hdays := c.days_lt
  have hour := c.hour_lt
  have hminute := c.minute_lt
  have hsecond := c.second_lt
  have hms := c.milliseconds_lt
  have hmonth := c.month_ge
  have hmonth' := c.month_le
  have hday := c.day_ge
  have hestimate := c.year_lt_estimate
  rw [ticks] at h
  rw [rtlTimeToTimeFields]
  dsimp only
  rw [h, show (((c.days * 86400 + (c.hour * 3600 + c.minute * 60 + c.second)) * 1000 +
      c.milliseconds) * 10000 + rest) / 10000000 =
      c.days * 86400 + (c.hour * 3600 + c.minute * 60 + c.second) by omega]
  rw [show (c.days * 86400 + (c.hour * 3600 + c.minute * 60 + c.second)) / 86400 % 2 ^ 32 =
      c.days by omega]
  rw [runLoop_yearTurn c.inBlock_year (daysLeft_eq (by omega)) (by omega)]
  show (runLoop (monthTurn (monthsOf c.year)) budget _ >>= fun _ => _) = _
  rw [runLoop_monthTurn c.inBlock_month (by omega) (by omega)]
  refine congrArg Except.ok ((TimeFields.mk.injEq ..).mpr ⟨rfl, ?_, ?_, ?_, ?_, ?_, ?_, rfl⟩)
  all_goals exact congrArg Int16.ofNat (by omega)

end Moment

/-- **What is accepted is a moment.** -/
theorem exists_moment_of_fields {f : TimeFields} (h : ¬ fieldsInvalid f) :
    ∃ c : Moment, f.SameMoment c.fields := by
  simp only [fieldsInvalid, not_or, not_lt] at h
  obtain ⟨hms, hms', hs, hs', hmin, hmin', hh, hh', hmon, hmon', hd, hd', hy⟩ := h
  have hy' := f.year.toInt_lt
  have hcast : ((f.year.toInt.toNat : ℕ) : ℤ) = f.year.toInt := Int.toNat_of_nonneg (by omega)
  have hback : ∀ x : Int16, 0 ≤ x.toInt → x = Int16.ofNat x.toInt.toNat := fun x hx => by
    have hlt := x.toInt_lt
    rw [← Int16.toInt_inj, Int16.toInt_ofNat_of_lt (by omega), Int.toNat_of_nonneg hx]
  refine ⟨⟨f.year.toInt.toNat, f.month.toInt.toNat, f.day.toInt.toNat, f.hour.toInt.toNat,
    f.minute.toInt.toNat, f.second.toInt.toNat, f.milliseconds.toInt.toNat, by omega, by omega,
    by omega, by omega, by omega, ?_, by omega, by omega, by omega, by omega⟩,
    hback _ (by omega), hback _ (by omega), hback _ (by omega), hback _ hh, hback _ hmin,
    hback _ hs, hback _ hms⟩
  rw [monthLength, hcast, show f.month.toInt.toNat - 1 = (f.month.toInt - 1).toNat by omega]
  omega

/-- A `LONGLONG` as a `ULONGLONG`. -/
theorem toNat_toUInt64 (t : Int64) : (t.toUInt64.toNat : ℤ) = t.toInt % 2 ^ 64 := by
  have hbmod : t.toInt = (t.toUInt64.toNat : ℤ).bmod (2 ^ 64) := BitVec.toInt_eq_toNat_bmod _
  have hlt := t.toUInt64.toNat_lt
  have hmod : ((t.toUInt64.toNat : ℤ).bmod (2 ^ 64)) % ((2 ^ 64 : ℕ) : ℤ) =
      (t.toUInt64.toNat : ℤ) % ((2 ^ 64 : ℕ) : ℤ) := Int.bmod_emod
  omega

/-- **The two routines are inverse to each other.** A time has fields, with the weekday of its day,
and the fields give the time back, up to the millisecond. Fields that are accepted give a time whose
fields they are. -/
theorem timeFields_roundTrip :
    (∀ t : Int64, 0 ≤ t.toInt → ∃ f : TimeFields,
      (∀ budget, 100 ≤ budget → rtlTimeToTimeFields budget t = .ok f) ∧
      f.weekday.toInt =
        (1 + dayNumber f.year.toInt.toNat f.month.toInt.toNat f.day.toInt.toNat) % 7 ∧
      ∃ t', rtlTimeFieldsToTime f = some t' ∧ t'.toInt = t.toInt - t.toInt % 10000) ∧
    ∀ (f : TimeFields) (t : Int64), rtlTimeFieldsToTime f = some t → ∃ g : TimeFields,
      (∀ budget, 100 ≤ budget → rtlTimeToTimeFields budget t = .ok g) ∧ f.SameMoment g := by
  constructor
  · intro t ht
    have hlt := t.toInt_lt
    have hnat : t.toUInt64.toNat = t.toInt.toNat := by
      have hmod := toNat_toUInt64 t
      omega
    obtain ⟨c, hc⟩ := exists_moment (show t.toInt.toNat < 2 ^ 63 by omega)
    refine ⟨c.fields, fun budget hbudget => ?_, ?_, ofInt c.ticks,
      c.rtlTimeFieldsToTime_eq ⟨rfl, rfl, rfl, rfl, rfl, rfl, rfl⟩, ?_⟩
    · exact c.rtlTimeToTimeFields_eq (Nat.mod_lt _ (by omega)) (hnat.trans hc) hbudget
    · rw [c.toInt_year, c.toInt_month, c.toInt_day]
      refine (Int16.toInt_ofNat_of_lt (by omega)).trans ?_
      rfl
    · rw [toInt_ofInt_of_le (by omega) (by omega)]
      omega
  · intro f t h
    have hvalid : ¬ fieldsInvalid f := fun hinvalid => by
      rw [rtlTimeFieldsToTime, if_pos hinvalid] at h
      cases h
    obtain ⟨c, hc⟩ := exists_moment_of_fields hvalid
    rw [c.rtlTimeFieldsToTime_eq hc, Option.some_inj] at h
    refine ⟨c.fields, fun budget hbudget => ?_, hc⟩
    have hlt : c.ticks < 2 ^ 64 := by
      have := c.days_lt
      have := c.hour_lt
      have := c.minute_lt
      have := c.second_lt
      have := c.milliseconds_lt
      rw [Moment.ticks]
      omega
    have hnat : t.toUInt64.toNat = c.ticks + 0 := by
      have hmod := toNat_toUInt64 t
      have hbmod : ((c.ticks : ℤ).bmod size) % ((size : ℕ) : ℤ) =
          (c.ticks : ℤ) % ((size : ℕ) : ℤ) := Int.bmod_emod
      rw [show size = 2 ^ 64 from rfl] at hbmod
      rw [← h, toInt_ofInt, show size = 2 ^ 64 from rfl] at hmod
      rw [← h]
      omega
    exact c.rtlTimeToTimeFields_eq (by omega) hnat hbudget

/-- 12:34:56.789 on the twenty-ninth of February 2000. -/
def leapDay : TimeFields := ⟨2000, 2, 29, 12, 34, 56, 789, 2⟩

/-- A tick within a millisecond of a leap day, and the millisecond. -/
theorem timeFields_roundTrip_leapDay :
    (0 ≤ (125963012967891234 : Int64).toInt ∧ ∃ f : TimeFields,
      (∀ budget, 100 ≤ budget → rtlTimeToTimeFields budget 125963012967891234 = .ok f) ∧
      f.weekday.toInt =
        (1 + dayNumber f.year.toInt.toNat f.month.toInt.toNat f.day.toInt.toNat) % 7 ∧
      ∃ t', rtlTimeFieldsToTime f = some t' ∧ t'.toInt =
        (125963012967891234 : Int64).toInt - (125963012967891234 : Int64).toInt % 10000) ∧
    rtlTimeFieldsToTime leapDay = some 125963012967890000 ∧ ∃ g : TimeFields,
      (∀ budget, 100 ≤ budget → rtlTimeToTimeFields budget 125963012967890000 = .ok g) ∧
        leapDay.SameMoment g := by
  have hleap : rtlTimeFieldsToTime leapDay = some 125963012967890000 := by decide
  exact ⟨⟨by decide, timeFields_roundTrip.1 125963012967891234 (by decide)⟩, hleap,
    timeFields_roundTrip.2 leapDay 125963012967890000 hleap⟩

end RtlTime

end Windivs
