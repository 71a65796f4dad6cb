import StockMarket.Lib.Printf
import StockMarket.Sql.Dates

/-!
The numbers of a civil time and their text (`Src_SQL/utility.cpp`).

`get_date_time` and `get_daily_time` add up in an `int`, as the fields of a `struct tm` are, and
`two_times_to_string` takes the sums apart again. Days count from 1 and there are as many of
them as the radix is, so the numbers keep the order of civil times, as those of the loader
(`Data/enter_in_database.py`) do, until the date no longer fits in an `int`
(`order_kept_iff`). But the remainder that should be the 31st is 0: `two_times_to_string`
takes that day for one before the 1st of the next month (`prints_back_iff`).
-/

namespace StockMarket.Sql

/-! ### Integers of 32 bits -/

/-- The value that an `int` keeps of an integer. -/
def wrap32 (x : Int) : Int :=
  x.bmod (2 ^ 32)

/-- The integer is a value of the type. -/
def FitsInt32 (x : Int) : Prop :=
  -2 ^ 31 ≤ x ∧ x < 2 ^ 31

instance (x : Int) : Decidable (FitsInt32 x) := by
  unfold FitsInt32
  infer_instance

theorem fitsInt32_wrap32 (x : Int) : FitsInt32 (wrap32 x) :=
  ⟨Int.le_bmod (by decide), Int.bmod_lt (by decide)⟩

theorem wrap32_of_fits {x : Int} (fits : FitsInt32 x) : wrap32 x = x :=
  Int.bmod_eq_of_le (by have := fits.1; omega) (by have := fits.2; omega)

/-- What is lost is a multiple of `2 ^ 32`. -/
theorem exists_wrap32 (x : Int) : ∃ k, wrap32 x = x - 2 ^ 32 * k :=
  ⟨_, Int.bmod_eq_self_sub_mul_bdiv x (2 ^ 32)⟩

/-! ### The functions -/

section

variable (localtime : Int → Tm) (timeMs : Int)

/-- `get_daily_time`, with its sum in an `int`. -/
def getDailyTime32 : ID := wrap32 (getDailyTime localtime timeMs)

/-- `get_date_time`, with its sum in an `int`. -/
def getDateTime32 : ID := wrap32 (getDateTime localtime timeMs)

/-- `%04d-%02d-%02d` and a blank. -/
def dateChars (year month day : Int) : List Char :=
  zeroPadded 4 year ++ '-' :: (zeroPadded 2 month ++ '-' :: (zeroPadded 2 day ++ [' ']))

/-- `%02d:%02d:%02d.%03d`. -/
def timeChars (hours minutes seconds milliseconds : Int) : List Char :=
  zeroPadded 2 hours ++ ':' :: (zeroPadded 2 minutes ++ ':' :: (zeroPadded 2 seconds ++
    '.' :: zeroPadded 3 milliseconds))

/-- What the two functions below write to their `buffer`. -/
def bufferText (year month day hours minutes seconds milliseconds : Int) : String :=
  snprintf 32 (dateChars year month day ++ timeChars hours minutes seconds milliseconds)

/-- `time_to_string`. -/
def timeToString : String :=
  let milliseconds := timeMs.tmod 1000
  let nowTm := localtime (timeMs.tdiv 1000)
  bufferText (wrap32 (nowTm.tmYear + 1900)) (wrap32 (nowTm.tmMon + 1)) nowTm.tmMday
    nowTm.tmHour nowTm.tmMin nowTm.tmSec milliseconds

end

/-- `two_times_to_string`. The quotients of the hours and the year are made `int`s. -/
def twoTimesToString (dateTime dailyTime : ID) : String :=
  let hours := wrap32 (dailyTime.tdiv 3600000)
  let dailyTime := dailyTime.tmod 3600000
  let minutes := dailyTime.tdiv 60000
  let dailyTime := dailyTime.tmod 60000
  let seconds := dailyTime.tdiv 1000
  let milliseconds := dailyTime.tmod 1000
  let year := wrap32 (dateTime.tdiv (31 * 12))
  let dateTime := dateTime.tmod (31 * 12)
  let month := dateTime.tdiv 31
  let day := dateTime.tmod 31
  bufferText (wrap32 (year + 1900)) (month + 1) day hours minutes seconds milliseconds

/-- `encode_date_time` of the loader, whose integers have no bound. -/
def encodeDateTime (year month day : Int) : Int :=
  let tmYear := year - 1900
  let tmMon := month - 1
  day + 31 * (tmMon + 12 * tmYear)

example : twoTimesToString 46580 36000000 = "2025-03-18 10:00:00.000" := by decide +kernel

/-! ### The text of a date -/

section

variable {year month day year' month' day' hours minutes seconds milliseconds hours' minutes'
  seconds' milliseconds' : Int}

/-- The date is read off its text. -/
theorem dateChars_append_inj {rest rest' : List Char}
    (same : dateChars year month day ++ rest = dateChars year' month' day' ++ rest') :
    year = year' ∧ month = month' ∧ day = day' := by
  simp only [dateChars, List.append_assoc, List.cons_append] at same
  obtain ⟨years, same⟩ := zeroPadded_append_inj (by decide) same
  obtain ⟨months, same⟩ := zeroPadded_append_inj (by decide) same
  obtain ⟨days, -⟩ := zeroPadded_append_inj (by decide) same
  exact ⟨years, months, days⟩

theorem length_dateChars_le (fits : FitsInt32 year) (few : month.natAbs < 100)
    (few' : day.natAbs < 100) : (dateChars year month day).length ≤ 31 := by
  obtain ⟨low, high⟩ := fits
  have years := length_zeroPadded_le (by decide : 4 ≤ 10) (by decide)
    (by omega : year.natAbs < 10 ^ 10)
  have months := length_zeroPadded_le (by decide : 2 ≤ 2) (by decide) (n := month) few
  have days := length_zeroPadded_le (by decide : 2 ≤ 2) (by decide) (n := day) few'
  simp only [dateChars, List.length_append, List.length_cons, List.length_nil]
  omega

/-- **The buffer holds the date**, so equal texts have equal dates. -/
theorem bufferText_inj (fits : FitsInt32 year) (few : month.natAbs < 100)
    (few' : day.natAbs < 100) (fits' : FitsInt32 year') (months : month'.natAbs < 100)
    (days : day'.natAbs < 100)
    (same : bufferText year month day hours minutes seconds milliseconds
      = bufferText year' month' day' hours' minutes' seconds' milliseconds') :
    year = year' ∧ month = month' ∧ day = day' := by
  have chars := String.ofList_injective same
  rw [List.take_append, List.take_append,
    List.take_of_length_le (length_dateChars_le fits few few'),
    List.take_of_length_le (length_dateChars_le fits' months days)] at chars
  exact dateChars_append_inj chars

end

/-- The quotients and remainders of a date make up its number. -/
theorem date_parts (n : Int) :
    31 * 12 * n.tdiv (31 * 12) + n.tmod (31 * 12) = n ∧
      31 * (n.tmod (31 * 12)).tdiv 31 + (n.tmod (31 * 12)).tmod 31 = n.tmod (31 * 12) ∧
      (-372 < n.tmod (31 * 12) ∧ n.tmod (31 * 12) < 372) ∧
      -31 < (n.tmod (31 * 12)).tmod 31 ∧ (n.tmod (31 * 12)).tmod 31 < 31 := by
  refine ⟨Int.mul_tdiv_add_tmod _ _, Int.mul_tdiv_add_tmod _ _, ⟨?_, ?_⟩, ?_, ?_⟩
  · exact Int.lt_tmod_of_pos n (by decide)
  · exact Int.tmod_lt_of_pos n (by decide)
  · exact Int.lt_tmod_of_pos _ (by decide)
  · exact Int.tmod_lt_of_pos _ (by decide)

/-- The year of a number that fits is an `int`, and so it is after 1900 is added. -/
theorem wrap32_year {n : Int} (fits : FitsInt32 n) :
    FitsInt32 (n.tdiv (31 * 12) + 1900) ∧
      wrap32 (wrap32 (n.tdiv (31 * 12)) + 1900) = n.tdiv (31 * 12) + 1900 := by
  obtain ⟨whole, -, ⟨low, high⟩, -⟩ := date_parts n
  obtain ⟨low', high'⟩ := fits
  have year : FitsInt32 (n.tdiv (31 * 12)) := ⟨by omega, by omega⟩
  have year' : FitsInt32 (n.tdiv (31 * 12) + 1900) := ⟨by omega, by omega⟩
  exact ⟨year', by rw [wrap32_of_fits year, wrap32_of_fits year']⟩

/-- **The text has the date**, if its number fits. -/
theorem twoTimesToString_inj {date date' daily daily' : Int} (fits : FitsInt32 date)
    (fits' : FitsInt32 date') (same : twoTimesToString date daily = twoTimesToString date' daily') :
    date = date' := by
  obtain ⟨whole, rest, bounds, days⟩ := date_parts date
  obtain ⟨whole', rest', bounds', days'⟩ := date_parts date'
  obtain ⟨year, wrapped⟩ := wrap32_year fits
  obtain ⟨year', wrapped'⟩ := wrap32_year fits'
  simp only [twoTimesToString, wrapped, wrapped'] at same
  obtain ⟨years, months, dates⟩ :=
    bufferText_inj year (by omega) (by omega) year' (by omega) (by omega) same
  omega

/-! ### Civil times -/

/-- A civil time from 1900 on. -/
structure CivilTime extends LocalTime where
  year_ge : 1900 ≤ year := by decide

/-- The number that the loader gives its date. -/
def CivilTime.number (c : CivilTime) : Int := encodeDateTime c.year c.month c.day

section

variable {localtime : Int → Tm} {timeMs timeMs' : Int} {c c' : CivilTime}

theorem CivilTime.number_eq (c : CivilTime) :
    c.number = c.dateNumber - 31 * (12 * 1900 + 1) := by
  simp only [number, encodeDateTime, LocalTime.dateNumber]
  omega

theorem CivilTime.number_pos (c : CivilTime) : 0 < c.number := by
  have := c.year_ge; have := c.month_pos; have := c.day_pos
  simp only [number, encodeDateTime]
  omega

/-- The clock has the loader's number, in an `int`. -/
theorem getDateTime32_of_shows (shows : c.Shows localtime timeMs) :
    getDateTime32 localtime timeMs = wrap32 c.number := by
  rw [getDateTime32, shows.getDateTime, c.number_eq]

/-- The time of a day always fits. -/
theorem getDailyTime32_of_shows (shows : c.Shows localtime timeMs) :
    getDailyTime32 localtime timeMs = c.dailyNumber := by
  have := c.hour_lt; have := c.minute_lt; have := c.second_lt; have := c.millisecond_lt
  rw [getDailyTime32, shows.getDailyTime]
  refine wrap32_of_fits ?_
  simp only [FitsInt32, LocalTime.dailyNumber]
  omega

/-- The text of a civil time, whose year `time_to_string` adds up in an `int`. -/
theorem timeToString_of_shows (shows : c.Shows localtime timeMs) :
    timeToString localtime timeMs
      = bufferText (wrap32 c.year) c.month c.day c.hour c.minute c.second c.millisecond := by
  have month : wrap32 c.month = c.month := by
    have := c.month_le
    exact wrap32_of_fits ⟨by omega, by omega⟩
  simp only [timeToString, shows.fields, shows.millisecond, Int.sub_add_cancel, month]

/-- The text of a time of day and a date. -/
theorem twoTimesToString_dailyNumber (dateTime : ID) (c : CivilTime) :
    twoTimesToString dateTime c.dailyNumber
      = bufferText (wrap32 (wrap32 (dateTime.tdiv (31 * 12)) + 1900))
          ((dateTime.tmod (31 * 12)).tdiv 31 + 1) ((dateTime.tmod (31 * 12)).tmod 31)
          c.hour c.minute c.second c.millisecond := by
  have := c.hour_lt; have := c.minute_lt; have := c.second_lt; have := c.millisecond_lt
  have number : c.dailyNumber
      = c.millisecond + 1000 * (c.second + 60 * (c.minute + 60 * c.hour)) := rfl
  have whole := Int.tmod_eq_emod_of_nonneg (a := c.dailyNumber) (b := 3600000) (by omega)
  have rest := Int.tmod_eq_emod_of_nonneg (a := c.dailyNumber % 3600000) (b := 60000) (by omega)
  have hours : c.dailyNumber.tdiv 3600000 = c.hour := by
    rw [Int.tdiv_eq_ediv_of_nonneg (by omega)]
    omega
  have minutes : (c.dailyNumber % 3600000).tdiv 60000 = c.minute := by
    rw [Int.tdiv_eq_ediv_of_nonneg (by omega)]
    omega
  have seconds : (c.dailyNumber % 3600000 % 60000).tdiv 1000 = c.second := by
    rw [Int.tdiv_eq_ediv_of_nonneg (by omega)]
    omega
  have milliseconds : (c.dailyNumber % 3600000 % 60000).tmod 1000 = c.millisecond := by
    rw [Int.tmod_eq_emod_of_nonneg (by omega)]
    omega
  have fits : wrap32 c.hour = c.hour := wrap32_of_fits ⟨by omega, by omega⟩
  simp only [twoTimesToString, whole, rest, hours, minutes, seconds, milliseconds, fits]

/-! ### Back to a text -/

/-- The fields of a date come out of its number, unless it is the 31st. -/
theorem date_fields (earlier : c.day ≠ 31) :
    c.number.tdiv (31 * 12) + 1900 = c.year ∧
      (c.number.tmod (31 * 12)).tdiv 31 + 1 = c.month ∧
      (c.number.tmod (31 * 12)).tmod 31 = c.day := by
  have := c.year_ge; have := c.month_pos; have := c.month_le; have := c.day_pos
  have := c.day_le; have pos := c.number_pos
  have number : c.number = c.day + 31 * (c.month - 1 + 12 * (c.year - 1900)) := rfl
  rw [Int.tmod_eq_emod_of_nonneg pos.le, Int.tdiv_eq_ediv_of_nonneg pos.le,
    Int.tdiv_eq_ediv_of_nonneg (by omega), Int.tmod_eq_emod_of_nonneg (by omega)]
  omega

/-- **Encoded times print back** if and only if it is not the 31st and the number of the date
fits in an `int`. -/
theorem prints_back_iff (shows : c.Shows localtime timeMs)
    (year : FitsInt32 (localtime (timeMs.tdiv 1000)).tmYear) :
    twoTimesToString (getDateTime32 localtime timeMs) (getDailyTime32 localtime timeMs)
        = timeToString localtime timeMs ↔
      c.day ≠ 31 ∧ c.number < 2 ^ 31 := by
  have := c.month_pos; have := c.month_le; have := c.day_pos; have := c.day_le
  have := c.year_ge; have pos := c.number_pos
  have int : (c.year : Int) - 1900 < 2 ^ 31 := by
    rw [shows.fields] at year
    exact year.2
  have number : c.number = c.day + 31 * (c.month - 1 + 12 * (c.year - 1900)) := rfl
  rw [getDateTime32_of_shows shows, getDailyTime32_of_shows shows, timeToString_of_shows shows,
    twoTimesToString_dailyNumber]
  constructor
  · intro same
    obtain ⟨whole, rest, bounds, days⟩ := date_parts (wrap32 c.number)
    obtain ⟨fits, wrapped⟩ := wrap32_year (fitsInt32_wrap32 c.number)
    rw [wrapped] at same
    obtain ⟨years, months, dates⟩ := bufferText_inj fits (by omega) (by omega)
      (fitsInt32_wrap32 c.year) (by omega) (by omega) same
    obtain ⟨low, high⟩ := fitsInt32_wrap32 c.number
    obtain ⟨k, lost⟩ := exists_wrap32 c.year
    -- The year that is read off is near 0, so that of the civil time has not been wrapped.
    generalize wrap32 c.number = kept at *
    generalize wrap32 c.year = printed at *
    exact ⟨by omega, by omega⟩
  · rintro ⟨earlier, small⟩
    have fits : FitsInt32 c.number := ⟨by omega, small⟩
    obtain ⟨years, months, dates⟩ := date_fields earlier
    obtain ⟨-, wrapped⟩ := wrap32_year fits
    have plain : wrap32 c.year = c.year := wrap32_of_fits ⟨by omega, by omega⟩
    rw [wrap32_of_fits fits, wrapped, years, months, dates, plain]

/-! ### Order -/

theorem LocalTime.key_injective : Function.Injective LocalTime.key := by
  rintro ⟨⟩ ⟨⟩ same
  simpa [LocalTime.key] using same

theorem CivilTime.key_injective : Function.Injective fun c : CivilTime => c.key := by
  rintro ⟨t, _⟩ ⟨t', _⟩ same
  obtain rfl := LocalTime.key_injective same
  rfl

/-- What the numbers of two civil times should keep: which of them is earlier, and whether they
are the same. The loader has the same numbers. -/
structure OrderKept (localtime : Int → Tm) (timeMs timeMs' : Int) (c c' : CivilTime) : Prop where
  order : c.key < c'.key ↔
    toLex (getDateTime32 localtime timeMs, getDailyTime32 localtime timeMs)
      < toLex (getDateTime32 localtime timeMs', getDailyTime32 localtime timeMs')
  injective : getDateTime32 localtime timeMs = getDateTime32 localtime timeMs' →
    getDailyTime32 localtime timeMs = getDailyTime32 localtime timeMs' → c = c'
  loader : encodeDateTime c.year c.month c.day = getDateTime32 localtime timeMs
  loader' : encodeDateTime c'.year c'.month c'.day = getDateTime32 localtime timeMs'

/-- The numbers of dates and times of day keep the order, as integers. -/
theorem key_lt_key_iff : c.key < c'.key ↔
    toLex (c.number, c.dailyNumber) < toLex (c'.number, c'.dailyNumber) := by
  have later : c.key < c'.key ↔ ¬c'.toLocalTime ≤ c.toLocalTime := not_le.symm
  rw [later, LocalTime.le_iff, Prod.Lex.toLex_lt_toLex, c.number_eq, c'.number_eq]
  omega

/-- **The encoding keeps the order** if and only if the numbers of both dates fit in an
`int`. -/
theorem order_kept_iff (shows : c.Shows localtime timeMs) (shows' : c'.Shows localtime timeMs') :
    OrderKept localtime timeMs timeMs' c c' ↔ c.number < 2 ^ 31 ∧ c'.number < 2 ^ 31 := by
  have pos := c.number_pos; have pos' := c'.number_pos
  have date := getDateTime32_of_shows shows; have date' := getDateTime32_of_shows shows'
  have daily := getDailyTime32_of_shows shows; have daily' := getDailyTime32_of_shows shows'
  constructor
  · intro kept
    have number : c.number = wrap32 c.number := kept.loader.trans date
    have number' : c'.number = wrap32 c'.number := kept.loader'.trans date'
    rw [number, number']
    exact ⟨(fitsInt32_wrap32 _).2, (fitsInt32_wrap32 _).2⟩
  · rintro ⟨small, small'⟩
    rw [wrap32_of_fits ⟨by omega, small⟩] at date
    rw [wrap32_of_fits ⟨by omega, small'⟩] at date'
    constructor
    · rw [date, date', daily, daily']
      exact key_lt_key_iff
    · intro dates dailies
      rw [date, date'] at dates
      rw [daily, daily'] at dailies
      refine CivilTime.key_injective (le_antisymm ?_ ?_)
      · rw [← not_lt, key_lt_key_iff, dates, dailies]
        exact lt_irrefl _
      · rw [← not_lt, key_lt_key_iff, dates, dailies]
        exact lt_irrefl _
    · exact date.symm
    · exact date'.symm

end

/-! ### A 31st, and a date that does not fit -/

/-- New Year's Day of 2026 is printed as it is. -/
theorem prints_back_iff_newYear :
    twoTimesToString (getDateTime32 newYearLocaltime 1767225600000)
        (getDailyTime32 newYearLocaltime 1767225600000)
      = timeToString newYearLocaltime 1767225600000 :=
  (prints_back_iff (c := { newYear with year_ge := by decide }) shows_newYear (by decide)).mpr
    ⟨by decide, by decide⟩

/-- The day before is printed as `2026-01-00`. -/
theorem newYearsEve_misprinted :
    ¬∀ (localtime : Int → Tm) (timeMs : Int) (c : CivilTime), c.Shows localtime timeMs →
      FitsInt32 (localtime (timeMs.tdiv 1000)).tmYear →
      twoTimesToString (getDateTime32 localtime timeMs) (getDailyTime32 localtime timeMs)
        = timeToString localtime timeMs := by
  intro claim
  have printed := claim newYearLocaltime 1767139200000 { newYearsEve with year_ge := by decide }
    shows_newYearsEve (by decide)
  have decoded : twoTimesToString (getDateTime32 newYearLocaltime 1767139200000)
      (getDailyTime32 newYearLocaltime 1767139200000) = "2026-01-00 00:00:00.000" := by
    decide +kernel
  have civil : timeToString newYearLocaltime 1767139200000 = "2025-12-31 00:00:00.000" := by
    decide +kernel
  rw [decoded, civil] at printed
  exact absurd printed (by decide)

/-- The two days are told apart and in order, although one is a 31st. -/
theorem order_kept_iff_newYear :
    OrderKept newYearLocaltime 1767139200000 1767225600000
      { newYearsEve with year_ge := by decide } { newYear with year_ge := by decide } :=
  (order_kept_iff shows_newYearsEve shows_newYear).mpr ⟨by decide, by decide⟩

/-- New Year's Day of the year 6000000. -/
def farNewYear : CivilTime := { newYear with year := 6000000, year_ge := by decide }

/-- The `localtime` of a zone in which that year begins at the instant `189279544780800`. -/
def farLocaltime (seconds : Int) : Tm :=
  if seconds < 189279544780800 then newYearLocaltime seconds else ⟨1, 0, 5998100, 0, 0, 0⟩

/-- That day comes before the year 2026 by its number. -/
theorem farNewYear_disordered :
    ¬∀ (localtime : Int → Tm) (timeMs timeMs' : Int) (c c' : CivilTime),
      c.Shows localtime timeMs → c'.Shows localtime timeMs' →
      OrderKept localtime timeMs timeMs' c c' := by
  intro claim
  have shows : newYear.Shows farLocaltime 1767225600000 := ⟨by decide, by decide⟩
  have far : farNewYear.Shows farLocaltime 189279544780800000 := ⟨by decide, by decide⟩
  have kept := claim farLocaltime 1767225600000 189279544780800000
    { newYear with year_ge := by decide } farNewYear shows far
  have later := kept.order.mp (by decide)
  exact absurd later (by decide +kernel)

end StockMarket.Sql
