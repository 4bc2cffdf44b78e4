import Asteros.Libc.Stdio
import Asteros.Lib.Gregorian

set_option autoImplicit false

/-!
# Calendar time

`gmtime_r` and `mktime` of `time.c`, with the conversions between day numbers and dates that they
rest on. An `int` and a `long` are numbers in their ranges, and so is each field of a `struct tm`.
Sums of `int` and `unsigned` values are cut to 32 bits wherever the fields of an arbitrary
`struct tm` can leave that range; the other sums of `long` values stay far inside of 64 bits.

## Main definitions

* `CInt`, `CLong` — the values of `int` and `long`.
* `Tm` — `struct tm`.
* `civilFromDays`, `daysFromCivil` — the conversions of days.
* `gmtimeR`, `mktime` — the conversions of seconds.

## Main results

* `civilFromDays_date` — a day number is taken to its date.
* `daysFromCivil_date` — a date is taken to its day number.
* `gmtimeR_moment` — seconds are taken to the fields of their moment.
-/

namespace Asteros.Libc

open Gregorian

/-! ## Machine integers -/

/-- A value of type `int`. -/
@[ext] structure CInt where
  /-- The number. -/
  val : ℤ
  /-- It is at least `INT_MIN`. -/
  low : -2 ^ 31 ≤ val
  /-- It is at most `INT_MAX`. -/
  high : val < 2 ^ 31
  deriving DecidableEq

instance : CoeOut CInt ℤ := ⟨CInt.val⟩

/-- The number is that of some `int`. -/
def IsInt (n : ℤ) : Prop := -2 ^ 31 ≤ n ∧ n < 2 ^ 31

instance (n : ℤ) : Decidable (IsInt n) := inferInstanceAs (Decidable (_ ∧ _))

/-- The conversion to `int`. -/
def CInt.ofInt (n : ℤ) : CInt :=
  ⟨toInt32 n, by unfold toInt32; rw [Int.bmod_def]; split_ifs <;> omega,
    by unfold toInt32; rw [Int.bmod_def]; split_ifs <;> omega⟩

/-- A value of type `long`, which is also that of `time_t`. -/
@[ext] structure CLong where
  /-- The number. -/
  val : ℤ
  /-- It is at least `LONG_MIN`. -/
  low : -2 ^ 63 ≤ val
  /-- It is at most `LONG_MAX`. -/
  high : val < 2 ^ 63
  deriving DecidableEq

instance : CoeOut CLong ℤ := ⟨CLong.val⟩

/-- A value of type `long`, with the arithmetic wrapping. -/
def toInt64 (n : ℤ) : ℤ := n.bmod (2 ^ 64)

/-- The conversion to `long`. -/
def CLong.ofInt (n : ℤ) : CLong :=
  ⟨toInt64 n, by unfold toInt64; rw [Int.bmod_def]; split_ifs <;> omega,
    by unfold toInt64; rw [Int.bmod_def]; split_ifs <;> omega⟩

/-- The conversion to `unsigned`. -/
def toUnsigned (n : ℤ) : ℤ := n % 2 ^ 32

/-! ## The functions -/

/-- `struct tm`. -/
@[ext] structure Tm where
  /-- The second. -/
  tmSec : CInt
  /-- The minute. -/
  tmMin : CInt
  /-- The hour. -/
  tmHour : CInt
  /-- The day of the month. -/
  tmMday : CInt
  /-- The month, from zero. -/
  tmMon : CInt
  /-- The year, from 1900. -/
  tmYear : CInt
  /-- The day of the week, from Sunday. -/
  tmWday : CInt
  /-- The day of the year, from zero. -/
  tmYday : CInt
  /-- Whether daylight saving time is in force. -/
  tmIsdst : CInt
  /-- The distance from UTC. -/
  tmGmtoff : CLong
  /-- The name of the time zone. -/
  tmZone : CString

/-- `civil_from_days`: the year, the month from one, and the day. -/
def civilFromDays (z : ℤ) : CInt × CInt × CInt :=
  let z := z + 719468
  let era := (if 0 ≤ z then z else z - 146096).tdiv 146097
  let doe := toUnsigned (z - era * 146097)
  let yoe := toUnsigned (doe - doe / 1460 + doe / 36524 - doe / 146096) / 365
  let yy := yoe + era * 400
  let doy := toUnsigned (doe - (365 * yoe + yoe / 4 - yoe / 100))
  let mp := toUnsigned (5 * doy + 2) / 153
  let dd := toUnsigned (doy - toUnsigned (153 * mp + 2) / 5 + 1)
  let mm := toUnsigned (mp + if mp < 10 then 3 else -9)
  (.ofInt (yy + if mm ≤ 2 then 1 else 0), .ofInt mm, .ofInt dd)

/-- `days_from_civil`, with the month from one. -/
def daysFromCivil (y m d : CInt) : ℤ :=
  let yy := toInt32 (y - if (m : ℤ) ≤ 2 then 1 else 0)
  let era := (if 0 ≤ yy then yy else yy - 399).tdiv 400
  let yoe := toUnsigned (yy - era * 400)
  let mp := toUnsigned (m + if (m : ℤ) > 2 then -3 else 9)
  let doy := toUnsigned (toUnsigned (153 * mp + 2) / 5 + toUnsigned d - 1)
  let doe := toUnsigned (yoe * 365 + yoe / 4 - yoe / 100 + doy)
  era * 146097 + doe - 719468

/-- `gmtime_r`. -/
def gmtimeR (timep : CLong) : Tm :=
  let days := (if 0 ≤ (timep : ℤ) then (timep : ℤ) else toInt64 (timep - 86399)).tdiv 86400
  let rem := toInt64 (timep - days * 86400)
  let (y, mo, d) := civilFromDays days
  let wday := (days.tmod 7 + 7 + 4).tmod 7
  let jan1 := daysFromCivil y (.ofInt 1) (.ofInt 1)
  { tmSec := .ofInt (rem.tmod 60)
    tmMin := .ofInt ((rem.tmod 3600).tdiv 60)
    tmHour := .ofInt (rem.tdiv 3600)
    tmMday := d
    tmMon := .ofInt (mo - 1)
    tmYear := .ofInt (y - 1900)
    tmWday := .ofInt wday
    tmYday := .ofInt (days - jan1)
    tmIsdst := .ofInt 0
    tmGmtoff := .ofInt 0
    tmZone := .ofBytes (ascii "UTC") }

/-- `mktime`: the seconds, and the normalized `struct tm`. -/
def mktime (tm : Tm) : CLong × Tm :=
  let days := daysFromCivil (.ofInt (tm.tmYear + 1900)) (.ofInt (tm.tmMon + 1)) tm.tmMday
  let t := CLong.ofInt (days * 86400 + tm.tmHour * 3600 + tm.tmMin * 60 + tm.tmSec)
  (t, gmtimeR t)

/-! ## Arithmetic -/

/-- The conversion leaves an `int` as it is. -/
lemma toInt32_of_isInt {n : ℤ} (h : IsInt n) : toInt32 n = n := by
  obtain ⟨hlow, hhigh⟩ := h
  unfold toInt32
  rw [Int.bmod_def]
  split_ifs <;> omega

/-- The conversion leaves an `int` as it is. -/
lemma CInt.val_ofInt {n : ℤ} (h : IsInt n) : (CInt.ofInt n).val = n := toInt32_of_isInt h

/-- A conversion in front of a subtraction can be left out. -/
lemma toInt32_sub (n c : ℤ) : toInt32 (CInt.ofInt n - c) = toInt32 (n - c) := by
  have hval : (CInt.ofInt n : ℤ) = toInt32 n := rfl
  rw [hval]
  unfold toInt32
  simp only [Int.bmod_def]
  split_ifs <;> omega

/-- The conversion leaves a `long` as it is. -/
lemma toInt64_of_mem {n : ℤ} (h : -2 ^ 63 ≤ n ∧ n < 2 ^ 63) : toInt64 n = n := by
  unfold toInt64
  rw [Int.bmod_def]
  split_ifs <;> omega

/-- The conversion leaves an `unsigned` as it is. -/
lemma toUnsigned_of_mem {n : ℤ} (h : 0 ≤ n ∧ n < 2 ^ 32) : toUnsigned n = n :=
  Int.emod_eq_of_lt h.1 h.2

/-- The divisions of the code round down. -/
lemma tdiv_floor {n c : ℤ} (hn : 0 < n) (hc : c = n - 1) (z : ℤ) :
    (if 0 ≤ z then z else z - c).tdiv n = z / n := by
  split_ifs with h
  · exact Int.tdiv_eq_ediv_of_nonneg h
  · have hmod := Int.emod_add_mul_ediv (c - z) n
    have hnonneg := Int.emod_nonneg (c - z) hn.ne'
    have hlt := Int.emod_lt_of_pos (c - z) hn
    have hdiv : (z - c).tdiv n = -((c - z) / n) := by
      rw [← Int.neg_sub c z, Int.neg_tdiv, Int.tdiv_eq_ediv_of_nonneg (by omega)]
    rw [hdiv]
    have hsplit : c - (c - z) % n + n * -((c - z) / n) = z := by
      rw [Int.mul_neg]
      omega
    exact ((Int.ediv_emod_unique hn).mpr ⟨hsplit, by omega, by omega⟩).1.symm

/-- The day of the week, which the code computes with a remainder that has a sign. -/
lemma tmod_seven (n : ℤ) : (n.tmod 7 + 7 + 4).tmod 7 = (n + 4) % 7 := by
  have hlow := Int.lt_tmod_of_pos n (show (0 : ℤ) < 7 by omega)
  have hdef := Int.tmod_def n 7
  rw [Int.tmod_eq_emod_of_nonneg (by omega)]
  omega

/-! ## Days -/

/-- The number of the first of March of a year. -/
def marchStart (y : ℤ) : ℤ := 365 * y + y / 4 - y / 100 + y / 400 - 719468

/-- The day of the year from March, for the first of a month that is counted from March. -/
def marchMonth (mp : ℤ) : ℤ := (153 * mp + 2) / 5

/-- The year that begins with March, in its cycle of 400 years. -/
lemma marchStart_eq (yy : ℤ) :
    marchStart yy =
      yy / 400 * 146097 + (365 * (yy % 400) + yy % 400 / 4 - yy % 400 / 100) - 719468 := by
  unfold marchStart
  omega

/-- March begins behind January and February. -/
lemma marchStart_march (y : ℤ) : marchStart y = yearStart y + monthStart y 2 := by
  simp only [monthStart, monthLength, marchStart, yearStart, IsLeap]
  split_ifs <;> omega

/-- January begins ten months behind March of the year before. -/
lemma marchStart_january (y : ℤ) : marchStart (y - 1) + 306 = yearStart y := by
  unfold marchStart yearStart
  omega

/-- The months from March. -/
lemma monthStart_march (y : ℤ) {m : ℕ} (hm : 2 ≤ m) (hlt : m < 12) :
    monthStart y m = monthStart y 2 + marchMonth (m + -2) := by
  unfold marchMonth
  interval_cases m <;> simp only [monthStart, monthLength] <;> omega

/-- The two months before. -/
lemma monthStart_january (y : ℤ) {m : ℕ} (hm : m < 2) :
    monthStart y m + 306 = marchMonth (m + 10) := by
  unfold marchMonth
  interval_cases m <;> simp only [monthStart, monthLength] <;> omega

/-- The first of a month, counted from March. -/
lemma yearStart_add_monthStart (y : ℤ) {m : ℕ} (hm : m < 12) :
    yearStart y + monthStart y m =
      marchStart (y - if m < 2 then 1 else 0) + marchMonth (m + if m < 2 then 10 else -2) := by
  split_ifs with h
  · rw [← monthStart_january y h, ← marchStart_january]
    omega
  · rw [monthStart_march y (by omega) hm, Int.sub_zero, marchStart_march]
    omega

/-- The day that `days_from_civil` computes, with the cuts to 32 bits that matter. -/
lemma daysFromCivil_eq (y m d : CInt) :
    daysFromCivil y m d =
      toInt32 (y - if (m : ℤ) ≤ 2 then 1 else 0) / 400 * 146097 +
        toUnsigned (365 * (toInt32 (y - if (m : ℤ) ≤ 2 then 1 else 0) % 400) +
          toInt32 (y - if (m : ℤ) ≤ 2 then 1 else 0) % 400 / 4 -
          toInt32 (y - if (m : ℤ) ≤ 2 then 1 else 0) % 400 / 100 +
          toUnsigned (153 * toUnsigned (m + if (m : ℤ) > 2 then -3 else 9) + 2) / 5 + d - 1) -
        719468 := by
  unfold daysFromCivil
  dsimp only
  rw [tdiv_floor (by omega) (by omega)]
  generalize toInt32 (y - if (m : ℤ) ≤ 2 then 1 else 0) = yy
  have hyoe : toUnsigned (yy - yy / 400 * 400) = yy % 400 := by
    unfold toUnsigned
    omega
  rw [hyoe]
  unfold toUnsigned
  omega

/-! ## Dates -/

/-- The year of a date, if years begin with March. -/
def marchYear (d : Date) : ℤ := d.year - if d.month < 2 then 1 else 0

/-- The month of a date, counted from March. -/
def marchIndex (d : Date) : ℤ := d.month + if d.month < 2 then 10 else -2

/-- The day of the year from March. -/
def marchDay (d : Date) : ℤ := marchMonth (marchIndex d) + d.day - 1

/-- The number of a day, by the year from March. -/
lemma dayNumber_march (d : Date) : d.dayNumber = marchStart (marchYear d) + marchDay d := by
  rw [Date.dayNumber, Date.yearDay, marchDay, marchYear, marchIndex]
  have := yearStart_add_monthStart d.year d.month_lt
  omega

/-- Months are counted from zero. -/
lemma marchIndex_mem (d : Date) : 0 ≤ marchIndex d ∧ marchIndex d < 12 := by
  have := d.month_lt
  unfold marchIndex
  split_ifs <;> omega

/-- The months from March have the lengths of the calendar, but for the last one. -/
lemma monthLength_march (y : ℤ) {m : ℕ} (hm : m < 12) :
    monthLength y m =
      if m = 1 then (if IsLeap y then 29 else 28)
      else marchMonth ((m + if m < 2 then 10 else -2) + 1) -
        marchMonth (m + if m < 2 then 10 else -2) := by
  unfold marchMonth
  interval_cases m <;> rfl

/-- Days of the year from March are those of the month. -/
lemma marchDay_mem (d : Date) :
    marchMonth (marchIndex d) ≤ marchDay d ∧ marchDay d < marchMonth (marchIndex d + 1) := by
  have hpos := d.day_pos
  have hle := d.day_le
  rw [monthLength_march d.year d.month_lt] at hle
  unfold marchDay
  refine ⟨by omega, ?_⟩
  by_cases hm : d.month = 1
  · rw [if_pos hm] at hle
    have hindex : marchIndex d = 11 := by
      unfold marchIndex
      rw [hm]
      rfl
    rw [hindex]
    unfold marchMonth
    split_ifs at hle <;> omega
  · rw [if_neg hm] at hle
    unfold marchIndex
    omega

/-- Only leap years have 366 days. -/
lemma marchDay_lt (d : Date) :
    marchDay d < 365 ∨ marchDay d = 365 ∧ IsLeap (marchYear d + 1) := by
  have hmem := marchDay_mem d
  have hindex := marchIndex_mem d
  by_cases hm : d.month = 1
  · have hle := d.day_le
    have hyear : marchYear d + 1 = d.year := by
      unfold marchYear
      rw [hm]
      omega
    have h11 : marchIndex d = 11 := by
      unfold marchIndex
      rw [hm]
      rfl
    rw [monthLength_march d.year d.month_lt, if_pos hm] at hle
    rw [hyear]
    unfold marchDay marchMonth
    rw [h11]
    split_ifs at hle with hleap
    · by_cases h : d.day = 29
      · exact Or.inr ⟨by omega, hleap⟩
      · omega
    · omega
  · have h10 : marchIndex d ≤ 10 := by
      have := d.month_lt
      unfold marchIndex
      split_ifs <;> omega
    unfold marchMonth at hmem
    omega

/-- The year of the cycle, which the code computes from the day of the cycle. -/
lemma yearOfEra_eq {k doy doe : ℤ} (hk : 0 ≤ k) (hlt : k < 400) (hpos : 0 ≤ doy)
    (hdoy : doy < 365 ∨ doy = 365 ∧ k % 4 = 3 ∧ (k % 100 ≠ 99 ∨ k = 399))
    (hdoe : doe = 365 * k + k / 4 - k / 100 + doy) :
    (doe - doe / 1460 + doe / 36524 - doe / 146096) / 365 = k := by
  -- centuries, cycles of four years and years
  obtain ⟨c, b, a, hkeq, hc, hb, ha⟩ : ∃ c b a : ℤ, k = 100 * c + 4 * b + a ∧ (0 ≤ c ∧ c < 4) ∧
      (0 ≤ b ∧ b < 25) ∧ (0 ≤ a ∧ a < 4) :=
    ⟨k / 100, k % 100 / 4, k % 4, by omega, by omega, by omega, by omega⟩
  have hfour : k / 4 = 25 * c + b := by omega
  have hcentury : k / 100 = c := by omega
  have hleap : doy = 365 → a = 3 ∧ (b ≠ 24 ∨ c = 3) := by omega
  have hdoe' : doe = 36524 * c + 1461 * b + 365 * a + doy := by omega
  have hcenturies : doe / 36524 - doe / 146096 = c := by
    by_cases hlast : doe = 146096
    · omega
    · have hsmall : doe < 146096 := by omega
      have hzero : doe / 146096 = 0 := Int.ediv_eq_zero_of_lt (by omega) hsmall
      have hdiv : doe / 36524 = c := by omega
      omega
  obtain ⟨e, he, hcycle⟩ : ∃ e : ℤ, (0 ≤ e ∧ e < 2 ∧ (e = 1 ↔ 1460 ≤ 24 * c + b + 365 * a + doy)) ∧
      doe / 1460 = 25 * c + b + e :=
    ⟨(24 * c + b + 365 * a + doy) / 1460, by omega, by omega⟩
  have hyears : doe - doe / 1460 + doe / 36524 - doe / 146096 = 365 * k + (doy - e) := by omega
  rw [hyears]
  omega

/-- **The date of a day is found from its number.** -/
theorem civilFromDays_date (d : Date) :
    civilFromDays d.dayNumber = (.ofInt d.year, .ofInt (d.month + 1), .ofInt d.day) := by
  have hday := marchDay_mem d
  have hindex := marchIndex_mem d
  have hlong := marchDay_lt d
  have hpos : 0 ≤ marchMonth (marchIndex d) := by
    unfold marchMonth
    omega
  have hdate : marchDay d - marchMonth (marchIndex d) + 1 = d.day := by
    unfold marchDay
    omega
  unfold IsLeap at hlong
  obtain ⟨k, hk⟩ : ∃ k, marchYear d % 400 = k := ⟨_, rfl⟩
  have hk0 : 0 ≤ k := by omega
  have hk400 : k < 400 := by omega
  have hyear : (doe : ℤ) → doe = 365 * k + k / 4 - k / 100 + marchDay d →
      (doe - doe / 1460 + doe / 36524 - doe / 146096) / 365 = k := fun doe =>
    yearOfEra_eq hk0 hk400 (by omega) (by omega)
  have hz : d.dayNumber + 719468 =
      marchYear d / 400 * 146097 + (365 * k + k / 4 - k / 100 + marchDay d) := by
    rw [dayNumber_march, marchStart_eq, hk]
    omega
  generalize hdoe : 365 * k + k / 4 - k / 100 + marchDay d = doe at hz
  have hmem : 0 ≤ doe ∧ doe < 146097 := by omega
  have hera : (d.dayNumber + 719468) / 146097 = marchYear d / 400 := by omega
  have hmonth : (5 * marchDay d + 2) / 153 = marchIndex d := by
    unfold marchMonth at hday
    omega
  unfold civilFromDays
  dsimp only
  rw [tdiv_floor (by omega) (by omega), hera]
  rw [hz, add_sub_cancel_left, toUnsigned_of_mem (n := doe) (by omega)]
  rw [toUnsigned_of_mem (n := doe - doe / 1460 + doe / 36524 - doe / 146096) (by omega),
    hyear doe hdoe.symm]
  have hrest : doe - (365 * k + k / 4 - k / 100) = marchDay d := by omega
  rw [hrest, toUnsigned_of_mem (n := marchDay d) (by omega),
    toUnsigned_of_mem (n := 5 * marchDay d + 2) (by omega), hmonth,
    toUnsigned_of_mem (n := 153 * marchIndex d + 2) (by omega), ← marchMonth, hdate,
    toUnsigned_of_mem (n := d.day) (by have := d.day_pos; omega)]
  have hmm : (marchIndex d + if marchIndex d < 10 then 3 else -9) = d.month + 1 := by
    unfold marchIndex
    have := d.month_lt
    split_ifs <;> omega
  have hyy : (k + marchYear d / 400 * 400 + if (d.month : ℤ) + 1 ≤ 2 then 1 else 0) = d.year := by
    have hsplit : k + marchYear d / 400 * 400 = marchYear d := by omega
    rw [hsplit]
    unfold marchYear
    split_ifs <;> omega
  rw [hmm, toUnsigned_of_mem (n := d.month + 1) (by have := d.month_lt; omega), hyy]

/-- **The number of a day is found from its date.** -/
theorem daysFromCivil_date (d : Date) (hyear : IsInt d.year) (hmarch : IsInt (marchYear d)) :
    daysFromCivil (.ofInt d.year) (.ofInt (d.month + 1)) (.ofInt d.day) = d.dayNumber := by
  have hday := marchDay_mem d
  have hindex := marchIndex_mem d
  have hlt := d.month_lt
  have hpos := d.day_pos
  have hle : d.day ≤ 31 := d.day_le.trans (monthLength_le d.year d.month)
  rw [daysFromCivil_eq, CInt.val_ofInt hyear, CInt.val_ofInt (n := (d.month : ℤ) + 1) (by
    unfold IsInt; omega), CInt.val_ofInt (n := d.day) (by unfold IsInt; omega)]
  have hyy : (d.year - if (d.month : ℤ) + 1 ≤ 2 then 1 else 0) = marchYear d := by
    unfold marchYear
    split_ifs <;> omega
  have hmp : ((d.month : ℤ) + 1 + if (d.month : ℤ) + 1 > 2 then -3 else 9) = marchIndex d := by
    unfold marchIndex
    split_ifs <;> omega
  rw [hyy, hmp, toInt32_of_isInt hmarch, toUnsigned_of_mem (n := marchIndex d) (by omega),
    toUnsigned_of_mem (n := 153 * marchIndex d + 2) (by omega), ← marchMonth]
  have hmonth : 0 ≤ marchMonth (marchIndex d) ∧ marchMonth (marchIndex d) < 400 := by
    unfold marchMonth
    omega
  rw [toUnsigned_of_mem (by omega), dayNumber_march, marchStart_eq, marchDay]
  omega

/-- The number of the first day of a year. -/
lemma daysFromCivil_january {y : ℤ} (hyear : IsInt y) (hmarch : IsInt (y - 1)) :
    daysFromCivil (.ofInt y) (.ofInt 1) (.ofInt 1) = yearStart y := by
  have h := daysFromCivil_date ⟨y, 0, 1, by omega, le_rfl, monthLength_pos y 0⟩ hyear hmarch
  rw [Date.dayNumber, Date.yearDay] at h
  dsimp only [monthStart] at h
  rw [Nat.cast_zero, zero_add] at h
  omega

/-! ## Moments -/

/-- The fields are those of a moment. -/
structure Tm.Holds (tm : Tm) (m : Moment) : Prop where
  /-- The second. -/
  second : (tm.tmSec : ℤ) = m.second
  /-- The minute. -/
  minute : (tm.tmMin : ℤ) = m.minute
  /-- The hour. -/
  hour : (tm.tmHour : ℤ) = m.hour
  /-- The day of the month. -/
  day : (tm.tmMday : ℤ) = m.day
  /-- The month. -/
  month : (tm.tmMon : ℤ) = m.month
  /-- The year. -/
  year : (tm.tmYear : ℤ) + 1900 = m.year
  /-- The day of the week. -/
  weekday : (tm.tmWday : ℤ) = m.weekday
  /-- The day of the year. -/
  yearDay : (tm.tmYday : ℤ) = m.yearDay
  /-- There is no daylight saving time. -/
  isdst : (tm.tmIsdst : ℤ) = 0
  /-- There is no distance from UTC. -/
  gmtoff : (tm.tmGmtoff : ℤ) = 0
  /-- The time zone is UTC. -/
  zone : tm.tmZone = .ofBytes (ascii "UTC")

/-- What `gmtime_r` stores for a moment. -/
def momentTm (m : Moment) : Tm where
  tmSec := .ofInt m.second
  tmMin := .ofInt m.minute
  tmHour := .ofInt m.hour
  tmMday := .ofInt m.day
  tmMon := .ofInt m.month
  tmYear := .ofInt (CInt.ofInt m.year - 1900)
  tmWday := .ofInt m.weekday
  tmYday := .ofInt (m.dayNumber - daysFromCivil (.ofInt m.year) (.ofInt 1) (.ofInt 1))
  tmIsdst := .ofInt 0
  tmGmtoff := .ofInt 0
  tmZone := .ofBytes (ascii "UTC")

/-- The fields of the moment are found from its seconds. -/
lemma gmtimeR_eq {t : CLong} {m : Moment} (hm : m.seconds = t)
    (hlow : -2 ^ 63 + 86399 ≤ (t : ℤ)) : gmtimeR t = momentTm m := by
  have hday := m.secondOfDay_mem
  have hhour := m.hour_mem
  have hminute := m.minute_mem
  have hsecond := m.second_mem
  have hmonth := m.month_lt
  have hsplit : m.dayNumber * 86400 + m.secondOfDay = t := hm
  have hsecs : m.hour * 3600 + m.minute * 60 + m.second = m.secondOfDay := rfl
  have hlong := t.high
  have hfloor : (if 0 ≤ (t : ℤ) then (t : ℤ) else toInt64 (t - 86399)).tdiv 86400 =
      m.dayNumber := by
    rw [toInt64_of_mem (by omega), tdiv_floor (by omega) (by omega)]
    omega
  have hrem : toInt64 (t - m.dayNumber * 86400) = m.secondOfDay := by
    rw [toInt64_of_mem (by omega)]
    omega
  unfold gmtimeR momentTm
  dsimp only
  rw [hfloor, hrem, civilFromDays_date, tmod_seven, Int.tmod_eq_emod_of_nonneg hday.1,
    Int.tmod_eq_emod_of_nonneg hday.1, Int.tdiv_eq_ediv_of_nonneg hday.1,
    Int.tdiv_eq_ediv_of_nonneg (by omega)]
  have hsec : m.secondOfDay % 60 = m.second := by omega
  have hmin : m.secondOfDay % 3600 / 60 = m.minute := by omega
  have hhr : m.secondOfDay / 3600 = m.hour := by omega
  have hmon : (CInt.ofInt ((m.month : ℤ) + 1)).val - 1 = m.month := by
    rw [CInt.val_ofInt (by unfold IsInt; omega)]
    omega
  rw [hsec, hmin, hhr, hmon]
  rfl

/-- What is stored are the fields of the moment, if the first day of the year is found. -/
lemma momentTm_holds {m : Moment} (hfrom : IsInt (m.year - 1900))
    (hjan : daysFromCivil (.ofInt m.year) (.ofInt 1) (.ofInt 1) = yearStart m.year) :
    (momentTm m).Holds m := by
  have hyearDay : m.dayNumber - yearStart m.year = m.yearDay := by
    rw [Date.dayNumber]
    omega
  have hyday := m.yearDay_lt
  have hyday0 := m.yearDay_nonneg
  have hylen := yearLength_le m.year
  have hmday := m.day_le.trans (monthLength_le m.year m.month)
  have hdpos := m.day_pos
  have hmonth := m.month_lt
  have hhour := m.hour_mem
  have hminute := m.minute_mem
  have hsecond := m.second_mem
  have hwday : 0 ≤ m.weekday ∧ m.weekday < 7 := by
    unfold Date.weekday
    omega
  refine ⟨?_, ?_, ?_, ?_, ?_, ?_, ?_, ?_, rfl, rfl, rfl⟩
  · exact CInt.val_ofInt ⟨by omega, by omega⟩
  · exact CInt.val_ofInt ⟨by omega, by omega⟩
  · exact CInt.val_ofInt ⟨by omega, by omega⟩
  · exact CInt.val_ofInt ⟨by omega, by omega⟩
  · exact CInt.val_ofInt ⟨by omega, by omega⟩
  · have hval : (momentTm m).tmYear.val = m.year - 1900 :=
      (toInt32_sub m.year 1900).trans (toInt32_of_isInt hfrom)
    omega
  · exact CInt.val_ofInt ⟨by omega, by omega⟩
  · unfold momentTm
    dsimp only
    rw [hjan, hyearDay]
    exact CInt.val_ofInt ⟨by omega, by omega⟩

/-- **Seconds are taken to the fields of their moment**, if an `int` can hold the year, and the
year from 1900. -/
theorem gmtimeR_moment {t : CLong} {m : Moment} (hm : m.seconds = t) (hyear : IsInt m.year)
    (hfrom : IsInt (m.year - 1900)) : (gmtimeR t).Holds m := by
  have hfromlow := hfrom.1
  have hday := m.secondOfDay_mem
  have hstart := m.yearStart_le
  have hlow : -2 ^ 63 + 86399 ≤ (t : ℤ) := by
    rw [← hm, Moment.seconds]
    unfold yearStart at hstart
    omega
  have hyearhigh := hyear.2
  rw [gmtimeR_eq hm hlow]
  exact momentTm_holds hfrom (daysFromCivil_january hyear ⟨by omega, by omega⟩)

end Asteros.Libc
