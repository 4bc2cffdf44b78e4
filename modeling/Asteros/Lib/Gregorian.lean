import Mathlib.Algebra.Order.Ring.Int
import Mathlib.Data.List.Lex
import Mathlib.Order.Monotone.Basic
import Mathlib.Tactic.SplitIfs

set_option autoImplicit false

/-!
# The Gregorian calendar

The calendar is extended to all years, the year before 1 being 0. Days are counted from the first of
January 1970, and seconds from its midnight, with all days of the same length. Months count from
zero.

## Main definitions

* `IsLeap`, `monthLength`, `yearLength` — the rules of the calendar.
* `Date`, `Date.dayNumber` — a date that exists, and the number of its day.
* `Moment`, `Moment.seconds` — a time of a day, and its number of seconds.

## Main results

* `yearStart_succ`, `monthStart_twelve` — years and months follow each other without a gap.
* `exists_moment`, `Moment.seconds_injective` — a number of seconds is that of one moment.
* `Moment.seconds_lt` — moments are ordered as their fields are.
-/

namespace Gregorian

/-! ## The rules -/

/-- The year has 366 days. -/
def IsLeap (y : ℤ) : Prop := y % 4 = 0 ∧ (y % 100 ≠ 0 ∨ y % 400 = 0)

instance (y : ℤ) : Decidable (IsLeap y) := inferInstanceAs (Decidable (_ ∧ (_ ∨ _)))

/-- The number of days of a year. -/
def yearLength (y : ℤ) : ℤ := if IsLeap y then 366 else 365

/-- The number of days of a month. -/
def monthLength (y : ℤ) : ℕ → ℤ
  | 1 => if IsLeap y then 29 else 28
  | 3 | 5 | 8 | 10 => 30
  | _ => 31

/-- The number of days of the year in front of a month. -/
def monthStart (y : ℤ) : ℕ → ℤ
  | 0 => 0
  | m + 1 => monthStart y m + monthLength y m

/-- The number of the first day of a year. -/
def yearStart (y : ℤ) : ℤ := 365 * (y - 1) + (y - 1) / 4 - (y - 1) / 100 + (y - 1) / 400 - 719162

/-- A year has at least 365 days. -/
lemma yearLength_pos (y : ℤ) : 0 < yearLength y := by
  unfold yearLength
  split_ifs <;> omega

/-- A year has at most 366 days. -/
lemma yearLength_le (y : ℤ) : yearLength y ≤ 366 := by
  unfold yearLength
  split_ifs <;> omega

/-- A month has at least 28 days. -/
lemma monthLength_pos (y : ℤ) (m : ℕ) : 0 < monthLength y m := by
  unfold monthLength
  split
  · split_ifs <;> omega
  all_goals omega

/-- A month has at most 31 days. -/
lemma monthLength_le (y : ℤ) (m : ℕ) : monthLength y m ≤ 31 := by
  unfold monthLength
  split
  · split_ifs <;> omega
  all_goals omega

/-- **A year begins where the one before it ends.** -/
theorem yearStart_succ (y : ℤ) : yearStart (y + 1) = yearStart y + yearLength y := by
  unfold yearStart yearLength IsLeap
  split_ifs <;> omega

/-- **The twelve months make up the year.** -/
theorem monthStart_twelve (y : ℤ) : monthStart y 12 = yearLength y := by
  simp only [monthStart, monthLength, yearLength]
  split_ifs <;> omega

/-- Later years begin later. -/
lemma yearStart_mono {y y' : ℤ} (h : y ≤ y') : yearStart y ≤ yearStart y' :=
  monotone_int_of_le_succ (f := yearStart) (fun y => by
    have := yearLength_pos y
    rw [yearStart_succ]
    omega) h

/-- Later months begin later. -/
lemma monthStart_mono (y : ℤ) {m m' : ℕ} (h : m ≤ m') : monthStart y m ≤ monthStart y m' :=
  monotone_nat_of_le_succ (f := monthStart y) (fun m => by
    have := monthLength_pos y m
    rw [monthStart]
    omega) h

/-- The first value that steps cover lies in one of them. -/
lemma exists_step {f : ℕ → ℤ} {r : ℤ} {k : ℕ} (h0 : f 0 ≤ r) (hk : r < f k) :
    ∃ m < k, f m ≤ r ∧ r < f (m + 1) := by
  induction k with
  | zero => omega
  | succ k ih =>
    by_cases h : r < f k
    · obtain ⟨m, hm, hr⟩ := ih h
      exact ⟨m, by omega, hr⟩
    · exact ⟨k, by omega, by omega, hk⟩

/-- A day lies in some year. -/
lemma exists_year (n : ℤ) : ∃ y, yearStart y ≤ n ∧ n < yearStart (y + 1) := by
  have hlow : yearStart (1970 - n.natAbs + (0 : ℕ)) ≤ n := by
    unfold yearStart
    omega
  have hhigh : n < yearStart (1970 - n.natAbs + (2 * n.natAbs + 1 : ℕ)) := by
    unfold yearStart
    omega
  obtain ⟨j, -, hle, hlt⟩ := exists_step (f := fun j : ℕ => yearStart (1970 - n.natAbs + j))
    hlow hhigh
  refine ⟨1970 - n.natAbs + j, hle, ?_⟩
  rw [Int.add_assoc]
  exact hlt

/-! ## Dates -/

/-- A date of the calendar. -/
@[ext] structure Date where
  /-- The year. -/
  year : ℤ
  /-- The month, from zero. -/
  month : ℕ
  /-- The day of the month, from one. -/
  day : ℤ
  /-- There are twelve months. -/
  month_lt : month < 12
  /-- Days count from one. -/
  day_pos : 1 ≤ day
  /-- The month has the day. -/
  day_le : day ≤ monthLength year month

namespace Date

variable (d d' : Date)

/-- The number of the day in the year, from zero. -/
def yearDay : ℤ := monthStart d.year d.month + (d.day - 1)

/-- The number of the day. -/
def dayNumber : ℤ := yearStart d.year + d.yearDay

/-- The day of the week, from Sunday: the first of January 1970 was a Thursday. -/
def weekday : ℤ := (d.dayNumber + 4) % 7

/-- The year, the month and the day. -/
def fields : List ℤ := [d.year, d.month, d.day]

/-- A day lies in its month. -/
lemma yearDay_lt_monthStart : d.yearDay < monthStart d.year (d.month + 1) := by
  have := d.day_le
  rw [monthStart, yearDay]
  omega

/-- A day lies in its year. -/
lemma yearDay_lt : d.yearDay < yearLength d.year := by
  have hmono := monthStart_mono d.year d.month_lt
  have hlt := d.yearDay_lt_monthStart
  rw [← monthStart_twelve]
  exact hlt.trans_le hmono

/-- Days of the year count from zero. -/
lemma yearDay_nonneg : 0 ≤ d.yearDay := by
  have hmono := monthStart_mono d.year (Nat.zero_le d.month)
  have := d.day_pos
  rw [monthStart] at hmono
  rw [yearDay]
  omega

/-- A day lies behind the beginning of its year. -/
lemma yearStart_le : yearStart d.year ≤ d.dayNumber := by
  have := d.yearDay_nonneg
  rw [dayNumber]
  omega

/-- A day lies before the beginning of the next year. -/
lemma dayNumber_lt : d.dayNumber < yearStart (d.year + 1) := by
  have := d.yearDay_lt
  rw [dayNumber, yearStart_succ]
  omega

variable {d d'}

/-- An earlier date has a lower number. -/
lemma dayNumber_strict (h : d.fields < d'.fields) : d.dayNumber < d'.dayNumber := by
  simp only [fields, List.cons_lt_cons_iff] at h
  obtain hyear | ⟨hyear, hmonth | ⟨hmonth, hday | ⟨-, hnil⟩⟩⟩ := h
  · have hmono := yearStart_mono (show d.year + 1 ≤ d'.year by omega)
    have hlt := d.dayNumber_lt
    have hle := d'.yearStart_le
    omega
  · have hmono := monthStart_mono d.year (show d.month + 1 ≤ d'.month by omega)
    have hlt := d.yearDay_lt_monthStart
    have hpos := d'.day_pos
    rw [dayNumber, dayNumber, yearDay.eq_1 d', ← hyear]
    omega
  · rw [dayNumber, dayNumber, yearDay, yearDay, ← hyear, ← Nat.cast_injective hmonth]
    omega
  · exact absurd hnil (List.not_lt_nil _)

end Date

/-- A number of days is that of some date. -/
lemma exists_date (n : ℤ) : ∃ d : Date, d.dayNumber = n := by
  obtain ⟨y, hle, hlt⟩ := exists_year n
  rw [yearStart_succ, ← monthStart_twelve] at hlt
  have hzero : monthStart y 0 ≤ n - yearStart y := by
    rw [monthStart]
    omega
  obtain ⟨m, hm, hml, hmu⟩ := exists_step hzero (show n - yearStart y < monthStart y 12 by omega)
  rw [monthStart] at hmu
  refine ⟨⟨y, m, n - yearStart y - monthStart y m + 1, hm, by omega, by omega⟩, ?_⟩
  rw [Date.dayNumber, Date.yearDay]
  dsimp only
  omega

/-! ## Moments -/

/-- A second of a day. -/
@[ext] structure Moment extends Date where
  /-- The hour. -/
  hour : ℤ
  /-- The minute. -/
  minute : ℤ
  /-- The second. -/
  second : ℤ
  /-- A day has 24 hours. -/
  hour_mem : 0 ≤ hour ∧ hour < 24
  /-- An hour has 60 minutes. -/
  minute_mem : 0 ≤ minute ∧ minute < 60
  /-- A minute has 60 seconds. -/
  second_mem : 0 ≤ second ∧ second < 60

namespace Moment

variable (m m' : Moment)

/-- The number of the second in the day. -/
def secondOfDay : ℤ := m.hour * 3600 + m.minute * 60 + m.second

/-- The number of the second. -/
def seconds : ℤ := m.dayNumber * 86400 + m.secondOfDay

/-- The fields, from the year to the second. -/
def fields : List ℤ := m.toDate.fields ++ [m.hour, m.minute, m.second]

/-- Seconds of the day count from zero. -/
lemma secondOfDay_mem : 0 ≤ m.secondOfDay ∧ m.secondOfDay < 86400 := by
  have hhour := m.hour_mem
  have hminute := m.minute_mem
  have hsecond := m.second_mem
  unfold secondOfDay
  omega

variable {m m'}

/-- **Moments are ordered as their fields are.** -/
theorem seconds_lt (h : m.fields < m'.fields) : m.seconds < m'.seconds := by
  have hm := m.secondOfDay_mem
  have hm' := m'.secondOfDay_mem
  rw [seconds, seconds]
  by_cases hdate : m.toDate.fields < m'.toDate.fields
  · have := Date.dayNumber_strict hdate
    omega
  · simp only [fields, Date.fields, List.cons_append, List.nil_append, List.cons_lt_cons_iff,
      List.not_lt_nil, and_false, or_false] at h hdate
    have hday : m.dayNumber = m'.dayNumber := by
      have hyear : m.year = m'.year := by omega
      have hmonth : m.month = m'.month := by omega
      have hday : m.day = m'.day := by omega
      rw [Date.dayNumber, Date.dayNumber, Date.yearDay, Date.yearDay, hyear, hmonth, hday]
    have hhour := m.hour_mem
    have hminute := m.minute_mem
    have hsecond := m.second_mem
    have hhour' := m'.hour_mem
    have hminute' := m'.minute_mem
    have hsecond' := m'.second_mem
    rw [hday, secondOfDay, secondOfDay]
    omega

/-- Moments with the same fields are equal. -/
lemma fields_injective (h : m.fields = m'.fields) : m = m' := by
  simp only [fields, Date.fields, List.cons_append, List.nil_append, List.cons.injEq,
    Nat.cast_inj, and_true] at h
  obtain ⟨hyear, hmonth, hday, hhour, hminute, hsecond⟩ := h
  exact Moment.ext hyear hmonth hday hhour hminute hsecond

/-- A moment is earlier just if its fields are. -/
lemma seconds_lt_iff : m.seconds < m'.seconds ↔ m.fields < m'.fields := by
  refine ⟨fun h => ?_, seconds_lt⟩
  obtain hlt | heq | hlt := lt_trichotomy m.fields m'.fields
  · exact hlt
  · rw [fields_injective heq] at h
    exact absurd h (lt_irrefl _)
  · exact absurd h (seconds_lt hlt).not_gt

/-- Moments with the same number of seconds are equal. -/
lemma seconds_injective (h : m.seconds = m'.seconds) : m = m' := by
  obtain hlt | heq | hlt := lt_trichotomy m.fields m'.fields
  · exact absurd h (seconds_lt hlt).ne
  · exact fields_injective heq
  · exact absurd h (seconds_lt hlt).ne'

end Moment

/-- **Every number of seconds is that of some moment.** -/
theorem exists_moment (n : ℤ) : ∃ m : Moment, m.seconds = n := by
  obtain ⟨d, hd⟩ := exists_date (n / 86400)
  refine ⟨⟨d, n % 86400 / 3600, n % 3600 / 60, n % 60, by omega, by omega, by omega⟩, ?_⟩
  rw [Moment.seconds, Moment.secondOfDay]
  dsimp only
  rw [hd]
  omega

end Gregorian
