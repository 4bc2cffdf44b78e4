import Asteros.Libc.Calendar

set_option autoImplicit false

/-!
# Normalization by `mktime`

A caller may leave fields of a `struct tm` out of range: the month then carries into the year, and
the other fields are added up. The code counts months from March, so that those of two calendar
years are adjacent, but it has a table of one year only, and computes the day of the cycle of
400 years as an `unsigned`.

## Main definitions

* `instant` — the seconds that the fields stand for.
* `Normalizes` — `mktime` returns them, and leaves their fields.
* `InTable`, `HasYear` — what the code can do.

## Main results

* `cycleDay_iff` — when the day of the cycle is right.
* `gmtimeR_holds_iff` — when the fields of a moment are right.
* `normalizes_iff` — when `mktime` normalizes.
-/

namespace Asteros.Libc

open Gregorian

/-- The day that the year, the month and the day of the month stand for. -/
def instantDay (tm : Tm) : ℤ :=
  let year := (tm.tmYear : ℤ) + 1900 + (tm.tmMon : ℤ) / 12
  yearStart year + monthStart year ((tm.tmMon : ℤ) % 12).toNat + (tm.tmMday - 1)

/-- The seconds that the fields stand for. -/
def instant (tm : Tm) : ℤ :=
  instantDay tm * 86400 + tm.tmHour * 3600 + tm.tmMin * 60 + tm.tmSec

/-- `mktime` returns the seconds, and leaves the fields of their moment. -/
def Normalizes (tm : Tm) : Prop :=
  ((mktime tm).1 : ℤ) = instant tm ∧ ∀ m : Moment, m.seconds = instant tm → (mktime tm).2.Holds m

/-- The year that begins with March, if there are twelve months to a year. -/
def tmMarchYear (tm : Tm) : ℤ := tm.tmYear + 1900 - if (tm.tmMon : ℤ) < 2 then 1 else 0

/-- The month is one of the twelve of its year from March, the year is an `int`, and the day is not
before the cycle of 400 years that its month lies in. -/
def InTable (tm : Tm) : Prop :=
  (-10 ≤ (tm.tmMon : ℤ) ∧ (tm.tmMon : ℤ) ≤ 13) ∧ tmMarchYear tm < 2 ^ 31 ∧
    marchStart (tmMarchYear tm / 400 * 400) ≤ instantDay tm

/-- The seconds lie in a year that a `struct tm` can hold, up to the one behind `INT_MAX`: there the
`int` of the year wraps, and so does the difference to 1900. -/
def HasYear (n : ℤ) : Prop :=
  yearStart (-2 ^ 31 + 1900) * 86400 ≤ n ∧ n < yearStart (2 ^ 31 + 1) * 86400

/-! ## Months -/

/-- The first of a month that is counted from March of a year. -/
def firstOf (yy n : ℤ) : ℤ := marchStart (yy + n / 12) + marchMonth (n % 12)

/-- The day of a `struct tm`, counted from March of the same year, or of the one before. -/
lemma instantDay_eq (tm : Tm) :
    instantDay tm = firstOf (tm.tmYear + 1900) (tm.tmMon - 2) + tm.tmMday - 1 ∧
      instantDay tm = firstOf (tm.tmYear + 1900 - 1) (tm.tmMon + 10) + tm.tmMday - 1 := by
  have hnonneg := Int.emod_nonneg (tm.tmMon : ℤ) (show (12 : ℤ) ≠ 0 by omega)
  have hlt := Int.emod_lt_of_pos (tm.tmMon : ℤ) (show (0 : ℤ) < 12 by omega)
  unfold instantDay firstOf
  dsimp only
  rw [yearStart_add_monthStart _ (by omega), Int.toNat_of_nonneg hnonneg]
  by_cases hm : (tm.tmMon : ℤ) % 12 < 2
  · have hnat : ((tm.tmMon : ℤ) % 12).toNat < 2 := by omega
    have hyear : (tm.tmYear : ℤ) + 1900 + (tm.tmMon - 2) / 12 =
        tm.tmYear + 1900 + tm.tmMon / 12 - 1 := by omega
    have hyear' : (tm.tmYear : ℤ) + 1900 - 1 + (tm.tmMon + 10) / 12 =
        tm.tmYear + 1900 + tm.tmMon / 12 - 1 := by omega
    have hmon : ((tm.tmMon : ℤ) - 2) % 12 = tm.tmMon % 12 + 10 := by omega
    have hmon' : ((tm.tmMon : ℤ) + 10) % 12 = tm.tmMon % 12 + 10 := by omega
    rw [if_pos hnat, if_pos hnat, hyear, hyear', hmon, hmon']
    omega
  · have hnat : ¬((tm.tmMon : ℤ) % 12).toNat < 2 := by omega
    have hyear : (tm.tmYear : ℤ) + 1900 + (tm.tmMon - 2) / 12 =
        tm.tmYear + 1900 + tm.tmMon / 12 - 0 := by omega
    have hyear' : (tm.tmYear : ℤ) + 1900 - 1 + (tm.tmMon + 10) / 12 =
        tm.tmYear + 1900 + tm.tmMon / 12 - 0 := by omega
    have hmon : ((tm.tmMon : ℤ) - 2) % 12 = tm.tmMon % 12 + -2 := by omega
    have hmon' : ((tm.tmMon : ℤ) + 10) % 12 = tm.tmMon % 12 + -2 := by omega
    rw [if_neg hnat, if_neg hnat, hyear, hyear', hmon, hmon']
    omega

/-- Months of the year from March are those of the table. -/
lemma firstOf_table (yy : ℤ) {n : ℤ} (h : 0 ≤ n) (h' : n < 12) :
    firstOf yy n = marchStart yy + marchMonth n := by
  rw [firstOf, Int.ediv_eq_zero_of_lt h h', Int.emod_eq_of_lt h h', add_zero]

/-- Years have 365.2425 days, with a difference of less than three. -/
lemma marchStart_add (yy a : ℤ) :
    146097 * a - 1200 ≤ 400 * (marchStart (yy + a) - marchStart yy) ∧
      400 * (marchStart (yy + a) - marchStart yy) ≤ 146097 * a + 1200 := by
  unfold marchStart
  omega

/-- Months have 30.436875 days, with a difference of less than seven. -/
lemma firstOf_bounds (yy n : ℤ) :
    146097 * n - 30000 ≤ 4800 * (firstOf yy n - marchStart yy) ∧
      4800 * (firstOf yy n - marchStart yy) ≤ 146097 * n + 30000 := by
  have hyears := marchStart_add yy (n / 12)
  have hmonth : 5 * marchMonth (n % 12) ≤ 153 * (n % 12) + 2 ∧
      153 * (n % 12) + 2 < 5 * marchMonth (n % 12) + 5 := by
    unfold marchMonth
    omega
  unfold firstOf
  omega

/-- Months before March begin before it. -/
lemma firstOf_neg (yy : ℤ) {n : ℤ} (h : n < 0) : firstOf yy n < marchStart yy := by
  have hyears := marchStart_add yy (n / 12)
  have hmonth : marchMonth (n % 12) ≤ 337 := by
    unfold marchMonth
    omega
  unfold firstOf
  omega

/-- A table that goes on behind the year runs ahead of the calendar. -/
lemma firstOf_lt_table (yy : ℤ) {n : ℤ} (h : 12 ≤ n) :
    firstOf yy n - marchStart yy < marchMonth n := by
  have hyears := marchStart_add yy (n / 12)
  have hyear : marchStart (yy + 1) ≤ marchStart yy + 366 := by
    unfold marchStart
    omega
  have hmonth : 367 * (n / 12) + marchMonth (n % 12) ≤ marchMonth n := by
    unfold marchMonth
    omega
  unfold firstOf
  by_cases hone : n / 12 = 1
  · rw [hone] at hmonth ⊢
    omega
  · omega

/-! ## The day of the cycle -/

/-- A value of the table, after the wrapping. -/
lemma table_mem (n : ℤ) :
    0 ≤ toUnsigned (153 * n + 2) / 5 ∧ toUnsigned (153 * n + 2) / 5 < 858993460 := by
  have hnonneg := Int.emod_nonneg (153 * n + 2) (show (2 ^ 32 : ℤ) ≠ 0 by omega)
  have hlt := Int.emod_lt_of_pos (153 * n + 2) (show (0 : ℤ) < 2 ^ 32 by omega)
  unfold toUnsigned
  omega

/-- With the months behind the table, the day of the cycle is wrong as long as the product with the
number of days does not wrap, since the table runs ahead; and then again, since it can only wrap to
a day that is too early. -/
lemma cycleDay_ne (yy : ℤ) {s n d : ℤ} (hs : 0 ≤ s ∧ s < 146097) (hn : 12 ≤ n)
    (hlt : n < 2 ^ 31 + 10) (hd : IsInt d) :
    toUnsigned (s + toUnsigned (153 * n + 2) / 5 + d - 1) ≠
      s + (firstOf yy n - marchStart yy) + d - 1 := by
  obtain ⟨hdlow, hdhigh⟩ := hd
  intro h
  have hbounds := firstOf_bounds yy n
  have htable := firstOf_lt_table yy hn
  have hmem := table_mem n
  have hsmall : 153 * n + 2 < 2 ^ 32 → toUnsigned (153 * n + 2) / 5 = marchMonth n := fun hlt => by
    rw [toUnsigned_of_mem ⟨by omega, hlt⟩, marchMonth]
  -- the number of times the product wraps
  obtain ⟨j, hj, hk⟩ : ∃ j : ℤ, (2 ^ 32 * j ≤ 153 * n + 2 ∧ 153 * n + 2 < 2 ^ 32 * (j + 1)) ∧
      (153 * n + 2 - 2 ^ 32 * j - 4 ≤ 5 * (toUnsigned (153 * n + 2) / 5) ∧
        5 * (toUnsigned (153 * n + 2) / 5) ≤ 153 * n + 2 - 2 ^ 32 * j) :=
    ⟨(153 * n + 2) / 2 ^ 32, by omega, by unfold toUnsigned; omega⟩
  generalize toUnsigned (153 * n + 2) / 5 = k at h hmem hsmall hk
  generalize firstOf yy n - marchStart yy = q at h hbounds htable
  have hwrap : q = k ∨ q = k + 2 ^ 32 := by
    unfold toUnsigned at h
    omega
  by_cases hone : 153 * n + 2 < 2 ^ 32
  · have := hsmall hone
    omega
  · have hpos : 1 ≤ j := by omega
    obtain hq | hq := hwrap
    · omega
    · by_cases hfive : j ≤ 5
      · omega
      · omega

/-- **The day of the cycle is right** just for the months of the table, if it is not negative. -/
theorem cycleDay_iff (yy : ℤ) {s n d : ℤ} (hs : 0 ≤ s ∧ s < 146097)
    (hn : -2 ^ 31 + 10 ≤ n ∧ n < 2 ^ 31 + 10) (hd : IsInt d) :
    toUnsigned (s + toUnsigned (153 * n + 2) / 5 + d - 1) =
        s + (firstOf yy n - marchStart yy) + d - 1 ↔
      (0 ≤ n ∧ n < 12) ∧ 0 ≤ s + marchMonth n + d - 1 := by
  obtain ⟨hdlow, hdhigh⟩ := hd
  by_cases hneg : n < 0
  · have hfirst := firstOf_neg yy hneg
    refine iff_of_false (fun h => ?_) fun h => by omega
    have hmem := table_mem n
    generalize toUnsigned (153 * n + 2) / 5 = k at h hmem
    unfold toUnsigned at h
    omega
  · by_cases htable : n < 12
    · rw [firstOf_table yy (by omega) htable, toUnsigned_of_mem (n := 153 * n + 2) (by omega),
        ← marchMonth, add_sub_cancel_left]
      have hmonth : 0 ≤ marchMonth n ∧ marchMonth n < 400 := by
        unfold marchMonth
        omega
      constructor
      · intro h
        unfold toUnsigned at h
        omega
      · rintro ⟨-, h⟩
        exact toUnsigned_of_mem ⟨h, by omega⟩
    · exact iff_of_false (cycleDay_ne yy hs (by omega) hn.2 ⟨hdlow, hdhigh⟩) fun h => by omega

/-! ## Seconds -/

/-- The day of the cycle that a year from March begins with. -/
lemma marchStart_cycle (yy : ℤ) :
    marchStart (yy / 400 * 400) = yy / 400 * 146097 - 719468 := by
  unfold marchStart
  omega

/-- The code counts from March of the same year, but from the year before for the first three
months, for the negative ones, and for the one that wraps. -/
lemma days_iff (tm : Tm) (yy n : ℤ)
    (hyy : toInt32 (CInt.ofInt (tm.tmYear + 1900) -
      if (CInt.ofInt (tm.tmMon + 1) : ℤ) ≤ 2 then 1 else 0) = toInt32 yy)
    (hmp : (CInt.ofInt (tm.tmMon + 1) + if (CInt.ofInt (tm.tmMon + 1) : ℤ) > 2 then -3 else 9) % 2 ^ 32 =
      n % 2 ^ 32)
    (hday : instantDay tm = firstOf yy n + tm.tmMday - 1)
    (hn : -2 ^ 31 + 10 ≤ n ∧ n < 2 ^ 31 + 10) (hlow : -2 ^ 31 ≤ yy) (hhigh : yy < 2 ^ 31 + 1900) :
    daysFromCivil (.ofInt (tm.tmYear + 1900)) (.ofInt (tm.tmMon + 1)) tm.tmMday = instantDay tm ↔
      (0 ≤ n ∧ n < 12) ∧ yy < 2 ^ 31 ∧ marchStart (yy / 400 * 400) ≤ instantDay tm := by
  have hprod : toUnsigned (153 * toUnsigned (CInt.ofInt (tm.tmMon + 1) +
      if (CInt.ofInt (tm.tmMon + 1) : ℤ) > 2 then -3 else 9) + 2) = toUnsigned (153 * n + 2) := by
    unfold toUnsigned
    omega
  rw [daysFromCivil_eq, hyy, hprod, hday]
  have hdlow := tm.tmMday.low
  have hdhigh := tm.tmMday.high
  by_cases hint : yy < 2 ^ 31
  · rw [toInt32_of_isInt ⟨hlow, hint⟩, marchStart_cycle]
    have hmarch := marchStart_eq yy
    have hcycle := cycleDay_iff yy (s := 365 * (yy % 400) + yy % 400 / 4 - yy % 400 / 100)
      ⟨by omega, by omega⟩ hn ⟨hdlow, hdhigh⟩
    generalize 365 * (yy % 400) + yy % 400 / 4 - yy % 400 / 100 = s at hmarch hcycle ⊢
    constructor
    · intro h
      obtain ⟨htable, hpos⟩ := hcycle.mp (by omega)
      rw [firstOf_table yy htable.1 htable.2]
      exact ⟨htable, hint, by omega⟩
    · rintro ⟨htable, -, hpos⟩
      rw [firstOf_table yy htable.1 htable.2] at hpos
      have := hcycle.mpr ⟨htable, by omega⟩
      omega
  · have hwrap : toInt32 yy = yy - 2 ^ 32 := by
      unfold toInt32
      rw [Int.bmod_def]
      split_ifs <;> omega
    have hbounds := firstOf_bounds yy n
    have hmarch : marchStart yy ≥ 365 * yy - 719468 := by
      unfold marchStart
      omega
    refine iff_of_false (fun h => ?_) fun h => hint h.2.1
    rw [hwrap] at h
    generalize 365 * ((yy - 2 ^ 32) % 400) + (yy - 2 ^ 32) % 400 / 4 - (yy - 2 ^ 32) % 400 / 100 +
      toUnsigned (153 * n + 2) / 5 + (tm.tmMday : ℤ) - 1 = x at h
    unfold toUnsigned at h
    omega

/-- **The day that `mktime` computes is right** just for what the table covers. -/
theorem mktimeDays_iff (tm : Tm) :
    daysFromCivil (.ofInt (tm.tmYear + 1900)) (.ofInt (tm.tmMon + 1)) tm.tmMday = instantDay tm ↔
      InTable tm := by
  obtain ⟨hsame, hbefore⟩ := instantDay_eq tm
  have hylow := tm.tmYear.low
  have hyhigh := tm.tmYear.high
  have hmlow := tm.tmMon.low
  have hmhigh := tm.tmMon.high
  unfold InTable tmMarchYear
  by_cases hlast : (tm.tmMon : ℤ) = 2 ^ 31 - 1
  · have hmo : (CInt.ofInt (tm.tmMon + 1) : ℤ) = -2 ^ 31 := by
      rw [hlast]
      decide +kernel
    have hdays := days_iff tm (tm.tmYear + 1900 - 1) (tm.tmMon + 10)
      (by rw [toInt32_sub, hmo]; rfl) (by rw [hmo, hlast]; decide +kernel) hbefore
      ⟨by omega, by omega⟩ (by omega) (by omega)
    rw [hdays]
    exact iff_of_false (fun h => by omega) fun h => by omega
  · have hmo : (CInt.ofInt (tm.tmMon + 1) : ℤ) = tm.tmMon + 1 :=
      CInt.val_ofInt ⟨by omega, by omega⟩
    by_cases hm : (tm.tmMon : ℤ) < 2
    · have hdays := days_iff tm (tm.tmYear + 1900 - 1) (tm.tmMon + 10)
        (by rw [toInt32_sub, hmo, if_pos (by omega)])
        (by rw [hmo, if_neg (by omega)]; omega) hbefore ⟨by omega, by omega⟩ (by omega) (by omega)
      rw [hdays, if_pos hm]
      exact ⟨fun h => ⟨by omega, h.2⟩, fun h => ⟨by omega, h.2⟩⟩
    · have hdays := days_iff tm (tm.tmYear + 1900 - 0) (tm.tmMon - 2)
        (by rw [toInt32_sub, hmo, if_neg (by omega)])
        (by rw [hmo, if_pos (by omega)]; omega) (by rw [hsame, Int.sub_zero])
        ⟨by omega, by omega⟩ (by omega) (by omega)
      rw [hdays, if_neg hm]
      exact ⟨fun h => ⟨by omega, h.2⟩, fun h => ⟨by omega, h.2⟩⟩

/-- The seconds stay far inside of a `long`. -/
lemma mktime_eq (tm : Tm) :
    ((mktime tm).1 : ℤ) =
        daysFromCivil (.ofInt (tm.tmYear + 1900)) (.ofInt (tm.tmMon + 1)) tm.tmMday * 86400 +
          tm.tmHour * 3600 + tm.tmMin * 60 + tm.tmSec ∧
      -2 ^ 63 + 86399 ≤ ((mktime tm).1 : ℤ) := by
  have hdays : -2 ^ 40 ≤ daysFromCivil (.ofInt (tm.tmYear + 1900)) (.ofInt (tm.tmMon + 1))
        tm.tmMday ∧
      daysFromCivil (.ofInt (tm.tmYear + 1900)) (.ofInt (tm.tmMon + 1)) tm.tmMday < 2 ^ 40 := by
    rw [daysFromCivil_eq]
    generalize hx : (CInt.ofInt (tm.tmYear + 1900) -
      if (CInt.ofInt (tm.tmMon + 1) : ℤ) ≤ 2 then (1 : ℤ) else 0) = x
    have hlow := (CInt.ofInt x).low
    have hhigh := (CInt.ofInt x).high
    have hval : (CInt.ofInt x).val = toInt32 x := rfl
    rw [hval] at hlow hhigh
    generalize toUnsigned (153 * toUnsigned (CInt.ofInt (tm.tmMon + 1) +
      if (CInt.ofInt (tm.tmMon + 1) : ℤ) > 2 then -3 else 9) + 2) = k
    unfold toUnsigned
    omega
  have hhour := tm.tmHour.low
  have hhour' := tm.tmHour.high
  have hmin := tm.tmMin.low
  have hmin' := tm.tmMin.high
  have hsec := tm.tmSec.low
  have hsec' := tm.tmSec.high
  have hval : ((mktime tm).1 : ℤ) =
      daysFromCivil (.ofInt (tm.tmYear + 1900)) (.ofInt (tm.tmMon + 1)) tm.tmMday * 86400 +
        tm.tmHour * 3600 + tm.tmMin * 60 + tm.tmSec :=
    toInt64_of_mem ⟨by omega, by omega⟩
  exact ⟨hval, by omega⟩

/-! ## Fields -/

/-- The year behind `INT_MAX` wraps twice. -/
lemma daysFromCivil_wraps :
    daysFromCivil (.ofInt (2 ^ 31)) (.ofInt 1) (.ofInt 1) = yearStart (2 ^ 31) := by
  decide +kernel

/-- **The fields of a moment are right** just if `tm_year` can hold the year, and the year is at
most the one behind `INT_MAX`. -/
theorem gmtimeR_holds_iff {t : CLong} {m : Moment} (hm : m.seconds = t)
    (hlow : -2 ^ 63 + 86399 ≤ (t : ℤ)) :
    (gmtimeR t).Holds m ↔ -2 ^ 31 + 1900 ≤ m.year ∧ m.year ≤ 2 ^ 31 := by
  constructor
  · intro h
    have hylow := (gmtimeR t).tmYear.low
    have hyhigh := (gmtimeR t).tmYear.high
    have hyear := h.year
    refine ⟨by omega, ?_⟩
    by_contra hlt
    have hyday := h.yearDay
    have hmem := m.yearDay_lt
    have hnonneg := m.yearDay_nonneg
    have hsame : CInt.ofInt m.year = CInt.ofInt (m.year - 2 ^ 32) := by
      apply CInt.ext
      have hval : (CInt.ofInt m.year).val = toInt32 m.year := rfl
      have hval' : (CInt.ofInt (m.year - 2 ^ 32)).val = toInt32 (m.year - 2 ^ 32) := rfl
      rw [hval, hval']
      unfold toInt32
      simp only [Int.bmod_def]
      split_ifs <;> omega
    rw [gmtimeR_eq hm hlow] at hyday
    have hjan : (momentTm m).tmYday.val =
        toInt32 (m.dayNumber - daysFromCivil (.ofInt m.year) (.ofInt 1) (.ofInt 1)) := rfl
    rw [hjan, hsame, daysFromCivil_january ⟨by omega, by omega⟩ ⟨by omega, by omega⟩,
      Date.dayNumber] at hyday
    have hylen := yearLength_le m.year
    have hyears : 365 * 2 ^ 32 + 2 ^ 20 < yearStart m.year - yearStart (m.year - 2 ^ 32) ∧
        yearStart m.year - yearStart (m.year - 2 ^ 32) < 366 * 2 ^ 32 - 2 ^ 20 := by
      unfold yearStart
      omega
    generalize yearStart m.year = a at hyday hyears
    generalize yearStart (m.year - 2 ^ 32) = b at hyday hyears
    unfold toInt32 at hyday
    rw [Int.bmod_def] at hyday
    split_ifs at hyday <;> omega
  · rintro ⟨hylow, hyhigh⟩
    rw [gmtimeR_eq hm hlow]
    apply momentTm_holds ⟨by omega, by omega⟩
    by_cases hlast : m.year = 2 ^ 31
    · rw [hlast]
      exact daysFromCivil_wraps
    · exact daysFromCivil_january ⟨by omega, by omega⟩ ⟨by omega, by omega⟩

/-- A moment lies in its year. -/
lemma hasYear_iff {m : Moment} :
    HasYear m.seconds ↔ -2 ^ 31 + 1900 ≤ m.year ∧ m.year ≤ 2 ^ 31 := by
  have hday := m.secondOfDay_mem
  have hstart := m.yearStart_le
  have hend := m.dayNumber_lt
  unfold HasYear Moment.seconds
  constructor
  · rintro ⟨hlow, hhigh⟩
    constructor
    · by_contra h
      have := yearStart_mono (show m.year + 1 ≤ -2 ^ 31 + 1900 by omega)
      omega
    · by_contra h
      have := yearStart_mono (show 2 ^ 31 + 1 ≤ m.year by omega)
      omega
  · rintro ⟨hlow, hhigh⟩
    have hmono := yearStart_mono hlow
    have hmono' := yearStart_mono (show m.year + 1 ≤ 2 ^ 31 + 1 by omega)
    exact ⟨by omega, by omega⟩

/-- **`mktime` normalizes** just if the month is one of the twelve that the table covers, its year
is an `int`, the day is not before its cycle of 400 years, and a `struct tm` can hold the year of
the result. -/
theorem normalizes_iff (tm : Tm) : Normalizes tm ↔ InTable tm ∧ HasYear (instant tm) := by
  obtain ⟨hval, hlow⟩ := mktime_eq tm
  have hseconds : ((mktime tm).1 : ℤ) = instant tm ↔ InTable tm := by
    rw [← mktimeDays_iff, hval]
    unfold instant
    constructor <;> intro h <;> omega
  unfold Normalizes
  rw [hseconds]
  refine and_congr_right fun htable => ?_
  have ht := hseconds.mpr htable
  constructor
  · intro h
    obtain ⟨m, hm⟩ := exists_moment (instant tm)
    rw [← hm, hasYear_iff, ← gmtimeR_holds_iff (hm.trans ht.symm) hlow]
    exact h m hm
  · intro h m hm
    rw [← hm, hasYear_iff] at h
    exact (gmtimeR_holds_iff (hm.trans ht.symm) hlow).mpr h

/-- The midnight of a day that is given by its fields. -/
def dayTm (year month day : ℤ) : Tm where
  tmSec := .ofInt 0
  tmMin := .ofInt 0
  tmHour := .ofInt 0
  tmMday := .ofInt day
  tmMon := .ofInt month
  tmYear := .ofInt (year - 1900)
  tmWday := .ofInt 0
  tmYday := .ofInt 0
  tmIsdst := .ofInt 0
  tmGmtoff := .ofInt 0
  tmZone := .ofBytes (ascii "UTC")

/-- **The month 24 of 1970** is not taken to January 1972, nor the day 0 of March 2000 to the last
day of February: its day of the cycle is negative. -/
theorem not_normalizes_carry :
    ¬Normalizes (dayTm 1970 24 1) ∧ ¬Normalizes (dayTm 2000 2 0) :=
  ⟨fun h => absurd h.1 (by decide +kernel), fun h => absurd h.1 (by decide +kernel)⟩

end Asteros.Libc
