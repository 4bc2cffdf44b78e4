import Asteros.Libc.Time

set_option autoImplicit false

/-!
# The calendar round trip

`gmtime_r` and `mktime` against the calendar. They are inverse to each other, and keep the order, as
long as the year and the year from 1900 are both values of an `int`: `tm_year` holds the one, and
the code computes with the other.

## Main results

* `mktime_moment` — the seconds of a moment are found from its fields.
* `calendar_roundTrip` — both round trips, and the order.
* `not_calendar_roundTrip` — the years at either end.
-/

namespace Asteros.Libc

open Gregorian

/-- The year, and the year from 1900, are values of an `int`. -/
def YearFits (m : Moment) : Prop := IsInt m.year ∧ IsInt (m.year - 1900)

/-- The fields from the year to the second. -/
def Tm.fields (tm : Tm) : List ℤ :=
  [tm.tmYear, tm.tmMon, tm.tmMday, tm.tmHour, tm.tmMin, tm.tmSec]

variable {tm tm' : Tm} {m m' : Moment}

/-- The fields of a moment are those of one `struct tm`. -/
lemma Tm.Holds.unique (h : tm.Holds m) (h' : tm'.Holds m) : tm = tm' := by
  apply Tm.ext
  · exact CInt.ext (h.second.trans h'.second.symm)
  · exact CInt.ext (h.minute.trans h'.minute.symm)
  · exact CInt.ext (h.hour.trans h'.hour.symm)
  · exact CInt.ext (h.day.trans h'.day.symm)
  · exact CInt.ext (h.month.trans h'.month.symm)
  · apply CInt.ext
    have hyear := h.year.trans h'.year.symm
    omega
  · exact CInt.ext (h.weekday.trans h'.weekday.symm)
  · exact CInt.ext (h.yearDay.trans h'.yearDay.symm)
  · exact CInt.ext (h.isdst.trans h'.isdst.symm)
  · exact CLong.ext (h.gmtoff.trans h'.gmtoff.symm)
  · exact h.zone.trans h'.zone.symm

/-- The fields are ordered as those of the moments. -/
lemma Tm.Holds.fields_lt_iff (h : tm.Holds m) (h' : tm'.Holds m') :
    tm.fields < tm'.fields ↔ m.fields < m'.fields := by
  have hyear := h.year
  have hyear' := h'.year
  simp only [Tm.fields, Moment.fields, Date.fields, List.cons_append, List.nil_append,
    List.cons_lt_cons_iff, List.not_lt_nil, and_false, or_false, h.month, h'.month, h.day, h'.day,
    h.hour, h'.hour, h.minute, h'.minute, h.second, h'.second]
  omega

/-- **The seconds of a moment are found from its fields.** -/
theorem mktime_moment (h : tm.Holds m) (hyear : IsInt m.year) :
    ((mktime tm).1 : ℤ) = m.seconds := by
  obtain ⟨hylow, hyhigh⟩ := hyear
  have hfrom := h.year
  have hlow := tm.tmYear.low
  have hday : tm.tmMday = .ofInt m.day := by
    apply CInt.ext
    rw [h.day, CInt.val_ofInt]
    have := tm.tmMday.low
    have := tm.tmMday.high
    have := h.day
    exact ⟨by omega, by omega⟩
  have hdays : daysFromCivil (.ofInt (tm.tmYear + 1900)) (.ofInt (tm.tmMon + 1)) tm.tmMday =
      m.dayNumber := by
    rw [h.year, h.month, hday]
    apply daysFromCivil_date m.toDate ⟨hylow, hyhigh⟩
    unfold marchYear
    exact ⟨by split_ifs <;> omega, by split_ifs <;> omega⟩
  have hstart := m.yearStart_le
  have hend := m.dayNumber_lt
  have hsecs := m.secondOfDay_mem
  have hseconds : m.dayNumber * 86400 + tm.tmHour * 3600 + tm.tmMin * 60 + tm.tmSec =
      m.seconds := by
    rw [h.hour, h.minute, h.second, Moment.seconds, Moment.secondOfDay]
    omega
  unfold mktime
  dsimp only
  rw [hdays, hseconds]
  apply toInt64_of_mem
  unfold yearStart at hstart hend
  rw [Moment.seconds]
  exact ⟨by omega, by omega⟩

/-- **The calendar round trip.** Every `time_t` is the number of seconds of exactly one moment. If the
year of the moment fits, `gmtime_r` gives its fields, and `mktime` leads back; a later `time_t` has
later fields. The fields of a moment whose year fits are what `gmtime_r` makes of `mktime`. -/
theorem calendar_roundTrip :
    (∀ t : CLong, ∃ m : Moment, (∀ m' : Moment, m'.seconds = t ↔ m' = m) ∧
      (YearFits m → (gmtimeR t).Holds m ∧ (mktime (gmtimeR t)).1 = t)) ∧
    (∀ (t t' : CLong) (m m' : Moment), m.seconds = t → m'.seconds = t' → YearFits m →
      YearFits m' → (t : ℤ) < t' → (gmtimeR t).fields < (gmtimeR t').fields) ∧
    ∀ (tm : Tm) (m : Moment), tm.Holds m → YearFits m → gmtimeR (mktime tm).1 = tm := by
  refine ⟨fun t => ?_, fun t t' m m' hm hm' hfits hfits' hlt => ?_, fun tm m h hfits => ?_⟩
  · obtain ⟨m, hm⟩ := exists_moment t
    refine ⟨m, fun m' => ⟨fun hm' => ?_, fun h => h ▸ hm⟩, fun hfits => ?_⟩
    · exact Moment.seconds_injective (hm'.trans hm.symm)
    have hholds := gmtimeR_moment hm hfits.1 hfits.2
    exact ⟨hholds, CLong.ext ((mktime_moment hholds hfits.1).trans hm)⟩
  · have hholds := gmtimeR_moment hm hfits.1 hfits.2
    have hholds' := gmtimeR_moment hm' hfits'.1 hfits'.2
    rw [hholds.fields_lt_iff hholds', ← Moment.seconds_lt_iff, hm, hm']
    exact hlt
  · have hseconds := mktime_moment h hfits.1
    exact (gmtimeR_moment hseconds.symm hfits.1 hfits.2).unique h

/-- The first second of a day. -/
def midnight (d : Date) : Moment :=
  ⟨d, 0, 0, 0, by omega, by omega, by omega⟩

/-- The first day of a year. -/
def newYear (y : ℤ) : Date := ⟨y, 0, 1, by omega, le_rfl, monthLength_pos y 0⟩

/-- The epoch, and the first second of the year 2000. -/
theorem calendar_roundTrip_epoch :
    (gmtimeR (.ofInt 0)).fields < (gmtimeR (.ofInt 946684800)).fields :=
  calendar_roundTrip.2.1 (.ofInt 0) (.ofInt 946684800) (midnight (newYear 1970))
    (midnight (newYear 2000)) (by decide) (by decide) ⟨by decide, by decide⟩
    ⟨by decide, by decide⟩ (by decide)

/-- The last day of the year 2147483700, which is no leap year. -/
def lastDay : Date := ⟨2147483700, 11, 31, by omega, by omega, by decide⟩

/-- The fields of its first second. -/
def lastTm : Tm where
  tmSec := .ofInt 0
  tmMin := .ofInt 0
  tmHour := .ofInt 0
  tmMday := .ofInt 31
  tmMon := .ofInt 11
  tmYear := .ofInt 2147481800
  tmWday := .ofInt lastDay.weekday
  tmYday := .ofInt 364
  tmIsdst := .ofInt 0
  tmGmtoff := .ofInt 0
  tmZone := .ofBytes (ascii "UTC")

/-- **The years at either end.** The year `INT_MIN` is an `int`, but from 1900 it is not; behind the
year `INT_MAX` it is the other way round, and the day of the year is wrong. The fields of such a
year do not come back either. -/
theorem not_calendar_roundTrip :
    (¬∀ (t : CLong) (m : Moment), m.seconds = t → IsInt m.year → (gmtimeR t).Holds m) ∧
    (¬∀ (t : CLong) (m : Moment), m.seconds = t → IsInt (m.year - 1900) →
      (gmtimeR t).Holds m) ∧
    ¬∀ (tm : Tm) (m : Moment), tm.Holds m → gmtimeR (mktime tm).1 = tm := by
  refine ⟨fun h => ?_, fun h => ?_, fun h => ?_⟩
  · have hholds := h (.ofInt (yearStart (-2147483648) * 86400)) (midnight (newYear (-2147483648)))
      (by decide +kernel) (by decide +kernel)
    have hyear : _ = (-2147483648 : ℤ) := hholds.year
    have hlow := (gmtimeR (.ofInt (yearStart (-2147483648) * 86400))).tmYear.low
    omega
  · have hholds := h (.ofInt (yearStart 2147483649 * 86400)) (midnight (newYear 2147483649))
      (by decide +kernel) (by decide +kernel)
    exact absurd hholds.yearDay (by decide +kernel)
  · have hback := h lastTm (midnight lastDay) (by constructor <;> decide +kernel)
    exact absurd (congrArg Tm.tmYday hback) (by decide +kernel)

end Asteros.Libc
