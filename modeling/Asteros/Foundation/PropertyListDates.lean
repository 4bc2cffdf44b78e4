import Asteros.Foundation.PropertyListRoundTrip
import Asteros.Lib.NearestEven
import Asteros.Libc.Calendar
import Asteros.Libc.FormatIntegers
import Asteros.Libc.Scanf

set_option autoImplicit false

/-!
# Dates in property lists

An `NSDate` holds a `double`, the seconds from the year 2001. It is written as the fields of
`gmtime_r`, and what `sscanf` reads of them goes through `mktime`. The doubles here are those of
integral value: adding and subtracting rounds to 53 bits, and no sum is near the largest one.

## Main definitions

* `NSDate` — dates, and the seconds from 1970 that they are made of.
* `formatDate`, `parseDate` — the text of a date.

## Main results

* `parseDate_formatDate` — the text of a date is read back.
* `date_roundTrip` — so is a property list that is a date.
-/

namespace Asteros.Foundation

open Asteros.Libc Asteros.CoreFoundation Gregorian

variable {δ : Type}

/-! ## Dates -/

/-- `kCFAbsoluteTimeIntervalSince1970`. -/
def absoluteTimeIntervalSince1970 : ℤ := 978307200

/-- A date: the `at` of the `CFDate`, if it is integral. -/
structure NSDate where
  /-- The seconds from the first instant of the year 2001. -/
  «at» : ℤ
  deriving DecidableEq

namespace NSDate

/-- `+dateWithTimeIntervalSince1970:`. -/
def withTimeIntervalSince1970 (seconds : ℤ) : NSDate :=
  ⟨NearestEven.round 53 (seconds - absoluteTimeIntervalSince1970)⟩

/-- `-timeIntervalSince1970`. -/
def timeIntervalSince1970 (d : NSDate) : ℤ :=
  NearestEven.round 53 (d.at + absoluteTimeIntervalSince1970)

/-- `(time_t)[value timeIntervalSince1970]`, for a value of the type. -/
def secs (d : NSDate) : BitVec 64 := BitVec.ofInt 64 d.timeIntervalSince1970

/-- `[NSDate dateWithTimeIntervalSince1970:(NSTimeInterval)secs]`. -/
def ofSecs (secs : BitVec 64) : NSDate :=
  withTimeIntervalSince1970 (NearestEven.round 53 secs.toInt)

/-- A small integer is the value of a `double`. -/
lemma round_of_small {n : ℤ} (h : n.natAbs < 2 ^ 53) : NearestEven.round 53 n = n :=
  NearestEven.round_of_representable (by decide) ⟨n.natAbs, 0, h, by rw [pow_zero, mul_one]⟩

/-- A date is made of its seconds from 1970, and gives them back, as long as they are few. -/
lemma timeIntervalSince1970_with {t : ℤ} (h : t.natAbs < 2 ^ 52) :
    (withTimeIntervalSince1970 t).timeIntervalSince1970 = t := by
  unfold timeIntervalSince1970 withTimeIntervalSince1970 absoluteTimeIntervalSince1970
  dsimp only
  rw [round_of_small (n := t - 978307200) (by omega), sub_add_cancel,
    round_of_small (n := t) (by omega)]

/-- So does a `time_t`. -/
lemma ofSecs_secs {t : ℤ} (h : t.natAbs < 2 ^ 52) :
    ofSecs (withTimeIntervalSince1970 t).secs = withTimeIntervalSince1970 t := by
  have hint : (BitVec.ofInt 64 t).toInt = t := by
    rw [BitVec.toInt_ofInt_eq_self (by decide) (by omega) (by omega)]
  rw [ofSecs, secs, timeIntervalSince1970_with h, hint, round_of_small (n := t) (by omega)]

end NSDate

/-! ## The text of a date -/

/-- An argument of type `int`. -/
def intArg (n : CInt) : VaArg := .word (BitVec.ofInt 64 n)

/-- The format of a date. -/
def datePrintFormat : CString := CString.ofBytes (ascii "%04d-%02d-%02dT%02d:%02d:%02dZ")

/-- The format that a date is read by. -/
def dateScanFormat : CString := CString.ofBytes (ascii "%d-%d-%dT%d:%d:%dZ")

/-- What `buf` holds after `gmtime_r` and `snprintf`. It has room for every date. -/
def formatDate (secs : BitVec 64) : CString :=
  let tm := gmtimeR (.ofInt secs.toInt)
  (vsnprintf 32 datePrintFormat
    [intArg (.ofInt (tm.tmYear + 1900)), intArg (.ofInt (tm.tmMon + 1)), intArg tm.tmMday,
      intArg tm.tmHour, intArg tm.tmMin, intArg tm.tmSec]).getD (.ofBytes [])

/-- The `struct tm` of the fields that were read: `memset` clears the others. -/
def dateTm (y mo d h mi s : BitVec 32) : Tm where
  tmSec := .ofInt s.toInt
  tmMin := .ofInt mi.toInt
  tmHour := .ofInt h.toInt
  tmMday := .ofInt d.toInt
  tmMon := .ofInt (mo.toInt - 1)
  tmYear := .ofInt (y.toInt - 1900)
  tmWday := .ofInt 0
  tmYday := .ofInt 0
  tmIsdst := .ofInt 0
  tmGmtoff := .ofInt 0
  tmZone := .ofBytes []

/-- `sscanf` and `mktime`: `none` if not all six fields were read. -/
def parseDate (strtod : List UInt8 → δ × List UInt8) (text : CString) : Option (BitVec 64) :=
  match sscanf strtod text dateScanFormat with
  | [.int y, .int mo, .int d, .int h, .int mi, .int s] =>
    some (BitVec.ofInt 64 (mktime (dateTm y mo d h mi s)).1)
  | _ => none

/-- The library with dates. -/
def withDates (lib : Library δ) (strtod : List UInt8 → δ × List UInt8) : Library δ :=
  { lib with formatDate := formatDate, parseDate := parseDate strtod }

/-- The text of the fields of a moment. -/
def momentText (m : Moment) : List UInt8 :=
  (paddedDigits 4 m.year.toNat).map digitChar ++ (byte '-' ::
    ((paddedDigits 2 (m.month + 1)).map digitChar ++ (byte '-' ::
      ((paddedDigits 2 m.day.toNat).map digitChar ++ (byte 'T' ::
        ((paddedDigits 2 m.hour.toNat).map digitChar ++ (byte ':' ::
          ((paddedDigits 2 m.minute.toNat).map digitChar ++ (byte ':' ::
            ((paddedDigits 2 m.second.toNat).map digitChar ++ [byte 'Z']))))))))))

/-- There is no NUL in the text of digits. -/
lemma digits_nulFree (width n : ℕ) : 0 ∉ (paddedDigits width n).map digitChar := by
  intro h
  obtain ⟨d, hd, hzero⟩ := List.mem_map.mp h
  have hval := toNat_digitChar (paddedDigits_lt width n d hd)
  rw [hzero] at hval
  have hz : (0 : UInt8).toNat = 0 := rfl
  omega

/-- There is no NUL in the text of a moment. -/
lemma momentText_nulFree (m : Moment) : 0 ∉ momentText m := by
  have hbyte : (0 : UInt8) ≠ byte '-' ∧ (0 : UInt8) ≠ byte 'T' ∧ (0 : UInt8) ≠ byte ':' ∧
    (0 : UInt8) ≠ byte 'Z' := by decide
  unfold momentText
  simp only [List.mem_append, List.mem_cons, digits_nulFree, hbyte, List.not_mem_nil, or_self,
    not_false_eq_true]

/-! ## Printing -/

/-- A field that is not negative, as `va_arg` takes it. -/
lemma vaInt_intArg {n : ℕ} (hn : n < 2 ^ 31) {c : CInt} (hc : (c : ℤ) = n) (ap : List VaArg) :
    vaInt (intArg c :: ap) = some (BitVec.ofNat 64 n, ap) := by
  have hword : ((BitVec.ofNat 64 n).truncate 32).signExtend 64 = BitVec.ofNat 64 n := by
    apply BitVec.eq_of_toInt_eq
    rw [BitVec.toInt_signExtend_of_le (by decide), BitVec.truncate_eq_setWidth,
      BitVec.setWidth_ofNat_of_le (by decide), BitVec.toInt_ofNat', BitVec.toInt_ofNat']
    rw [Int.bmod_eq_of_le (by omega) (by omega), Int.bmod_eq_of_le (by omega) (by omega)]
  rw [intArg, hc, vaInt, BitVec.ofInt_natCast, hword]

/-- What stands between `%` and `d`. -/
lemma directive_padded {width : ℕ} (hpos : width ≠ 0) (hlt : width < 10) (p : List UInt8)
    (ap : List VaArg) :
    Libc.directive (byte '0' :: digitChar width :: byte 'd' :: p) ap =
      some (⟨true, false, width, 0⟩, byte 'd' :: p, ap) := by
  obtain ⟨h0, hm, hs⟩ := firstDigit_ne hpos hlt
  have hflags : flags (byte '0' :: digitChar width :: byte 'd' :: p) false false =
      (true, false, digitChar width :: byte 'd' :: p) :=
    flags_map [.zero] false false h0 hm (byte 'd' :: p)
  have hdigits : ∀ d ∈ [width], d < 10 := by simpa using hlt
  have hwidth := widthDigits_map hdigits 0 (show isdigit (byte 'd') = false by decide) p
  have hzero : toInt32 ((0 : ℕ) : ℤ) = 0 := by decide
  have hfold : [width].foldl (fun a d => a * 10 + d) 0 = width := by simp
  have hint : toInt32 width = width := toInt32_of_isInt ⟨by omega, by omega⟩
  rw [hzero, hfold, hint, List.map_singleton, List.singleton_append] at hwidth
  unfold Libc.directive
  simp only [hflags, if_neg hs, hwidth]
  rfl

/-- `%0wd`, and the format behind it. -/
lemma expansionLoop_field {width n : ℕ} (hpos : width ≠ 0) (hlt : width < 10) (hn : n < 2 ^ 31)
    {v : CInt} (hv : (v : ℤ) = n) (fuel : ℕ) (p : List UInt8) (ap : List VaArg) :
    expansionLoop (fuel + 1) (byte '%' :: byte '0' :: digitChar width :: byte 'd' :: p)
        (intArg v :: ap) =
      (expansionLoop fuel p ap).map ((paddedDigits width n).map digitChar ++ ·) := by
  have htext : Libc.conversion ⟨true, false, width, 0⟩ (byte 'd') (intArg v :: ap) =
      some ((paddedDigits width n).map digitChar, ap) := by
    have htake := vaInt_intArg hn hv ap
    rw [Libc.conversion, if_pos (Or.inl rfl)]
    simp only [ne_eq, not_true_eq_false, if_false, htake, Option.bind_eq_bind, Option.bind_some,
      signedText_padded width (show n < 2 ^ 63 by omega)]
  rw [expansionLoop, if_pos rfl, directive_padded hpos hlt]
  simp only [Option.bind_eq_bind, Option.bind_some, htext]

/-! ## The fields of a moment -/

/-- A year of four digits. -/
def YearPrints (m : Moment) : Prop := 0 ≤ m.year ∧ m.year ≤ 9999

variable {m : Moment} {secs : BitVec 64}

/-- What `gmtime_r` makes of the seconds. -/
lemma gmtimeR_holds (hm : m.seconds = secs.toInt) (hyear : YearPrints m) :
    (gmtimeR (.ofInt secs.toInt)).Holds m := by
  obtain ⟨hlow, hhigh⟩ := hyear
  have hval : (CLong.ofInt secs.toInt : ℤ) = secs.toInt :=
    toInt64_of_mem ⟨BitVec.le_toInt secs, BitVec.toInt_lt⟩
  exact gmtimeR_moment (hm.trans hval.symm) ⟨by omega, by omega⟩ ⟨by omega, by omega⟩

/-- **The text of a date** is that of the fields of its moment. -/
lemma formatDate_bytes (hm : m.seconds = secs.toInt) (hyear : YearPrints m) :
    (formatDate secs).bytes = momentText m := by
  have hholds := gmtimeR_holds hm hyear
  obtain ⟨hlow, hhigh⟩ := hyear
  have hday := m.day_pos
  have hlen := m.day_le.trans (monthLength_le m.year m.month)
  have hmonth := m.month_lt
  have hhour := m.hour_mem
  have hminute := m.minute_mem
  have hsecond := m.second_mem
  have hy : (CInt.ofInt ((gmtimeR (.ofInt secs.toInt)).tmYear + 1900) : ℤ) = m.year.toNat := by
    rw [hholds.year, CInt.val_ofInt ⟨by omega, by omega⟩]
    omega
  have hmo : (CInt.ofInt ((gmtimeR (.ofInt secs.toInt)).tmMon + 1) : ℤ) = (m.month + 1 : ℕ) := by
    rw [hholds.month, CInt.val_ofInt ⟨by omega, by omega⟩]
    rfl
  have hd : ((gmtimeR (.ofInt secs.toInt)).tmMday : ℤ) = m.day.toNat := by
    rw [hholds.day]
    omega
  have hh : ((gmtimeR (.ofInt secs.toInt)).tmHour : ℤ) = m.hour.toNat := by
    rw [hholds.hour]
    omega
  have hmi : ((gmtimeR (.ofInt secs.toInt)).tmMin : ℤ) = m.minute.toNat := by
    rw [hholds.minute]
    omega
  have hs : ((gmtimeR (.ofInt secs.toInt)).tmSec : ℤ) = m.second.toNat := by
    rw [hholds.second]
    omega
  have hfmt : datePrintFormat.bytes =
      byte '%' :: byte '0' :: digitChar 4 :: byte 'd' :: byte '-' ::
      byte '%' :: byte '0' :: digitChar 2 :: byte 'd' :: byte '-' ::
      byte '%' :: byte '0' :: digitChar 2 :: byte 'd' :: byte 'T' ::
      byte '%' :: byte '0' :: digitChar 2 :: byte 'd' :: byte ':' ::
      byte '%' :: byte '0' :: digitChar 2 :: byte 'd' :: byte ':' ::
      byte '%' :: byte '0' :: digitChar 2 :: byte 'd' :: [byte 'Z'] := by decide
  have hexp : expansion datePrintFormat
      [intArg (.ofInt ((gmtimeR (.ofInt secs.toInt)).tmYear + 1900)),
        intArg (.ofInt ((gmtimeR (.ofInt secs.toInt)).tmMon + 1)),
        intArg (gmtimeR (.ofInt secs.toInt)).tmMday, intArg (gmtimeR (.ofInt secs.toInt)).tmHour,
        intArg (gmtimeR (.ofInt secs.toInt)).tmMin, intArg (gmtimeR (.ofInt secs.toInt)).tmSec] =
      some (momentText m) := by
    rw [expansion, CString.strlen, hfmt]
    simp only [List.length_cons, List.length_nil, Nat.zero_add]
    rw [expansionLoop_field (by decide) (by decide) (by omega) hy,
      expansionLoop_literal (by decide),
      expansionLoop_field (by decide) (by decide) (by omega) hmo,
      expansionLoop_literal (by decide),
      expansionLoop_field (by decide) (by decide) (by omega) hd,
      expansionLoop_literal (by decide),
      expansionLoop_field (by decide) (by decide) (by omega) hh,
      expansionLoop_literal (by decide),
      expansionLoop_field (by decide) (by decide) (by omega) hmi,
      expansionLoop_literal (by decide),
      expansionLoop_field (by decide) (by decide) (by omega) hs,
      expansionLoop_literal (by decide), expansionLoop]
    rfl
  have htwo : ∀ n : ℕ, n < 100 → (paddedDigits 2 n).length = 2 := fun n hn =>
    length_paddedDigits (by decide) (by omega)
  have hlength : (momentText m).length < 32 := by
    unfold momentText
    simp only [List.length_append, List.length_cons, List.length_map, List.length_nil,
      length_paddedDigits (show 0 < 4 by decide) (show m.year.toNat < 10 ^ 4 by omega),
      htwo _ (show m.month + 1 < 100 by omega), htwo _ (show m.day.toNat < 100 by omega),
      htwo _ (show m.hour.toNat < 100 by omega), htwo _ (show m.minute.toNat < 100 by omega),
      htwo _ (show m.second.toNat < 100 by omega)]
    decide
  unfold formatDate
  dsimp only
  rw [vsnprintf, vformat_eq, hexp]
  simp only [Option.map_some, Option.bind_eq_bind, Option.bind_some, Sink.contents_after hlength,
    Option.getD_some]
  exact CString.bytes_ofBytes_of_nulFree (momentText_nulFree m)

/-! ## Scanning -/

/-- A field that was read, as an `int`. -/
lemma toInt_field {n : ℤ} (hn : 0 ≤ n) (hlt : n < 2 ^ 31) :
    (BitVec.ofNat 32 n.toNat).toInt = n := by
  rw [BitVec.toInt_ofNat', Int.bmod_eq_of_le (by omega) (by omega)]
  omega

/-- It is kept. -/
lemma ofInt_field {n : ℤ} (hn : 0 ≤ n) (hlt : n < 2 ^ 31) :
    (CInt.ofInt (BitVec.ofNat 32 n.toNat).toInt : ℤ) = n := by
  rw [toInt_field hn hlt, CInt.val_ofInt ⟨by omega, hlt⟩]

/-- All six fields are read from the text of a moment. -/
lemma sscanf_momentText (strtod : List UInt8 → δ × List UInt8) {text : CString}
    (htext : text.bytes = momentText m) :
    sscanf strtod text dateScanFormat =
      [.int (BitVec.ofNat 32 m.year.toNat), .int (BitVec.ofNat 32 (m.month + 1)),
        .int (BitVec.ofNat 32 m.day.toNat), .int (BitVec.ofNat 32 m.hour.toNat),
        .int (BitVec.ofNat 32 m.minute.toNat), .int (BitVec.ofNat 32 m.second.toNat)] := by
  have hfmt : dateScanFormat.bytes =
      byte '%' :: byte 'd' :: byte '-' :: byte '%' :: byte 'd' :: byte '-' ::
      byte '%' :: byte 'd' :: byte 'T' :: byte '%' :: byte 'd' :: byte ':' ::
      byte '%' :: byte 'd' :: byte ':' :: byte '%' :: byte 'd' :: [byte 'Z'] := by decide
  have hends : ∀ b ∈ [byte '-', byte 'T', byte ':', byte 'Z'], ∀ rest, EndsDigits (b :: rest) := by
    intro b hb rest c hc
    obtain rfl : b = c := Option.some.inj hc
    simp only [List.mem_cons, List.not_mem_nil, or_false] at hb
    rcases hb with rfl | rfl | rfl | rfl <;> decide
  have hbyte : (0 : UInt8) ≠ byte '-' ∧ (0 : UInt8) ≠ byte 'T' ∧ (0 : UInt8) ≠ byte ':' ∧
    (0 : UInt8) ≠ byte 'Z' := by decide
  have hfield : ∀ (width n fuel : ℕ) (b : UInt8) (p rest : List UInt8),
      b ∈ [byte '-', byte 'T', byte ':', byte 'Z'] → 0 ∉ rest →
      doVsscanf strtod (fuel + 2) (byte '%' :: byte 'd' :: b :: p)
          ((paddedDigits width n).map digitChar ++ b :: rest) =
        .int (BitVec.ofNat 32 n) :: doVsscanf strtod fuel p rest := by
    intro width n fuel b p rest hb hnul
    have hb0 : (0 : UInt8) ≠ b ∧ isspace b = false ∧ b ≠ byte '%' := by
      simp only [List.mem_cons, List.not_mem_nil, or_false] at hb
      rcases hb with rfl | rfl | rfl | rfl <;> decide
    rw [doVsscanf_digits strtod (paddedDigits_ne_nil width n) (paddedDigits_lt width n)
      (hends b hb rest) (by simp [hb0.1, hnul]), foldl_paddedDigits,
      doVsscanf_literal strtod hb0.2.1 hb0.2.2]
  rw [sscanf, CString.strlen, hfmt, htext, momentText]
  simp only [List.length_cons, List.length_nil, Nat.zero_add]
  have hnul : ∀ (width n : ℕ) (b : UInt8) (rest : List UInt8), (0 : UInt8) ≠ b → 0 ∉ rest →
      0 ∉ (paddedDigits width n).map digitChar ++ b :: rest := by
    intro width n b rest hb hrest
    simp [digits_nulFree, hb, hrest]
  have hsecond := hnul 2 m.second.toNat (byte 'Z') [] (by decide) List.not_mem_nil
  have hminute := hnul 2 m.minute.toNat (byte ':') _ (by decide) hsecond
  have hhour := hnul 2 m.hour.toNat (byte ':') _ (by decide) hminute
  have hday := hnul 2 m.day.toNat (byte 'T') _ (by decide) hhour
  have hmonth := hnul 2 (m.month + 1) (byte '-') _ (by decide) hday
  rw [hfield 4 _ _ _ _ _ (by simp) hmonth, hfield 2 _ _ _ _ _ (by simp) hday,
    hfield 2 _ _ _ _ _ (by simp) hhour, hfield 2 _ _ _ _ _ (by simp) hminute,
    hfield 2 _ _ _ _ _ (by simp) hsecond, hfield 2 _ _ _ _ _ (by simp) List.not_mem_nil,
    doVsscanf]

/-- `mktime` looks at six fields. -/
lemma mktime_congr {tm tm' : Tm} (hy : tm.tmYear = tm'.tmYear) (hmo : tm.tmMon = tm'.tmMon)
    (hd : tm.tmMday = tm'.tmMday) (hh : tm.tmHour = tm'.tmHour) (hmi : tm.tmMin = tm'.tmMin)
    (hs : tm.tmSec = tm'.tmSec) : (mktime tm).1 = (mktime tm').1 := by
  unfold mktime
  dsimp only
  rw [hy, hmo, hd, hh, hmi, hs]

/-- **The text of a date is read back.** -/
theorem parseDate_formatDate (strtod : List UInt8 → δ × List UInt8) (hm : m.seconds = secs.toInt)
    (hyear : YearPrints m) : parseDate strtod (formatDate secs) = some secs := by
  have hholds := gmtimeR_holds hm hyear
  have hday := m.day_pos
  have hlen := m.day_le.trans (monthLength_le m.year m.month)
  have hmonth := m.month_lt
  have hhour := m.hour_mem
  have hminute := m.minute_mem
  have hsecond := m.second_mem
  rw [parseDate, sscanf_momentText strtod (formatDate_bytes hm hyear)]
  obtain ⟨hlow, hhigh⟩ := hyear
  have hmon : (BitVec.ofNat 32 (m.month + 1)).toInt = m.month + 1 := by
    have hfield := toInt_field (n := m.month + 1) (by omega) (by omega)
    rwa [Int.toNat_natCast_add_one] at hfield
  have hcongr : (mktime (dateTm (BitVec.ofNat 32 m.year.toNat) (BitVec.ofNat 32 (m.month + 1))
      (BitVec.ofNat 32 m.day.toNat) (BitVec.ofNat 32 m.hour.toNat)
      (BitVec.ofNat 32 m.minute.toNat) (BitVec.ofNat 32 m.second.toNat))).1 =
        (mktime (gmtimeR (.ofInt secs.toInt))).1 := by
    apply mktime_congr <;> apply CInt.ext <;> unfold dateTm <;> dsimp only
    · rw [toInt_field hlow (by omega), CInt.val_ofInt ⟨by omega, by omega⟩]
      have := hholds.year
      omega
    · rw [hmon, CInt.val_ofInt ⟨by omega, by omega⟩, hholds.month]
      omega
    · rw [hholds.day, ofInt_field (n := m.day) (by omega) (by omega)]
    · rw [hholds.hour, ofInt_field (n := m.hour) (by omega) (by omega)]
    · rw [hholds.minute, ofInt_field (n := m.minute) (by omega) (by omega)]
    · rw [hholds.second, ofInt_field (n := m.second) (by omega) (by omega)]
  have hmktime := mktime_moment hholds ⟨by omega, by omega⟩
  dsimp only
  rw [hcongr, hmktime, hm, BitVec.ofInt_toInt]

/-! ## Property lists -/

variable (lib : Library δ) (strtod : List UInt8 → δ × List UInt8)

/-- Dates are printed as above. -/
@[simp] lemma withDates_formatDate : (withDates lib strtod).formatDate = formatDate := by
  rw [withDates]

/-- Dates are parsed as above. -/
@[simp] lemma withDates_parseDate : (withDates lib strtod).parseDate = parseDate strtod := by
  rw [withDates]

/-- The element of a date. -/
def dateElement (depth : ℕ) (m : Moment) : List UInt8 :=
  appendIndent depth ++ ascii "<date>" ++ momentText m ++ ascii "</date>\n"

/-- The writer puts out the element. -/
lemma writeValue_date (hm : m.seconds = secs.toInt) (hyear : YearPrints m) (depth : ℕ) :
    writeValue (withDates lib strtod) depth (.date secs) = .ok (dateElement depth m) := by
  rw [writeValue, withDates_formatDate, formatDate_bytes hm hyear, dateElement]

/-- The text of a moment has nothing in it that a reader would not take as it stands. -/
lemma momentText_plain (m : Moment) : PlainText (momentText m) (momentText m) := by
  have hdigits : ∀ (b : UInt8), isdigit b = false → ∀ width n,
      b ∉ (paddedDigits width n).map digitChar := by
    intro b hb width n h
    obtain ⟨d, hd, rfl⟩ := List.mem_map.mp h
    rw [isdigit_digitChar (paddedDigits_lt width n d hd)] at hb
    cases hb
  have hbyte : ∀ b : UInt8, isdigit b = false → b ≠ byte '-' ∧ b ≠ byte 'T' ∧ b ≠ byte ':' ∧
      b ≠ byte 'Z' → b ∉ momentText m := by
    intro b hb hne
    unfold momentText
    simp only [List.mem_append, List.mem_cons, hdigits b hb, hne, List.not_mem_nil, or_self,
      not_false_eq_true]
  exact ⟨hbyte _ (by decide) (by decide), hbyte _ (by decide) (by decide),
    unescape_of_notMem (hbyte _ (by decide) (by decide))⟩

/-- **The reader reads the element** at any depth, whatever is around it. -/
lemma parseValue_date (hm : m.seconds = secs.toInt) (hyear : YearPrints m) (depth : ℕ)
    {lead : List UInt8} (hlead : Blank lead) (c : List UInt8) (fuel : ℕ) :
    parseValue (withDates lib strtod) (fuel + 1) (lead ++ (dateElement depth m ++ c)) =
      .ok (some (.date secs, ascii "\n" ++ c)) := by
  have hblank : Blank (lead ++ appendIndent depth) := fun b hb =>
    (List.mem_append.mp hb).elim (hlead b) (Spelling.blank_appendIndent depth b)
  have htag : IsTag (ascii "<date>") = true := by decide
  have hplain := momentText_plain m
  have hcat : lead ++ (dateElement depth m ++ c) = (lead ++ appendIndent depth) ++
      (ascii "<date>" ++ (momentText m ++ (ascii "</date>" ++ (ascii "\n" ++ c)))) := by
    have hclose : ascii "</date>\n" = ascii "</date>" ++ ascii "\n" := by decide
    rw [dateElement, hclose]
    simp only [List.append_assoc]
  have hother : ∀ lit, Mismatch lit (ascii "<date>") = true →
      consume (ascii "<date>" ++ (momentText m ++ (ascii "</date>" ++ (ascii "\n" ++ c)))) lit =
        (false, ascii "<date>" ++ (momentText m ++ (ascii "</date>" ++ (ascii "\n" ++ c)))) :=
    fun lit hlit => consume_other htag hlit _
  have hself := consume_self htag (momentText m ++ (ascii "</date>" ++ (ascii "\n" ++ c)))
  have htext : CString.ofBytes (momentText m) = formatDate secs := by
    apply CString.ext
    rw [CString.bytes_ofBytes_of_nulFree hplain.noNul, formatDate_bytes hm hyear]
  have hparse := parseDate_formatDate strtod hm hyear
  rw [hcat, parseValue]
  simp only [skipWs_of_isTag hblank htag, peek, parseLeaf, hother (ascii "<dict>") (by decide),
    hother (ascii "<array>") (by decide), hother (ascii "<true/>") (by decide),
    hother (ascii "<false/>") (by decide), hother (ascii "<string>") (by decide),
    hother (ascii "<integer>") (by decide), hother (ascii "<real>") (by decide),
    hother (ascii "<data>") (by decide), hself, Bool.false_eq_true, if_false, if_true,
    textElement, textUntil_plain hplain (show IsTag (ascii "</date>") = true by decide), htext,
    withDates_parseDate, hparse, Option.map_some]

/-- **A date whose year has four digits is read back**, alone and in any property list: the writer puts
out an element, and wherever the element stands the reader gives the date. The seconds are those that
the date was made of. -/
theorem date_roundTrip (t : ℤ) (m : Moment) (hm : m.seconds = t) (hyear : YearPrints m) :
    (NSDate.withTimeIntervalSince1970 t).timeIntervalSince1970 = t ∧
    ∃ secs data,
      dataWithPropertyList (withDates lib strtod)
        (.date (NSDate.withTimeIntervalSince1970 t).secs) .xmlFormat_v1_0 = .ok (some data) ∧
      propertyListWithData (withDates lib strtod) data = .ok (some (.date secs)) ∧
      NSDate.ofSecs secs = NSDate.withTimeIntervalSince1970 t ∧
      ∀ depth, ∃ element,
        writeValue (withDates lib strtod) depth
          (.date (NSDate.withTimeIntervalSince1970 t).secs) = .ok element ∧
        ∀ lead c fuel, Blank lead →
          parseValue (withDates lib strtod) (fuel + 1) (lead ++ (element ++ c)) =
            .ok (some (.date secs, ascii "\n" ++ c)) := by
  obtain ⟨hlow, hhigh⟩ := id hyear
  have hstart := m.yearStart_le
  have hend := m.dayNumber_lt
  have hday := m.secondOfDay_mem
  have hsmall : t.natAbs < 2 ^ 52 := by
    rw [← hm, Moment.seconds]
    unfold yearStart at hstart hend
    omega
  have hsecs : (NSDate.withTimeIntervalSince1970 t).secs = BitVec.ofInt 64 t := by
    rw [NSDate.secs, NSDate.timeIntervalSince1970_with hsmall]
  have hint : m.seconds = (BitVec.ofInt 64 t).toInt := by
    rw [BitVec.toInt_ofInt_eq_self (by decide) (by omega) (by omega), hm]
  have hnul : 0 ∉ dateElement 0 m := by
    have hopen : (0 : UInt8) ∉ appendIndent 0 ++ ascii "<date>" := by decide
    have hclose : (0 : UInt8) ∉ ascii "</date>\n" := by decide
    rw [dateElement, List.mem_append, List.mem_append, not_or, not_or]
    exact ⟨⟨hopen, momentText_nulFree m⟩, hclose⟩
  rw [hsecs]
  refine ⟨NSDate.timeIntervalSince1970_with hsmall, BitVec.ofInt 64 t,
    xmlHeader ++ dateElement 0 m ++ ascii "</plist>\n", ?_, ?_, ?_, ?_⟩
  · rw [dataWithPropertyList, if_neg (by decide), writeValue_date lib strtod hint hyear, ok_bind,
      dataUsingEncoding_body hnul, ok_bind]
  · have hline : Blank (ascii "\n") := Spelling.blank_lineLead 0
    rw [propertyListWithData_body _ hnul, parseValue_date lib strtod hint hyear 0 hline, ok_bind]
    rfl
  · rw [← hsecs, NSDate.ofSecs_secs hsmall]
  · intro depth
    refine ⟨dateElement depth m, writeValue_date lib strtod hint hyear depth, ?_⟩
    intro lead c fuel hlead
    exact parseValue_date lib strtod hint hyear depth hlead c fuel

/-- The first second of the year zero. -/
theorem date_roundTrip_zero :
    ∃ secs, NSDate.ofSecs secs = NSDate.withTimeIntervalSince1970 (-62167219200) ∧
      ∃ data, propertyListWithData (withDates noReals fun s => ((), s)) data =
        .ok (some (.date secs)) := by
  obtain ⟨-, secs, data, -, hread, hdate, -⟩ := date_roundTrip noReals (fun s => ((), s))
    (-62167219200) (midnight (newYear 0)) (by decide) ⟨by decide, by decide⟩
  exact ⟨secs, hdate, data, hread⟩

end Asteros.Foundation
