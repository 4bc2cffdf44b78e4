import Asteros.Libc.FormatBound

set_option autoImplicit false

/-!
# UUIDs as text

`uuid_unparse_lower`, `uuid_unparse_upper` and `uuid_parse` of `uuid.c`. The positions that
`uuid_parse` keeps for hyphens are counts of bytes, and it compares them with its count of hex
digits: the hyphens of the standard form stand elsewhere, so no text that is printed is read back.

## Main definitions

* `uuidUnparseLower`, `uuidUnparseUpper` — the printers.
* `uuidParse` — the parser.
* `StandardForm` — 8-4-4-4-12 hex digits.
* `DigitsFrom` — the texts that the code has for UUIDs.

## Main results

* `uuidParse_eq_zero_iff` — which texts the parser accepts.
* `uuidParse_iff` — no text that is printed is read, and the strings for which the parser tells the
  standard form.
-/

namespace Asteros.Libc

/-! ## Printing -/

/-- `uuid_t`. -/
abbrev Uuid := Fin 16 → UInt8

/-- The format of `uuid_unparse_lower`. -/
def uuidFormat : CString :=
  .ofBytes (ascii
    "%02x%02x%02x%02x-%02x%02x-%02x%02x-%02x%02x-%02x%02x%02x%02x%02x%02x")

/-- `uuid_unparse_lower`, with `sizeof(uuid_string_t)` for the size. -/
def uuidUnparseLower (uu : Uuid) : Option CString :=
  vsnprintf 37 uuidFormat ((List.ofFn uu).map fun b => .word (BitVec.ofNat 64 b.toNat))

/-- What the loop of `uuid_unparse_upper` makes of a character. -/
def upperHex (b : UInt8) : UInt8 :=
  if byte 'a' ≤ b ∧ b ≤ byte 'f' then b - (byte 'a' - byte 'A') else b

/-- `uuid_unparse_upper`. -/
def uuidUnparseUpper (uu : Uuid) : Option CString :=
  (uuidUnparseLower uu).map fun out => .ofBytes (out.bytes.map upperHex)

/-! ## Parsing -/

/-- `hyphen_after`. -/
def hyphenAfter : List ℕ := [4, 6, 8, 10]

/-- The value of a hex digit. -/
def hexValue (c : UInt8) : Option UInt8 :=
  if byte '0' ≤ c ∧ c ≤ byte '9' then some (c - byte '0')
  else if byte 'a' ≤ c ∧ c ≤ byte 'f' then some (c - byte 'a' + 10)
  else if byte 'A' ≤ c ∧ c ≤ byte 'F' then some (c - byte 'A' + 10)
  else none

/-- The locals of `uuid_parse`, and the array that it fills. -/
structure UuidParser where
  /-- `nibble_count`. -/
  nibbleCount : ℕ
  /-- `byte`. -/
  high : UInt8
  /-- `have_high_nibble`. -/
  haveHighNibble : Bool
  /-- `uu`. -/
  uu : Uuid

/-- What the loop does with a digit. -/
def UuidParser.digit (s : UuidParser) (digit : UInt8) : UuidParser :=
  if !s.haveHighNibble then
    { s with nibbleCount := s.nibbleCount + 1, high := digit <<< 4, haveHighNibble := true }
  else
    { nibbleCount := s.nibbleCount + 1
      high := s.high ||| digit
      haveHighNibble := false
      uu := fun i => if i = s.nibbleCount / 2 then s.high ||| digit else s.uu i }

/-- The loop of `uuid_parse`, and the check behind it. -/
def uuidParseLoop : List UInt8 → UuidParser → ℤ × Uuid
  | [], s => (if s.nibbleCount ≠ 32 then -1 else 0, s.uu)
  | c :: p, s =>
    if s.nibbleCount ∈ hyphenAfter ∧ c = byte '-' then uuidParseLoop p s
    else
      match hexValue c with
      | none => (-1, s.uu)
      | some digit =>
        if s.nibbleCount ≥ 32 then (-1, s.uu) else uuidParseLoop p (s.digit digit)

/-- `uuid_parse`: the result, and what `uu` holds afterwards. -/
def uuidParse (str : CString) (uu : Uuid) : ℤ × Uuid := uuidParseLoop str.bytes ⟨0, 0, false, uu⟩

/-! ## Languages -/

/-- `isxdigit`. -/
def IsHex (c : UInt8) : Prop := (hexValue c).isSome

instance : DecidablePred IsHex := fun c => inferInstanceAs (Decidable ((hexValue c).isSome = true))

/-- The standard form: 8-4-4-4-12 hex digits. -/
def StandardForm (s : List UInt8) : Prop :=
  ∃ a b c d e : List UInt8, (∀ x ∈ a ++ b ++ c ++ d ++ e, IsHex x) ∧
    [a, b, c, d, e].map List.length = [8, 4, 4, 4, 12] ∧
    s = a ++ byte '-' :: (b ++ byte '-' :: (c ++ byte '-' :: (d ++ byte '-' :: e)))

/-- The digits of a UUID from the `n`-th on, with any number of hyphens where `n` is one of the
four numbers of the code. -/
inductive DigitsFrom : ℕ → List UInt8 → Prop where
  | done : DigitsFrom 32 []
  | hyphen {n : ℕ} {s : List UInt8} : n ∈ hyphenAfter → DigitsFrom n s →
      DigitsFrom n (byte '-' :: s)
  | digit {n : ℕ} {c : UInt8} {s : List UInt8} : n < 32 → IsHex c → DigitsFrom (n + 1) s →
      DigitsFrom n (c :: s)

/-- A hyphen is no digit. -/
lemma not_isHex_hyphen : ¬IsHex (byte '-') := by decide

/-- Nothing is left behind the last digit. -/
lemma digitsFrom_nil_iff {n : ℕ} : DigitsFrom n [] ↔ n = 32 := by
  constructor
  · intro h
    cases h
    rfl
  · rintro rfl
    exact .done

/-- The first character is a hyphen or a digit. -/
lemma digitsFrom_cons_iff {n : ℕ} {c : UInt8} {s : List UInt8} :
    DigitsFrom n (c :: s) ↔ (n ∈ hyphenAfter ∧ c = byte '-' ∧ DigitsFrom n s) ∨
      (n < 32 ∧ IsHex c ∧ DigitsFrom (n + 1) s) := by
  constructor
  · intro h
    cases h with
    | hyphen hn h => exact .inl ⟨hn, rfl, h⟩
    | digit hn hc h => exact .inr ⟨hn, hc, h⟩
  · rintro (⟨hn, rfl, h⟩ | ⟨hn, hc, h⟩)
    · exact .hyphen hn h
    · exact .digit hn hc h

/-- Digits are read one by one. -/
lemma DigitsFrom.digits {n : ℕ} {a s : List UInt8} (ha : ∀ x ∈ a, IsHex x)
    (h : DigitsFrom n (a ++ s)) : DigitsFrom (n + a.length) s := by
  induction a generalizing n with
  | nil => exact h
  | cons x a ih =>
    obtain ⟨hx, ha⟩ := List.forall_mem_cons.mp ha
    rcases digitsFrom_cons_iff.1 h with ⟨-, rfl, -⟩ | ⟨-, -, h⟩
    · exact absurd hx not_isHex_hyphen
    · rw [List.length_cons, show n + (a.length + 1) = n + 1 + a.length by omega]
      exact ih ha h

/-- A hyphen is read at the four numbers only. -/
lemma DigitsFrom.of_hyphen {n : ℕ} {s : List UInt8} (h : DigitsFrom n (byte '-' :: s)) :
    n ∈ hyphenAfter ∧ DigitsFrom n s := by
  rcases digitsFrom_cons_iff.1 h with ⟨hn, -, h⟩ | ⟨-, hx, -⟩
  · exact ⟨hn, h⟩
  · exact absurd hx not_isHex_hyphen

/-- **The standard form is not one of these texts**: its second hyphen follows twelve digits. -/
lemma StandardForm.not_digitsFrom {s : List UInt8} (h : StandardForm s) : ¬DigitsFrom 0 s := by
  obtain ⟨a, b, c, d, e, hex, hlen, rfl⟩ := h
  simp only [List.map_cons, List.map_nil, List.cons.injEq] at hlen
  obtain ⟨ha, hb, -⟩ := hlen
  intro hdigits
  have hfirst := hdigits.digits fun x hx => hex x (by simp [hx])
  rw [Nat.zero_add, ha] at hfirst
  have hsecond := hfirst.of_hyphen.2.digits fun x hx => hex x (by simp [hx])
  rw [hb] at hsecond
  exact absurd hsecond.of_hyphen.1 (by decide)

/-! ## The parser -/

/-- A digit is counted. -/
@[simp] lemma UuidParser.nibbleCount_digit (s : UuidParser) (digit : UInt8) :
    (s.digit digit).nibbleCount = s.nibbleCount + 1 := by
  unfold UuidParser.digit
  split_ifs <;> rfl

/-- The loop returns zero for the rest of such a text. -/
lemma uuidParseLoop_eq_zero_iff (p : List UInt8) (s : UuidParser) :
    (uuidParseLoop p s).1 = 0 ↔ DigitsFrom s.nibbleCount p := by
  induction p generalizing s with
  | nil =>
    rw [digitsFrom_nil_iff]
    by_cases hcount : s.nibbleCount = 32 <;> simp [uuidParseLoop, hcount]
  | cons c p ih =>
    rw [uuidParseLoop, digitsFrom_cons_iff]
    by_cases hhyphen : s.nibbleCount ∈ hyphenAfter ∧ c = byte '-'
    · rw [if_pos hhyphen, ih s]
      obtain ⟨hn, rfl⟩ := hhyphen
      simp [hn, not_isHex_hyphen]
    · rw [if_neg hhyphen]
      have hnot : ¬(s.nibbleCount ∈ hyphenAfter ∧ c = byte '-' ∧ DigitsFrom s.nibbleCount p) :=
        fun h => hhyphen ⟨h.1, h.2.1⟩
      rw [or_iff_right hnot]
      cases hvalue : hexValue c with
      | none => simp [IsHex, hvalue]
      | some digit =>
        by_cases hfull : s.nibbleCount ≥ 32
        · simp [hfull]
        · simp [IsHex, hvalue, hfull, ih, Nat.lt_of_not_le hfull]

/-- **The texts that `uuid_parse` accepts** are 32 hex digits, with hyphens between the bytes that
the code has in mind. -/
theorem uuidParse_eq_zero_iff (str : CString) (uu : Uuid) :
    (uuidParse str uu).1 = 0 ↔ DigitsFrom 0 str.bytes :=
  uuidParseLoop_eq_zero_iff str.bytes _

/-! ## The printed text -/

/-- The two digits of a byte. -/
def hexPair (n : ℕ) : List UInt8 := [lowerDigit (n / 16), lowerDigit (n % 16)]

/-- The text of `%02x`. -/
lemma padded_numbuf {n : ℕ} (h : n < 256) :
    List.replicate (2 - (numbuf lowerDigit 16 n).length) (byte '0') ++
      (numbuf lowerDigit 16 n).reverse = hexPair n := by
  revert n
  decide +kernel

/-- The digits are hex digits, also in the other case. -/
lemma isHex_hexPair {n : ℕ} (h : n < 256) : ∀ x ∈ hexPair n, IsHex x ∧ IsHex (upperHex x) := by
  revert n
  decide +kernel

/-- The digits of some of the bytes. -/
def hexText (uu : Uuid) (is : List (Fin 16)) : List UInt8 := is.flatMap fun i => hexPair (uu i).toNat

/-- The text of a UUID. -/
def uuidText (uu : Uuid) : List UInt8 :=
  hexText uu [0, 1, 2, 3] ++ byte '-' :: (hexText uu [4, 5] ++ byte '-' :: (hexText uu [6, 7] ++
    byte '-' :: (hexText uu [8, 9] ++ byte '-' :: hexText uu [10, 11, 12, 13, 14, 15])))

/-- The digits of one byte. -/
lemma hexText_cons (uu : Uuid) (i : Fin 16) (is : List (Fin 16)) :
    hexText uu (i :: is) = hexPair (uu i).toNat ++ hexText uu is := rfl

/-- There is a pair of digits for every byte. -/
@[simp] lemma length_hexText (uu : Uuid) (is : List (Fin 16)) :
    (hexText uu is).length = 2 * is.length := by
  induction is with
  | nil => rfl
  | cons i is ih =>
    rw [hexText_cons, List.length_append, ih, List.length_cons, Nat.mul_succ, Nat.add_comm]
    rfl

/-- **The text has the standard form**, in either case. -/
lemma standardForm_map_uuidText {f : UInt8 → UInt8} (hhyphen : f (byte '-') = byte '-')
    (hf : ∀ n < 256, ∀ x ∈ hexPair n, IsHex (f x)) (uu : Uuid) :
    StandardForm ((uuidText uu).map f) := by
  have hhex : ∀ is, ∀ x ∈ (hexText uu is).map f, IsHex x := by
    intro is x hx
    obtain ⟨y, hy, rfl⟩ := List.mem_map.mp hx
    obtain ⟨i, -, hi⟩ := List.mem_flatMap.mp hy
    exact hf _ (uu i).toNat_lt y hi
  refine ⟨(hexText uu [0, 1, 2, 3]).map f, (hexText uu [4, 5]).map f, (hexText uu [6, 7]).map f,
    (hexText uu [8, 9]).map f, (hexText uu [10, 11, 12, 13, 14, 15]).map f, ?_, by simp, ?_⟩
  · intro x hx
    simp only [List.mem_append] at hx
    rcases hx with (((hx | hx) | hx) | hx) | hx <;> exact hhex _ x hx
  · simp only [uuidText, List.map_append, List.map_cons, hhyphen]

/-- No such text has a NUL in it. -/
lemma StandardForm.nulFree {s : List UInt8} (h : StandardForm s) : 0 ∉ s := by
  obtain ⟨a, b, c, d, e, hex, -, rfl⟩ := h
  have hzero : ¬IsHex 0 := by decide
  intro hmem
  apply hzero
  apply hex
  simpa [show (0 : UInt8) ≠ byte '-' by decide, or_assoc] using hmem

/-- `%02x` with a byte. -/
lemma expansionLoop_hex (b : UInt8) (fuel : ℕ) (fmt : List UInt8) (ap : List VaArg) :
    expansionLoop (fuel + 1) (byte '%' :: byte '0' :: byte '2' :: byte 'x' :: fmt)
        (.word (BitVec.ofNat 64 b.toNat) :: ap) =
      (expansionLoop fuel fmt ap).map (hexPair b.toNat ++ ·) := by
  have hdirective : directive (byte '0' :: byte '2' :: byte 'x' :: fmt)
      (.word (BitVec.ofNat 64 b.toNat) :: ap) =
        some (⟨true, false, 2, 0⟩, byte 'x' :: fmt, .word (BitVec.ofNat 64 b.toNat) :: ap) := by
    have hwidth : widthDigits (byte '2' :: byte 'x' :: fmt) 0 = (2, byte 'x' :: fmt) := by
      rw [widthDigits, if_pos (by decide), widthDigits, if_neg (by decide)]
      exact congrArg (·, byte 'x' :: fmt) ((toInt32_eq_iff 2).mpr (by decide))
    simp only [directive, flags, show byte '2' ≠ byte '0' by decide,
      show byte '2' ≠ byte '-' by decide, show byte '2' ≠ byte '*' by decide, if_true, if_false,
      hwidth]
    rfl
  have hvalue : (((BitVec.ofNat 64 b.toNat).truncate 32).zeroExtend 64).toNat = b.toNat := by
    have hlt := b.toNat_lt
    simp only [BitVec.truncate_eq_setWidth, BitVec.toNat_setWidth, BitVec.toNat_ofNat]
    omega
  have htext : unsignedText ⟨true, false, 2, 0⟩ (byte 'x') b.toNat = hexPair b.toNat := by
    rw [← padded_numbuf b.toNat_lt]
    simp only [unsignedText, Directive.padding, show byte 'x' ≠ byte 'o' by decide,
      show byte 'x' ≠ byte 'u' by decide, show byte 'x' ≠ byte 'X' by decide, if_false, if_true]
    rw [show ((2 : ℤ) - (numbuf lowerDigit 16 b.toNat).length).toNat =
      2 - (numbuf lowerDigit 16 b.toNat).length by omega]
  have hconversion : conversion ⟨true, false, 2, 0⟩ (byte 'x')
      (.word (BitVec.ofNat 64 b.toNat) :: ap) = some (hexPair b.toNat, ap) := by
    refine Eq.trans (b := some (unsignedText ⟨true, false, 2, 0⟩ (byte 'x')
      (((BitVec.ofNat 64 b.toNat).truncate 32).zeroExtend 64).toNat, ap)) rfl ?_
    rw [hvalue, htext]
  rw [expansionLoop, if_pos rfl, hdirective]
  simp only [Option.bind_eq_bind, Option.bind_some, hconversion]

/-- The format of some of the bytes. -/
def hexFormat (is : List (Fin 16)) : List UInt8 := is.flatMap fun _ => ascii "%02x"

/-- The arguments for them. -/
def hexArgs (uu : Uuid) (is : List (Fin 16)) : List VaArg :=
  is.map fun i => .word (BitVec.ofNat 64 (uu i).toNat)

/-- Several bytes in a row. -/
lemma expansionLoop_hexFormat (uu : Uuid) (is : List (Fin 16)) (fuel : ℕ) (fmt : List UInt8)
    (ap : List VaArg) :
    expansionLoop (is.length + fuel) (hexFormat is ++ fmt) (hexArgs uu is ++ ap) =
      (expansionLoop fuel fmt ap).map (hexText uu is ++ ·) := by
  induction is with
  | nil => simp [hexFormat, hexArgs, hexText]
  | cons i is ih =>
    rw [List.length_cons, Nat.add_right_comm]
    refine (expansionLoop_hex (uu i) (is.length + fuel) (hexFormat is ++ fmt)
      (hexArgs uu is ++ ap)).trans ?_
    rw [ih, Option.map_map, hexText_cons]
    congr 1

/-- The text that the format expands to. -/
lemma expansion_uuidFormat (uu : Uuid) :
    expansion uuidFormat ((List.ofFn uu).map fun b => .word (BitVec.ofNat 64 b.toNat)) =
      some (uuidText uu) := by
  have hargs : (List.ofFn uu).map (fun b => VaArg.word (BitVec.ofNat 64 b.toNat)) =
      hexArgs uu [0, 1, 2, 3] ++ (hexArgs uu [4, 5] ++ (hexArgs uu [6, 7] ++
        (hexArgs uu [8, 9] ++ (hexArgs uu [10, 11, 12, 13, 14, 15] ++ [])))) := by
    rw [List.ofFn_eq_map, List.map_map]
    rfl
  have hfmt : uuidFormat.bytes = hexFormat [0, 1, 2, 3] ++ byte '-' :: (hexFormat [4, 5] ++
      byte '-' :: (hexFormat [6, 7] ++ byte '-' :: (hexFormat [8, 9] ++
        byte '-' :: (hexFormat [10, 11, 12, 13, 14, 15] ++ [])))) := by
    unfold uuidFormat hexFormat
    repeat rw [ascii_ofList]
    decide +kernel
  have hfuel : uuidFormat.strlen + 1 = ([0, 1, 2, 3] : List (Fin 16)).length +
      (([4, 5] : List (Fin 16)).length + (([6, 7] : List (Fin 16)).length +
        (([8, 9] : List (Fin 16)).length +
          (([10, 11, 12, 13, 14, 15] : List (Fin 16)).length + 49 + 1) + 1) + 1) + 1) := by
    rw [uuidFormat, ascii_ofList]
    decide +kernel
  have hliteral : byte '-' ≠ byte '%' := by decide
  rw [expansion, hargs, hfmt, hfuel]
  simp only [expansionLoop_hexFormat, expansionLoop_literal hliteral, Option.map_map]
  simp [expansionLoop, uuidText]

/-- **What the printers put out has the standard form.** -/
theorem standardForm_unparse (uu : Uuid) :
    ∃ lower upper, uuidUnparseLower uu = some lower ∧ uuidUnparseUpper uu = some upper ∧
      StandardForm lower.bytes ∧ StandardForm upper.bytes := by
  have hlower : StandardForm (uuidText uu) := by
    simpa using standardForm_map_uuidText (f := id) rfl (fun n hn x hx => (isHex_hexPair hn x hx).1) uu
  have hupper := standardForm_map_uuidText (f := upperHex) (by decide)
    (fun n hn x hx => (isHex_hexPair hn x hx).2) uu
  have hlen : (uuidText uu).length < 37 := by simp [uuidText]
  have hunparse : uuidUnparseLower uu = some (.ofBytes (uuidText uu)) := by
    rw [uuidUnparseLower, vsnprintf, vformat_eq, expansion_uuidFormat]
    exact Sink.contents_after hlen
  have hbytes := CString.bytes_ofBytes_of_nulFree hlower.nulFree
  refine ⟨.ofBytes (uuidText uu), .ofBytes ((uuidText uu).map upperHex), hunparse, ?_, ?_, ?_⟩
  · rw [uuidUnparseUpper, hunparse, Option.map_some, hbytes]
  · rwa [hbytes]
  · rwa [CString.bytes_ofBytes_of_nulFree hupper.nulFree]

/-! ## Round trips -/

/-- **No text that `uuid_unparse_lower` or `uuid_unparse_upper` prints is read back**, and
`uuid_parse` tells the standard form exactly for the strings that neither have it nor are 32 hex
digits with hyphens behind the second, third, fourth or fifth byte only. -/
theorem uuidParse_iff (old : Uuid) :
    (∀ uu, ∃ lower upper, uuidUnparseLower uu = some lower ∧ uuidUnparseUpper uu = some upper ∧
      uuidParse lower old ≠ (0, uu) ∧ uuidParse upper old ≠ (0, uu)) ∧
    ∀ str : CString, ((uuidParse str old).1 = 0 ↔ StandardForm str.bytes) ↔
      ¬StandardForm str.bytes ∧ ¬DigitsFrom 0 str.bytes := by
  have hne : ∀ (str : CString) (uu : Uuid), StandardForm str.bytes →
      uuidParse str old ≠ (0, uu) := by
    intro str uu hform heq
    apply hform.not_digitsFrom
    rw [← uuidParse_eq_zero_iff str old, heq]
  constructor
  · intro uu
    obtain ⟨lower, upper, hlower, hupper, hformLower, hformUpper⟩ := standardForm_unparse uu
    exact ⟨lower, upper, hlower, hupper, hne lower uu hformLower, hne upper uu hformUpper⟩
  · intro str
    rw [uuidParse_eq_zero_iff]
    have hdisjoint := @StandardForm.not_digitsFrom str.bytes
    tauto

/-- **The zero UUID is not read back**, although its text has the standard form. -/
theorem not_uuidParse :
    ¬((∀ (old uu : Uuid) (lower upper : CString), uuidUnparseLower uu = some lower →
        uuidUnparseUpper uu = some upper →
        uuidParse lower old = (0, uu) ∧ uuidParse upper old = (0, uu)) ∧
      ∀ (old : Uuid) (str : CString),
        (uuidParse str old).1 = 0 ↔ StandardForm str.bytes) := by
  intro h
  obtain ⟨lower, upper, hlower, hupper, hform, -⟩ := standardForm_unparse fun _ => 0
  have hparse := (h.1 (fun _ => 0) _ lower upper hlower hupper).1
  apply hform.not_digitsFrom
  rw [← uuidParse_eq_zero_iff lower fun _ => 0, hparse]

end Asteros.Libc
