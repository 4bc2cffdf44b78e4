import Asteros.Libc.FormatBound
import Asteros.Libc.Stdlib

set_option autoImplicit false

/-!
# Formatting integers

The integer conversions of `vformat`, and the text that the C standard has for them. The code puts
all padding in front of the sign: for `-` too, and also when it pads with zeros. It does not tell
`z` from no length modifier at all, and takes an `int` there.

## Main definitions

* `Specification` — a conversion specification for an integer.
* `Specification.Carries` — an argument of the type that belongs to it.
* `Specification.standardText` — the text that the standard has for it.

## Main results

* `Specification.vformat_specification` — the text that the code puts out.
* `Specification.produces_iff` — when that is the text of the standard.
-/

namespace Asteros.Libc

/-! ## Specifications -/

/-- The flags that the code knows. -/
inductive Flag where
  | zero
  | minus
  deriving DecidableEq

/-- A width: a decimal number, which begins with no zero, or `*` with an argument. -/
inductive Width where
  | absent
  | decimal (w : ℕ) (pos : 0 < w)
  | star (w : BitVec 64)

/-- The length modifiers. -/
inductive Length where
  | absent
  | l
  | ll
  | h
  | z

/-- The conversions of integers. -/
inductive Conversion where
  | d
  | i
  | u
  | x
  | bigX
  | o

/-- A conversion specification. -/
structure Specification where
  /-- The flags, in any order and number. -/
  flags : List Flag
  /-- The width. -/
  width : Width
  /-- The length modifier. -/
  length : Length
  /-- The conversion. -/
  conversion : Conversion

/-- The character of a flag. -/
def Flag.char : Flag → UInt8
  | .zero => byte '0'
  | .minus => byte '-'

/-- The text of a width. -/
def Width.text : Width → List UInt8
  | .absent => []
  | .decimal w _ => (Nat.digits 10 w).reverse.map digitChar
  | .star _ => [byte '*']

/-- The argument of a width. -/
def Width.args : Width → List VaArg
  | .star w => [.word w]
  | _ => []

/-- The text of a length modifier. -/
def Length.text : Length → List UInt8
  | .absent => []
  | .l => [byte 'l']
  | .ll => [byte 'l', byte 'l']
  | .h => [byte 'h']
  | .z => [byte 'z']

/-- The character of a conversion. -/
def Conversion.char : Conversion → UInt8
  | .d => byte 'd'
  | .i => byte 'i'
  | .u => byte 'u'
  | .x => byte 'x'
  | .bigX => byte 'X'
  | .o => byte 'o'

/-- Whether it takes a signed argument. -/
def Conversion.signed : Conversion → Bool
  | .d | .i => true
  | _ => false

/-- The base of its digits. -/
def Conversion.base : Conversion → ℕ
  | .o => 8
  | .d | .i | .u => 10
  | .x | .bigX => 16

/-- Its digits. -/
def Conversion.digit : Conversion → ℕ → UInt8
  | .bigX => upperDigit
  | _ => lowerDigit

/-- The bits of the type that belongs to a length modifier. -/
def Length.bits : Length → ℕ
  | .h => 16
  | .absent => 32
  | .l | .ll | .z => 64

namespace Specification

variable (s : Specification)

/-- The text of a specification, behind the `%`. -/
def text : List UInt8 :=
  s.flags.map Flag.char ++ (s.width.text ++ (s.length.text ++ [s.conversion.char]))

/-- A value of the type that belongs to the specification. -/
def InRange (n : ℤ) : Prop :=
  if s.conversion.signed then -2 ^ (s.length.bits - 1) ≤ n ∧ n < 2 ^ (s.length.bits - 1)
  else 0 ≤ n ∧ n < 2 ^ s.length.bits

/-- A register that carries a value of that type. A type narrower than `int` is promoted, and of an
`int` the lower half of the register counts. -/
def Carries (n : ℤ) (word : BitVec 64) : Prop :=
  s.InRange n ∧
    if s.length.bits = 64 then word = BitVec.ofInt 64 n else word.truncate 32 = BitVec.ofInt 32 n

/-! ## The standard -/

/-- The width as a number. -/
def fieldWidth : ℕ :=
  match s.width with
  | .absent => 0
  | .decimal w _ => w
  | .star w => (w.truncate 32).toInt.natAbs

/-- The text is put at the left. -/
def leftJustified : Bool :=
  decide (.minus ∈ s.flags) || match s.width with
    | .star w => decide ((w.truncate 32).toInt < 0)
    | _ => false

/-- Zeros are used for padding. -/
def zeroPadded : Bool := decide (.zero ∈ s.flags)

/-- The sign of a value. -/
def signText (n : ℤ) : List UInt8 := if n < 0 then [byte '-'] else []

/-- The digits of a value. -/
def digitsText (n : ℤ) : List UInt8 :=
  (numbuf s.conversion.digit s.conversion.base n.natAbs).reverse

/-- The sign and the digits. -/
def numberText (n : ℤ) : List UInt8 := signText n ++ s.digitsText n

/-- The text of the standard: spaces behind the number, or zeros between the sign and the digits, or
spaces in front. -/
def standardText (n : ℤ) : List UInt8 :=
  let fill := s.fieldWidth - (s.numberText n).length
  if s.leftJustified then s.numberText n ++ List.replicate fill (byte ' ')
  else if s.zeroPadded then signText n ++ (List.replicate fill (byte '0') ++ s.digitsText n)
  else List.replicate fill (byte ' ') ++ s.numberText n

/-- The specification puts out this text, whatever there is room for. -/
def Produces (word : BitVec 64) (t : List UInt8) : Prop :=
  ∀ (size : ℕ) (fmt : CString), fmt.bytes = byte '%' :: s.text →
    vformat size fmt (s.width.args ++ [VaArg.word word]) = some (Sink.after size t)

/-! ## The code -/

/-- The width that the code has. -/
def codeWidth : ℤ :=
  match s.width with
  | .absent => 0
  | .decimal w _ => toInt32 w
  | .star w =>
    if (w.truncate 32).toInt < 0 then toInt32 (-(w.truncate 32).toInt) else (w.truncate 32).toInt

/-- The value that the code takes from the register. -/
def codeValue (word : BitVec 64) : ℤ :=
  match s.length with
  | .l | .ll => if s.conversion.signed then word.toInt else word.toNat
  | _ => if s.conversion.signed then (word.truncate 32).toInt else (word.truncate 32).toNat

/-- The text that the code puts out for a value. -/
def codeText (n : ℤ) : List UInt8 :=
  List.replicate (s.codeWidth - (s.numberText n).length).toNat
    (if s.zeroPadded then byte '0' else byte ' ') ++ s.numberText n

end Specification

/-- The flag loop reads all flags. -/
lemma flags_map (fs : List Flag) (z l : Bool) {b : UInt8} (h0 : b ≠ byte '0') (hm : b ≠ byte '-')
    (rest : List UInt8) : flags (fs.map Flag.char ++ b :: rest) z l =
      (z || decide (.zero ∈ fs), l || decide (.minus ∈ fs), b :: rest) := by
  induction fs generalizing z l with
  | nil => simp [flags, h0, hm]
  | cons f fs ih =>
    cases f with
    | zero =>
      rw [List.map_cons, List.cons_append, Flag.char, flags, if_pos rfl, ih]
      simp
    | minus =>
      rw [List.map_cons, List.cons_append, Flag.char, flags, if_neg (by decide), if_pos rfl, ih]
      simp

/-- A sum with a wrapped part wraps to the same. -/
lemma toInt32_step (a d : ℤ) : toInt32 (toInt32 a * 10 + d) = toInt32 (a * 10 + d) := by
  unfold toInt32
  rw [← Int.bmod_add_bmod, Int.bmod_mul_bmod, Int.bmod_add_bmod]

/-- The loop over the digits of a width. -/
lemma widthDigits_map {ds : List ℕ} (hds : ∀ d ∈ ds, d < 10) (a : ℕ) {b : UInt8}
    (hb : isdigit b = false) (rest : List UInt8) :
    widthDigits (ds.map digitChar ++ b :: rest) (toInt32 a) =
      (toInt32 (ds.foldl (fun a d => a * 10 + d) a : ℕ), b :: rest) := by
  induction ds generalizing a with
  | nil => simp [widthDigits, hb]
  | cons d ds ih =>
    have hd := hds d List.mem_cons_self
    have hstep : toInt32 (toInt32 a * 10 + d) = toInt32 (a * 10 + d : ℕ) := by
      rw [toInt32_step]
      push_cast
      rfl
    rw [List.map_cons, List.cons_append, widthDigits, if_pos (isdigit_digitChar hd),
      toNat_digitChar hd, Nat.add_sub_cancel_left, hstep, List.foldl_cons]
    exact ih (fun e he => hds e (List.mem_cons_of_mem d he)) _

/-- How many `l`s there are. -/
def Length.longs : Length → ℕ
  | .l => 1
  | .ll => 2
  | _ => 0

/-- The length modifier and the conversion. -/
lemma lengthModifiers_text (length : Length) (conversion : Conversion) :
    lengthModifiers (length.text ++ [conversion.char]) 0 = (length.longs, [conversion.char]) := by
  cases length <;> cases conversion <;> rfl

/-- What stands behind the width. -/
lemma exists_cons_lengthText (length : Length) (conversion : Conversion) :
    ∃ b rest, length.text ++ [conversion.char] = b :: rest ∧ b ≠ byte '0' ∧ b ≠ byte '-' ∧
      b ≠ byte '*' ∧ isdigit b = false := by
  cases length with
  | absent =>
    cases conversion <;> exact ⟨_, _, rfl, by decide, by decide, by decide, by decide⟩
  | _ => exact ⟨_, _, rfl, by decide, by decide, by decide, by decide⟩

/-- The first digit of a width. -/
lemma exists_cons_digits {w : ℕ} (hw : 0 < w) :
    ∃ d ds, (Nat.digits 10 w).reverse = d :: ds ∧ d ≠ 0 ∧ d < 10 := by
  have hne : Nat.digits 10 w ≠ [] := Nat.digits_ne_nil_iff_ne_zero.mpr hw.ne'
  refine ⟨(Nat.digits 10 w).getLast hne, (Nat.digits 10 w).reverse.tail, ?_,
    Nat.getLast_digit_ne_zero 10 hw.ne', Nat.digits_lt_base (by decide) (List.getLast_mem hne)⟩
  rw [← List.head_reverse (List.reverse_ne_nil_iff.mpr hne), List.cons_head_tail]

/-- The character of a digit that is not zero. -/
lemma firstDigit_ne {d : ℕ} (h0 : d ≠ 0) (h : d < 10) :
    digitChar d ≠ byte '0' ∧ digitChar d ≠ byte '-' ∧ digitChar d ≠ byte '*' := by
  have hpos : 1 ≤ d := Nat.one_le_iff_ne_zero.mpr h0
  interval_cases d <;> decide

/-- The signed conversions. -/
lemma Conversion.of_signed {c : Conversion} (h : c.signed = true) :
    c.base = 10 ∧ c.digit = lowerDigit ∧ (c.char = byte 'd' ∨ c.char = byte 'i') := by
  cases c with
  | d => exact ⟨rfl, rfl, .inl rfl⟩
  | i => exact ⟨rfl, rfl, .inr rfl⟩
  | _ => exact absurd h nofun

/-- The unsigned conversions. -/
lemma Conversion.of_unsigned {c : Conversion} (h : c.signed = false) :
    c.base = (if c.char = byte 'o' then 8 else if c.char = byte 'u' then 10 else 16) ∧
      c.digit = (if c.char = byte 'X' then upperDigit else lowerDigit) ∧
      ¬(c.char = byte 'd' ∨ c.char = byte 'i') ∧
      (c.char = byte 'u' ∨ c.char = byte 'x' ∨ c.char = byte 'X' ∨ c.char = byte 'o') := by
  cases c with
  | d => exact absurd h nofun
  | i => exact absurd h nofun
  | _ => exact ⟨by decide, rfl, by decide, by decide⟩

/-- An `int` in a register. -/
lemma toInt_signExtend (w : BitVec 64) :
    ((w.truncate 32).signExtend 64).toInt = (w.truncate 32).toInt :=
  BitVec.toInt_signExtend_of_le (by decide)

namespace Specification

variable (s : Specification)

/-- **A specification is read** as it was written. -/
lemma directive_text (ap : List VaArg) : directive s.text (s.width.args ++ ap) =
    some (⟨s.zeroPadded, s.leftJustified, s.codeWidth, s.length.longs⟩, [s.conversion.char],
      ap) := by
  obtain ⟨fs, width, length, conversion⟩ := s
  obtain ⟨b, rest, hrest, hb0, hbm, hbs, hbd⟩ := exists_cons_lengthText length conversion
  have hlength := lengthModifiers_text length conversion
  have hstop : widthDigits (length.text ++ [conversion.char]) 0 =
      (0, length.text ++ [conversion.char]) := by
    rw [hrest, widthDigits, hbd]
    rfl
  unfold directive
  cases width with
  | absent =>
    simp only [text, Width.text, Width.args, List.nil_append, zeroPadded, leftJustified, codeWidth,
      Bool.or_false]
    rw [hrest, flags_map fs _ _ hb0 hbm]
    simp only [Bool.false_or, if_neg hbs]
    rw [← hrest, hstop]
    simp only [hlength]
  | decimal w pos =>
    obtain ⟨d, ds, hds, hd0, hd⟩ := exists_cons_digits pos
    obtain ⟨h0, hm, hs⟩ := firstDigit_ne hd0 hd
    have hlt : ∀ e ∈ (Nat.digits 10 w).reverse, e < 10 := fun e he =>
      Nat.digits_lt_base (by decide) (List.mem_reverse.mp he)
    have hwidth := widthDigits_map hlt 0 hbd rest
    rw [foldl_digits, ← hrest] at hwidth
    simp only [text, Width.text, Width.args, List.nil_append, zeroPadded, leftJustified, codeWidth,
      Bool.or_false]
    rw [hds, List.map_cons, List.cons_append, flags_map fs _ _ h0 hm]
    simp only [Bool.false_or, if_neg hs]
    rw [← List.cons_append, ← List.map_cons, ← hds]
    have hzero : toInt32 ((0 : ℕ) : ℤ) = 0 := by decide
    rw [hzero] at hwidth
    rw [hwidth]
    simp only [hlength]
  | star w =>
    simp only [text, Width.text, Width.args, List.cons_append, List.nil_append, zeroPadded,
      leftJustified, codeWidth]
    rw [flags_map fs _ _ (by decide) (by decide)]
    simp only [Bool.false_or, if_true, vaInt, Option.bind_eq_bind, Option.bind_some, hlength,
      toInt_signExtend, BitVec.slt]
    rfl

/-- The digits up to nine are the same in all bases. -/
lemma lowerDigit_eq {d : ℕ} (h : d < 10) : lowerDigit d = digitChar d := by
  interval_cases d <;> decide

/-- The decimal text of a `long` is its sign and its digits. -/
lemma decimal_eq (v : BitVec 64) :
    decimal v = signText v.toInt ++ (numbuf lowerDigit 10 v.toInt.natAbs).reverse := by
  have hnumbuf : ∀ k, numbuf digitChar 10 k = numbuf lowerDigit 10 k := by
    intro k
    unfold numbuf
    split_ifs
    · rw [lowerDigit_eq (by decide)]
    · exact List.map_congr_left fun d hd =>
        (lowerDigit_eq (Nat.digits_lt_base (by decide) hd)).symm
  have hlt := v.isLt
  have hint := BitVec.toInt_eq_toNat_cond v
  have hslt : v.slt 0 = decide (v.toInt < 0) := by simp [BitVec.slt]
  unfold decimal signText
  by_cases hneg : v.toInt < 0
  · have hval : (-v).toNat = v.toInt.natAbs := by
      rw [BitVec.toNat_neg]
      split at hint <;> omega
    rw [hslt, if_pos (decide_eq_true hneg), if_pos hneg, hval, hnumbuf]
    rfl
  · have hval : v.toNat = v.toInt.natAbs := by
      split at hint <;> omega
    rw [hslt, if_neg (by simpa using hneg), if_neg hneg, hval, hnumbuf]
    rfl

/-- A number that is not negative has no sign. -/
lemma signText_natCast (n : ℕ) : signText n = [] := if_neg (by omega)

/-- The text of a signed conversion. -/
lemma signedText_eq (hsigned : s.conversion.signed = true) (longs : ℕ) (v : BitVec 64) :
    signedText ⟨s.zeroPadded, s.leftJustified, s.codeWidth, longs⟩ v = s.codeText v.toInt := by
  obtain ⟨hbase, hdigit, -⟩ := Conversion.of_signed hsigned
  have hnumber : decimal v = s.numberText v.toInt := by
    rw [decimal_eq, numberText, digitsText, hbase, hdigit]
  rw [signedText, codeText, Directive.padding, hnumber]

/-- The text of an unsigned one. -/
lemma unsignedText_eq (hsigned : s.conversion.signed = false) (longs uv : ℕ) :
    unsignedText ⟨s.zeroPadded, s.leftJustified, s.codeWidth, longs⟩ s.conversion.char uv =
      s.codeText uv := by
  obtain ⟨hbase, hdigit, -⟩ := Conversion.of_unsigned hsigned
  have hnumber : s.numberText uv =
      (numbuf s.conversion.digit s.conversion.base uv).reverse := by
    rw [numberText, signText_natCast, List.nil_append, digitsText, Int.natAbs_natCast]
  rw [codeText, hnumber, unsignedText, Directive.padding, List.length_reverse, hbase, hdigit]

/-- A signed conversion takes its value from a register. -/
lemma takes_signed (hsigned : s.conversion.signed = true) (word : BitVec 64) (ap : List VaArg) :
    ∃ v, (if s.length.longs ≠ 0 then vaLong (.word word :: ap) else vaInt (.word word :: ap)) =
      some (v, ap) ∧ v.toInt = s.codeValue word := by
  unfold codeValue
  cases s.length with
  | l => exact ⟨word, rfl, by rw [hsigned]; rfl⟩
  | ll => exact ⟨word, rfl, by rw [hsigned]; rfl⟩
  | _ => exact ⟨_, rfl, by rw [hsigned]; exact toInt_signExtend word⟩

/-- An unsigned one does. -/
lemma takes_unsigned (hsigned : s.conversion.signed = false) (word : BitVec 64)
    (ap : List VaArg) :
    ∃ v : BitVec 64,
      (if s.length.longs ≠ 0 then vaLong (.word word :: ap) else vaUnsigned (.word word :: ap)) =
        some (v, ap) ∧ (v.toNat : ℤ) = s.codeValue word := by
  have hzero : ((word.truncate 32).zeroExtend 64).toNat = (word.truncate 32).toNat := by
    rw [BitVec.truncate_eq_setWidth, BitVec.toNat_setWidth_of_le (by decide)]
  unfold codeValue
  cases s.length with
  | l => exact ⟨word, rfl, by rw [hsigned]; rfl⟩
  | ll => exact ⟨word, rfl, by rw [hsigned]; rfl⟩
  | _ => exact ⟨_, rfl, by rw [hsigned]; exact congrArg Nat.cast hzero⟩

/-- **A conversion puts out the text** of the value that it takes from its register. -/
lemma conversion_text (word : BitVec 64) (ap : List VaArg) :
    Libc.conversion ⟨s.zeroPadded, s.leftJustified, s.codeWidth, s.length.longs⟩
      s.conversion.char (.word word :: ap) = some (s.codeText (s.codeValue word), ap) := by
  cases hsigned : s.conversion.signed with
  | true =>
    obtain ⟨-, -, hchar⟩ := Conversion.of_signed hsigned
    obtain ⟨v, hv, hvalue⟩ := s.takes_signed hsigned word ap
    rw [Libc.conversion, if_pos hchar, ← hvalue, ← s.signedText_eq hsigned s.length.longs]
    dsimp only
    split_ifs at hv ⊢
    · rw [hv]
      rfl
    · rw [hv]
      rfl
  | false =>
    obtain ⟨-, -, hchar, hchar'⟩ := Conversion.of_unsigned hsigned
    obtain ⟨v, hv, hvalue⟩ := s.takes_unsigned hsigned word ap
    rw [Libc.conversion, if_neg hchar, if_pos hchar', ← hvalue,
      ← s.unsignedText_eq hsigned s.length.longs]
    dsimp only
    split_ifs at hv ⊢
    · rw [hv]
      rfl
    · rw [hv]
      rfl

/-- **The text that the code puts out** for a specification. -/
theorem vformat_specification (word : BitVec 64) :
    s.Produces word (s.codeText (s.codeValue word)) := by
  intro size fmt hfmt
  have hlen : fmt.strlen + 1 = s.text.length + 1 + 1 := by
    rw [CString.strlen, hfmt, List.length_cons]
  have hexp : expansion fmt (s.width.args ++ [VaArg.word word]) =
      some (s.codeText (s.codeValue word)) := by
    rw [expansion, hfmt, hlen, expansionLoop, if_pos rfl, directive_text]
    simp only [Option.bind_eq_bind, Option.bind_some, conversion_text, expansionLoop,
      Option.map_some, List.append_nil]
  rw [vformat_eq, hexp]
  rfl

/-! ## Reading the texts back -/

/-- The digits of a conversion stand for their values. -/
lemma strtolDigit_digit {d : ℕ} (h : d < s.conversion.base) :
    strtolDigit (s.conversion.digit d) = some d := by
  have hsmall : ∀ d < 16, strtolDigit (lowerDigit d) = some d ∧
      strtolDigit (upperDigit d) = some d := by decide
  have hbase : s.conversion.base ≤ 16 := by
    cases s.conversion <;> decide
  have hd := hsmall d (by omega)
  generalize s.conversion = c
  cases c with
  | bigX => exact hd.2
  | _ => exact hd.1

/-- A base is more than one. -/
lemma one_lt_base : 1 < s.conversion.base := by
  cases s.conversion <;> decide

/-- The absolute value that a text has, with spaces and signs left out. -/
def absValue (t : List UInt8) : ℕ :=
  Nat.ofDigits s.conversion.base (t.reverse.filterMap strtolDigit)

/-- The digits of a number, the last one first. -/
lemma filterMap_numbuf (k : ℕ) :
    ∃ ds, (numbuf s.conversion.digit s.conversion.base k).filterMap strtolDigit = ds ∧
      Nat.ofDigits s.conversion.base ds = k := by
  unfold numbuf
  split_ifs with hk
  · refine ⟨[0], ?_, by simp [hk]⟩
    rw [List.filterMap_cons, s.strtolDigit_digit (lt_trans Nat.zero_lt_one s.one_lt_base)]
    rfl
  · refine ⟨Nat.digits s.conversion.base k, ?_, Nat.ofDigits_digits _ k⟩
    rw [List.filterMap_map]
    have hsome : ∀ d ∈ Nat.digits s.conversion.base k,
        (strtolDigit ∘ s.conversion.digit) d = some d := fun d hd =>
      s.strtolDigit_digit (Nat.digits_lt_base s.one_lt_base hd)
    rw [List.filterMap_congr hsome, List.filterMap_some]

/-- Padding has no value. -/
lemma ofDigits_filterMap_append (ds : List ℕ) (zero : Bool) (k : ℕ) :
    Nat.ofDigits s.conversion.base
      (ds ++ (List.replicate k (if zero then byte '0' else byte ' ')).filterMap strtolDigit) =
        Nat.ofDigits s.conversion.base ds := by
  cases zero with
  | false =>
    have hspaces : (List.replicate k (byte ' ')).filterMap strtolDigit = [] := by
      rw [List.filterMap_replicate]
      rfl
    rw [if_neg (by decide), hspaces, List.append_nil]
  | true =>
    have hzeros : (List.replicate k (byte '0')).filterMap strtolDigit = List.replicate k 0 := by
      rw [List.filterMap_replicate]
      rfl
    rw [if_pos rfl, hzeros, Nat.ofDigits_append, Nat.ofDigits_replicate_zero, Nat.mul_zero,
      Nat.add_zero]

/-- A sign is no digit. -/
lemma filterMap_signText (n : ℤ) : (signText n).reverse.filterMap strtolDigit = [] := by
  unfold signText
  split_ifs <;> rfl

/-- A digit is no sign and no space. -/
lemma strtolDigit_of_mem {n : ℤ} {b : UInt8} (h : b ∈ s.digitsText n) :
    (strtolDigit b).isSome = true := by
  unfold digitsText numbuf at h
  split_ifs at h
  · rw [List.mem_reverse, List.mem_singleton] at h
    rw [h, s.strtolDigit_digit (lt_trans Nat.zero_lt_one s.one_lt_base)]
    rfl
  · obtain ⟨d, hd, rfl⟩ := List.mem_map.mp (List.mem_reverse.mp h)
    rw [s.strtolDigit_digit (Nat.digits_lt_base s.one_lt_base hd)]
    rfl

/-- The value of the text of the code. -/
lemma absValue_codeText (n : ℤ) : s.absValue (s.codeText n) = n.natAbs := by
  obtain ⟨ds, hds, hvalue⟩ := s.filterMap_numbuf n.natAbs
  rw [absValue, codeText, numberText, digitsText, List.reverse_append, List.reverse_append,
    List.reverse_reverse, List.reverse_replicate, List.filterMap_append, List.filterMap_append,
    hds, filterMap_signText, List.append_nil, ofDigits_filterMap_append, hvalue]

/-- The value of the text of the standard. -/
lemma absValue_standardText (n : ℤ) : s.absValue (s.standardText n) = n.natAbs := by
  obtain ⟨ds, hds, hvalue⟩ := s.filterMap_numbuf n.natAbs
  have hspaces : ∀ k, (List.replicate k (byte ' ')).filterMap strtolDigit = [] := by
    intro k
    rw [List.filterMap_replicate]
    rfl
  have hzeros := s.ofDigits_filterMap_append ds true
  simp only [if_true] at hzeros
  unfold absValue standardText numberText digitsText
  dsimp only
  split_ifs
  · simp only [List.reverse_append, List.reverse_replicate, List.reverse_reverse,
      List.filterMap_append, hspaces, hds, filterMap_signText, List.nil_append, List.append_nil,
      hvalue]
  · simp only [List.reverse_append, List.reverse_replicate, List.reverse_reverse,
      List.filterMap_append, hds, filterMap_signText, List.append_nil, hzeros, hvalue]
  · simp only [List.reverse_append, List.reverse_replicate, List.reverse_reverse,
      List.filterMap_append, hspaces, hds, filterMap_signText, List.append_nil, hvalue]

/-- A number has a sign if it is negative. -/
lemma minus_mem_numberText (n : ℤ) : byte '-' ∈ s.numberText n ↔ n < 0 := by
  have hdigits : byte '-' ∉ s.digitsText n := fun h =>
    absurd (s.strtolDigit_of_mem h) (by decide)
  unfold numberText signText
  split_ifs with hneg
  · simp [hneg]
  · simpa [hdigits] using hneg

/-- So has the text of the code. -/
lemma minus_mem_codeText (n : ℤ) : byte '-' ∈ s.codeText n ↔ n < 0 := by
  have hpad : byte '-' ∉ List.replicate (s.codeWidth - (s.numberText n).length).toNat
      (if s.zeroPadded then byte '0' else byte ' ') := by
    intro h
    have heq := (List.mem_replicate.mp h).2
    split_ifs at heq
    · exact absurd heq (by decide)
    · exact absurd heq (by decide)
  rw [codeText, List.mem_append, minus_mem_numberText]
  exact or_iff_right hpad

/-- And that of the standard. -/
lemma minus_mem_standardText (n : ℤ) : byte '-' ∈ s.standardText n ↔ n < 0 := by
  have hpad : ∀ (k : ℕ) (b : UInt8), b ≠ byte '-' → byte '-' ∉ List.replicate k b :=
    fun k b hb h => hb (List.mem_replicate.mp h).2.symm
  have hspaces := fun k => hpad k (byte ' ') (by decide)
  have hzeros := fun k => hpad k (byte '0') (by decide)
  have hnumber := s.minus_mem_numberText n
  unfold standardText
  dsimp only
  split_ifs
  · rw [List.mem_append, hnumber]
    exact or_iff_left (hspaces _)
  · rw [← hnumber, numberText, List.mem_append, List.mem_append, List.mem_append]
    exact or_congr_right (or_iff_right (hzeros _))
  · rw [List.mem_append, hnumber]
    exact or_iff_right (hspaces _)

/-- **A text is that of one value.** -/
lemma eq_of_codeText_eq {n n' : ℤ} (h : s.codeText n' = s.standardText n) : n' = n := by
  have habs : n'.natAbs = n.natAbs := by
    rw [← s.absValue_codeText, h, s.absValue_standardText]
  have hsign : n' < 0 ↔ n < 0 := by
    rw [← s.minus_mem_codeText, h, s.minus_mem_standardText]
  omega

/-! ## When it is the text of the standard -/

/-- A wrapped value is an `int`. -/
lemma toInt32_lt (n : ℤ) : toInt32 n < 2 ^ 31 := by
  unfold toInt32
  rw [Int.bmod_def]
  split_ifs <;> omega

/-- Wrapping does not enlarge a value that is not negative. -/
lemma toInt32_le {n : ℤ} (h : 0 ≤ n) : toInt32 n ≤ n := by
  unfold toInt32
  rw [Int.bmod_def]
  split_ifs <;> omega

/-- An `int` is unchanged by wrapping. -/
lemma toInt32_eq_self_iff (n : ℤ) : toInt32 n = n ↔ -2 ^ 31 ≤ n ∧ n < 2 ^ 31 := by
  unfold toInt32
  rw [Int.bmod_def]
  split_ifs <;> omega

/-- The width of the code is an `int`. -/
lemma codeWidth_lt : s.codeWidth < 2 ^ 31 := by
  unfold codeWidth
  cases s.width with
  | absent => decide
  | decimal w _ => exact toInt32_lt w
  | star w =>
    have hlt := BitVec.toInt_lt (x := w.truncate 32)
    dsimp only
    split_ifs
    · exact toInt32_lt _
    · exact hlt

/-- It is not larger than what was written. -/
lemma codeWidth_le : s.codeWidth ≤ s.fieldWidth := by
  unfold codeWidth fieldWidth
  cases s.width with
  | absent => exact le_refl _
  | decimal w _ => exact toInt32_le (Int.natCast_nonneg w)
  | star w =>
    dsimp only
    split_ifs with hneg
    · rw [show ((w.truncate 32).toInt.natAbs : ℤ) = -(w.truncate 32).toInt by omega]
      exact toInt32_le (by omega)
    · omega

/-- It is what was written, if that is an `int`. -/
lemma codeWidth_eq (h : s.fieldWidth < 2 ^ 31) : s.codeWidth = s.fieldWidth := by
  unfold codeWidth fieldWidth at *
  cases hw : s.width with
  | absent => rfl
  | decimal w _ =>
    rw [hw] at h
    dsimp only at h ⊢
    exact (toInt32_eq_self_iff w).mpr (by omega)
  | star w =>
    rw [hw] at h
    dsimp only at h ⊢
    split_ifs with hneg
    · rw [(toInt32_eq_self_iff _).mpr (by omega)]
      omega
    · omega

/-- A number has a digit. -/
lemma digitsText_ne_nil (n : ℤ) : s.digitsText n ≠ [] := by
  unfold digitsText numbuf
  rw [ne_eq, List.reverse_eq_nil_iff]
  split_ifs with h
  · simp
  · simpa [Nat.digits_eq_nil_iff_eq_zero] using h

/-- A number ends with a digit. -/
lemma getLast?_numberText (n : ℤ) :
    ∃ b, (s.numberText n).getLast? = some b ∧ (strtolDigit b).isSome = true := by
  have hne := s.digitsText_ne_nil n
  refine ⟨(s.digitsText n).getLast hne, ?_, s.strtolDigit_of_mem (List.getLast_mem hne)⟩
  rw [numberText, List.getLast?_append_of_ne_nil _ hne, List.getLast?_eq_some_getLast hne]

/-- **The text of the code is that of the standard** exactly if there is nothing to pad, or the
padding goes in front of a number without a sign, or of one that is padded with spaces. -/
lemma codeText_eq_iff (n : ℤ) : s.codeText n = s.standardText n ↔
    s.fieldWidth ≤ (s.numberText n).length ∨
      s.fieldWidth < 2 ^ 31 ∧ s.leftJustified = false ∧ (s.zeroPadded = true → 0 ≤ n) := by
  have hle := s.codeWidth_le
  have hlt := s.codeWidth_lt
  constructor
  · intro h
    by_cases hfits : s.fieldWidth ≤ (s.numberText n).length
    · exact .inl hfits
    have hlength := congrArg List.length h
    have hcode : (s.codeText n).length =
        (s.codeWidth - (s.numberText n).length).toNat + (s.numberText n).length := by
      rw [codeText, List.length_append, List.length_replicate]
    have hstandard : (s.standardText n).length =
        s.fieldWidth - (s.numberText n).length + (s.numberText n).length := by
      unfold standardText
      dsimp only
      split_ifs
      · rw [List.length_append, List.length_replicate, Nat.add_comm]
      · rw [numberText, List.length_append, List.length_append, List.length_replicate,
          List.length_append]
        omega
      · rw [List.length_append, List.length_replicate]
    obtain ⟨k, hk⟩ : ∃ k, (s.codeWidth - (s.numberText n).length).toNat = k + 1 :=
      Nat.exists_eq_succ_of_ne_zero (by omega)
    obtain ⟨j, hj⟩ : ∃ j, s.fieldWidth - (s.numberText n).length = j + 1 :=
      Nat.exists_eq_succ_of_ne_zero (by omega)
    refine .inr ⟨by omega, ?_, fun hzero => ?_⟩
    · -- padding on the left ends with a space, the code with a digit
      by_contra hleft
      rw [Bool.not_eq_false] at hleft
      obtain ⟨b, hb, hdigit⟩ := s.getLast?_numberText n
      have hlast := congrArg List.getLast? h
      rw [codeText, standardText, hj, hleft] at hlast
      rw [if_pos rfl, List.getLast?_append, hb, List.replicate_succ', ← List.append_assoc,
        List.getLast?_append] at hlast
      obtain rfl : b = byte ' ' := by simpa using hlast
      exact absurd hdigit (by decide)
    · -- zeros stand behind the sign, the code has them in front of it
      by_contra hneg
      have hsign : signText n = [byte '-'] := if_pos (by omega)
      have hstandardHead : (s.standardText n).head? = some (byte '-') := by
        unfold standardText
        dsimp only
        split_ifs
        · rw [numberText, hsign]
          rfl
        · rw [hsign]
          rfl
      rw [← h, codeText, hk, if_pos hzero, List.replicate_succ] at hstandardHead
      exact absurd (Option.some.inj hstandardHead) (by decide)
  · rintro (hfits | ⟨hint, hleft, hzero⟩)
    · have hcode : (s.codeWidth - (s.numberText n).length).toNat = 0 := by omega
      have hstandard : s.fieldWidth - (s.numberText n).length = 0 := by omega
      rw [codeText, standardText, hcode, hstandard]
      split_ifs <;> simp [numberText]
    · have hwidth : (s.codeWidth - (s.numberText n).length).toNat =
          s.fieldWidth - (s.numberText n).length := by
        rw [s.codeWidth_eq hint]
        omega
      rw [codeText, standardText, hwidth, hleft]
      cases hz : s.zeroPadded with
      | false => rfl
      | true =>
        have hsign : signText n = [] := if_neg (by have := hzero hz; omega)
        simp only [Bool.false_eq_true, if_false, if_true, numberText, hsign, List.nil_append]

/-- The value as the type without a length modifier has it. -/
def Narrow (n : ℤ) : Prop :=
  if s.conversion.signed then -2 ^ 31 ≤ n ∧ n < 2 ^ 31 else n < 2 ^ 32

/-- The lower half of a register. -/
lemma truncate_of_carries {n : ℤ} {word : BitVec 64} (h : s.Carries n word) :
    word.truncate 32 = BitVec.ofInt 32 n := by
  obtain ⟨-, h⟩ := h
  split_ifs at h
  · rw [h]
    apply BitVec.eq_of_toNat_eq
    rw [BitVec.truncate_eq_setWidth, BitVec.toNat_setWidth, BitVec.toNat_ofInt, BitVec.toNat_ofInt]
    omega
  · exact h

/-- The number in the lower half, as an `int`. -/
lemma toInt_ofInt_iff (n : ℤ) :
    (BitVec.ofInt 32 n).toInt = n ↔ -2 ^ 31 ≤ n ∧ n < 2 ^ 31 := by
  rw [BitVec.toInt_ofInt]
  exact toInt32_eq_self_iff n

/-- The number in the lower half, as an `unsigned int`. -/
lemma toNat_ofInt_iff (n : ℤ) :
    ((BitVec.ofInt 32 n).toNat : ℤ) = n ↔ 0 ≤ n ∧ n < 2 ^ 32 := by
  rw [BitVec.toNat_ofInt]
  omega

/-- **The code takes the value that the register carries**, unless it is one for `z` that does not
fit in an `int`. -/
lemma codeValue_eq_iff {n : ℤ} {word : BitVec 64} (h : s.Carries n word) :
    s.codeValue word = n ↔ (s.length = .z → s.Narrow n) := by
  have htruncate := s.truncate_of_carries h
  obtain ⟨hrange, hword⟩ := h
  unfold InRange at hrange
  unfold codeValue Narrow
  rw [htruncate]
  generalize s.length = length at hrange hword ⊢
  cases length with
  | l | ll =>
    simp only [Length.bits, if_true] at hword hrange
    rw [hword]
    refine iff_of_true ?_ nofun
    dsimp only
    split_ifs at hrange ⊢
    · exact BitVec.toInt_ofInt_eq_self (by decide) hrange.1 hrange.2
    · rw [BitVec.toNat_ofInt]
      omega
  | absent | h =>
    simp only [Length.bits] at hrange
    refine iff_of_true ?_ nofun
    dsimp only
    split_ifs at hrange ⊢
    · exact (toInt_ofInt_iff n).mpr (by omega)
    · exact (toNat_ofInt_iff n).mpr (by omega)
  | z =>
    simp only [Length.bits] at hrange
    dsimp only
    split_ifs at hrange ⊢
    · rw [toInt_ofInt_iff]
      simp
    · rw [toNat_ofInt_iff]
      simp [hrange.1]

/-- There is no NUL in a specification. -/
lemma zero_notMem_text : 0 ∉ byte '%' :: s.text := by
  have hflags : 0 ∉ s.flags.map Flag.char := by
    intro h
    obtain ⟨f, -, hf⟩ := List.mem_map.mp h
    cases f <;> exact absurd hf (by decide)
  have hwidth : 0 ∉ s.width.text := by
    cases s.width with
    | absent => exact List.not_mem_nil
    | decimal w _ =>
      intro h
      obtain ⟨d, hd, hzero⟩ := List.mem_map.mp h
      have hdigit := isdigit_digitChar (Nat.digits_lt_base (by decide) (List.mem_reverse.mp hd))
      rw [hzero] at hdigit
      exact absurd hdigit (by decide)
    | star w => simp [Width.text, byte]
  have hrest : 0 ∉ s.length.text ++ [s.conversion.char] := by
    cases s.length <;> cases s.conversion <;> decide
  have hpercent : (0 : UInt8) ≠ byte '%' := by decide
  simpa [text, hpercent, hflags, hwidth] using hrest

/-- A specification puts out one text. -/
lemma produces_unique {word : BitVec 64} {t t' : List UInt8} (h : s.Produces word t)
    (h' : s.Produces word t') : t = t' := by
  have heq := (h (t.length + t'.length) ⟨_, s.zero_notMem_text⟩ rfl).symm.trans
    (h' (t.length + t'.length) ⟨_, s.zero_notMem_text⟩ rfl)
  have hstored := congrArg Sink.stored (Option.some.inj heq)
  simp only [Sink.after] at hstored
  rwa [List.take_of_length_le (by omega), List.take_of_length_le (by omega)] at hstored

/-- **The text is that of the standard** exactly if a value for `z` fits in an `int`, and there is
nothing to pad, or the number is put at the right and has no sign or is padded with spaces. -/
theorem produces_iff {n : ℤ} {word : BitVec 64} (h : s.Carries n word) :
    s.Produces word (s.standardText n) ↔ (s.length = .z → s.Narrow n) ∧
      (s.fieldWidth ≤ (s.numberText n).length ∨
        s.fieldWidth < 2 ^ 31 ∧ s.leftJustified = false ∧ (s.zeroPadded = true → 0 ≤ n)) := by
  have hcode := s.vformat_specification word
  rw [← s.codeValue_eq_iff h, ← s.codeText_eq_iff n]
  constructor
  · intro hproduces
    have htext := s.produces_unique hcode hproduces
    have hvalue := s.eq_of_codeText_eq htext
    exact ⟨hvalue, hvalue ▸ htext⟩
  · rintro ⟨hvalue, htext⟩
    rw [hvalue, htext] at hcode
    exact hcode

/-- `%03d` with zero. -/
theorem produces_iff_zero : (⟨[.zero], .decimal 3 (by decide), .absent, .d⟩ : Specification).Produces
    0 ((⟨[.zero], .decimal 3 (by decide), .absent, .d⟩ : Specification).standardText 0) := by
  refine (produces_iff _ ⟨?_, ?_⟩).mpr ⟨nofun, .inr ⟨by decide, by decide, fun _ => le_refl _⟩⟩
  · exact ⟨by decide, by decide⟩
  · decide

/-- **`%-3d` with zero** puts the spaces in front. -/
theorem not_produces_minus :
    ¬∀ (s : Specification) (n : ℤ) (word : BitVec 64), s.Carries n word →
      s.Produces word (s.standardText n) := by
  intro h
  have hcarries : (⟨[.minus], .decimal 3 (by decide), .absent, .d⟩ : Specification).Carries 0 0 :=
    ⟨⟨by decide, by decide⟩, by decide⟩
  have hproduces := h _ 0 0 hcarries
  have htext := produces_unique _ (vformat_specification _ 0) hproduces
  exact absurd htext (by decide)

end Specification

end Asteros.Libc
