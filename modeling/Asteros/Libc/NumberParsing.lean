import Asteros.Libc.Stdlib

set_option autoImplicit false

/-!
# Number parsing and the standard

The C standard has `strtol` and `strtoul` convert the longest initial part of the text that has the
form of a number, with the value cut to what the type can hold. The code lets the value wrap, and
takes `0x` for a prefix also where no hexadecimal digit follows: it finds no number then, although
the `0` is one.

## Main definitions

* `Subject` — a text of the form of a number.
* `Parses` — a result as the standard has it.
* `BareHex` — a `0x` without a digit.

## Main results

* `longest_subject` — the longest number that the code finds.
* `strtol_iff` — when the results are those of the standard.
-/

namespace Asteros.Libc

/-! ## Numbers -/

/-- A digit below the radix. -/
def isDigitOf (radix : ℕ) (c : UInt8) : Bool :=
  match strtolDigit c with
  | some d => decide (d < radix)
  | none => false

/-- The value of digits. -/
def digitsValue (radix : ℕ) (digits : List UInt8) : ℕ :=
  digits.foldl (fun a c => a * radix + (strtolDigit c).getD 0) 0

/-- The radix: the one given, or that of the form of the digits if the base is zero. -/
def radixOf (base : ℕ) (mark digits : List UInt8) : ℕ :=
  if mark ≠ [] then 16
  else if base ≠ 0 then base
  else if digits.head? = some (byte '0') then 8
  else 10

/-- A text of the form of a number: a sign or none, `0x` or `0X` in base sixteen (which is also one
of the forms for base zero) or nothing, and at least one digit. -/
structure Subject (base : ℕ) where
  /-- The sign. -/
  sign : List UInt8
  /-- The mark of a hexadecimal number. -/
  mark : List UInt8
  /-- The digits. -/
  digits : List UInt8
  /-- There is one sign at most. -/
  sign_eq : sign = [] ∨ sign = [byte '+'] ∨ sign = [byte '-']
  /-- The mark belongs to base sixteen. -/
  mark_eq : mark = [] ∨
    (base = 0 ∨ base = 16) ∧ (mark = [byte '0', byte 'x'] ∨ mark = [byte '0', byte 'X'])
  /-- There is a digit. -/
  digits_ne : digits ≠ []
  /-- The digits are below the radix. -/
  digits_lt : ∀ c ∈ digits, isDigitOf (radixOf base mark digits) c = true

namespace Subject

variable {base : ℕ} (s : Subject base)

/-- The text. -/
def text : List UInt8 := s.sign ++ (s.mark ++ s.digits)

/-- The radix. -/
def radix : ℕ := radixOf base s.mark s.digits

/-- The sign is a minus. -/
def negative : Bool := decide (s.sign = [byte '-'])

/-- The absolute value. -/
def magnitude : ℕ := digitsValue s.radix s.digits

/-- No longer number begins the text `p`. -/
def Longest (p : List UInt8) : Prop :=
  s.text <+: p ∧ ∀ s' : Subject base, s'.text <+: p → s'.text.length ≤ s.text.length

end Subject

/-! ## The standard -/

/-- The value of `strtol`, cut to the range of a `long`. -/
def signedLimit (negative : Bool) (magnitude : ℕ) : BitVec 64 :=
  if negative then
    if magnitude ≤ 2 ^ 63 then -BitVec.ofNat 64 magnitude else BitVec.intMin 64
  else if magnitude < 2 ^ 63 then BitVec.ofNat 64 magnitude else BitVec.intMax 64

/-- The value of `strtoul`: `ULONG_MAX` if the digits are too large, and negated as an
`unsigned long` otherwise if there is a minus. -/
def unsignedLimit (negative : Bool) (magnitude : ℕ) : BitVec 64 :=
  if magnitude < 2 ^ 64 then
    if negative then -BitVec.ofNat 64 magnitude else BitVec.ofNat 64 magnitude
  else BitVec.allOnes 64

/-- A result as the standard has it: the value of the longest number behind the white space, and the
text behind it; or zero and all of the text, if there is no number. -/
structure Parses (limit : Bool → ℕ → BitVec 64) (base : ℕ) (nptr : CString)
    (r : BitVec 64 × List UInt8) : Prop where
  /-- There is a number. -/
  found : ∀ s : Subject base, s.Longest (nptr.bytes.dropWhile isspace) →
    r = (limit s.negative s.magnitude, (nptr.bytes.dropWhile isspace).drop s.text.length)
  /-- There is none. -/
  absent : (∀ s : Subject base, ¬s.text <+: nptr.bytes.dropWhile isspace) → r = (0, nptr.bytes)

/-- The text begins with the mark of a hexadecimal number. -/
def HexMark (base : ℕ) (q : List UInt8) : Prop :=
  (base = 0 ∨ base = 16) ∧ q.head? = some (byte '0') ∧
    (q[1]? = some (byte 'x') ∨ q[1]? = some (byte 'X'))

instance (base : ℕ) (q : List UInt8) : Decidable (HexMark base q) :=
  inferInstanceAs (Decidable (_ ∧ _ ∧ _))

/-- Behind the white space and a sign there is such a mark, and no hexadecimal digit behind it. -/
def BareHex (base : ℕ) (nptr : CString) : Prop :=
  HexMark base (strtolSign (nptr.bytes.dropWhile isspace)).2 ∧
    ∀ c, (strtolSign (nptr.bytes.dropWhile isspace)).2[2]? = some c → isDigitOf 16 c = false

/-- The same, if such a prefix is no number to be converted, with `*endptr` left at its `0`. -/
structure ParsesAtZero (limit : Bool → ℕ → BitVec 64) (base : ℕ) (nptr : CString)
    (r : BitVec 64 × List UInt8) : Prop where
  /-- There is a prefix without a digit. -/
  bare : BareHex base nptr → r = (0, (strtolSign (nptr.bytes.dropWhile isspace)).2)
  /-- There is none. -/
  other : ¬BareHex base nptr → Parses limit base nptr r

/-- The digits that the code finds behind the white space and the sign. -/
def foundDigits (base : ℕ) (q : List UInt8) : List UInt8 :=
  (strtolBase base q).2.takeWhile (isDigitOf (strtolBase base q).1)

/-- A value that `strtol` need not cut, or that wraps to what it is cut to. -/
def SignedFits (negative : Bool) (magnitude : ℕ) : Prop :=
  if negative then magnitude ≤ 2 ^ 63 ∨ magnitude % 2 ^ 64 = 2 ^ 63
  else magnitude < 2 ^ 63 ∨ magnitude % 2 ^ 64 = 2 ^ 63 - 1

/-- The same for `strtoul`. -/
def UnsignedFits (negative : Bool) (magnitude : ℕ) : Prop :=
  magnitude < 2 ^ 64 ∨ magnitude % 2 ^ 64 = if negative then 1 else 2 ^ 64 - 1

/-! ## The digit loop -/

/-- The value and the rest of the digit loop. -/
lemma strtolLoop_eq (radix : ℕ) (p : List UInt8) (val : ℕ) :
    strtolLoop radix p (BitVec.ofNat 64 val) =
      (BitVec.ofNat 64 ((p.takeWhile (isDigitOf radix)).foldl
        (fun a c => a * radix + (strtolDigit c).getD 0) val), p.dropWhile (isDigitOf radix)) := by
  induction p generalizing val with
  | nil => rfl
  | cons c p ih =>
    cases hd : strtolDigit c with
    | none =>
      have hc : isDigitOf radix c = false := by rw [isDigitOf, hd]
      rw [strtolLoop, hd, List.takeWhile_cons_of_neg (by simp [hc]),
        List.dropWhile_cons_of_neg (by simp [hc])]
      rfl
    | some d =>
      by_cases hlt : d < radix
      · have hc : isDigitOf radix c = true := by
          rw [isDigitOf, hd]
          exact decide_eq_true hlt
        have hstep : BitVec.ofNat 64 val * BitVec.ofNat 64 radix + BitVec.ofNat 64 d =
            BitVec.ofNat 64 (val * radix + d) := by
          rw [BitVec.ofNat_add, BitVec.ofNat_mul]
        rw [strtolLoop, hd, List.takeWhile_cons_of_pos hc, List.dropWhile_cons_of_pos hc,
          List.foldl_cons, hd]
        dsimp only
        rw [if_pos hlt, hstep, ih]
        rfl
      · have hc : isDigitOf radix c = false := by
          rw [isDigitOf, hd]
          exact decide_eq_false hlt
        rw [strtolLoop, hd, List.takeWhile_cons_of_neg (by simp [hc]),
          List.dropWhile_cons_of_neg (by simp [hc])]
        dsimp only
        rw [if_neg hlt]
        rfl

/-- The prefix that selects the base is a mark. -/
lemma strtolBase_eq (base : ℕ) (q : List UInt8) :
    strtolBase base q = if HexMark base q then (16, q.drop 2) else (radixOf base [] q, q) := by
  unfold strtolBase HexMark radixOf
  dsimp only
  split_ifs <;> first | rfl | simp_all

/-- Digits that begin a text are among its first digits. -/
lemma prefix_takeWhile {P : UInt8 → Bool} {ds l : List UInt8} (h : ds <+: l)
    (hds : ∀ c ∈ ds, P c = true) : ds <+: l.takeWhile P := by
  obtain ⟨t, rfl⟩ := h
  rw [List.takeWhile_append_of_pos hds]
  exact List.prefix_append ds _

/-! ## Parts of a number -/

/-- What begins with a digit begins with no sign. -/
lemma not_sign_of_digit {c : UInt8} {d : ℕ} (h : strtolDigit c = some d) :
    ¬(c = byte '+' ∨ c = byte '-') := by
  rintro (rfl | rfl)
  · exact Option.some_ne_none d (h.symm.trans (by decide))
  · exact Option.some_ne_none d (h.symm.trans (by decide))

/-- A digit below some radix has a value. -/
lemma strtolDigit_of_isDigitOf {radix : ℕ} {c : UInt8} (h : isDigitOf radix c = true) :
    ∃ d, strtolDigit c = some d ∧ d < radix := by
  unfold isDigitOf at h
  cases hd : strtolDigit c with
  | none => simp [hd] at h
  | some d => exact ⟨d, rfl, by simpa [hd] using h⟩

/-- The sign of a text is that of a number it begins with. -/
lemma Subject.strtolSign_eq {base : ℕ} (s : Subject base) {p : List UInt8} (h : s.text <+: p) :
    strtolSign p = (s.negative, p.drop s.sign.length) ∧
      s.mark ++ s.digits <+: p.drop s.sign.length := by
  obtain ⟨t, rfl⟩ := h
  have hbody : ∃ c l d, s.mark ++ s.digits = c :: l ∧ strtolDigit c = some d := by
    obtain hm | ⟨-, hm | hm⟩ := s.mark_eq
    · obtain ⟨c, l, hcl⟩ := List.exists_cons_of_ne_nil s.digits_ne
      obtain ⟨d, hd, -⟩ := strtolDigit_of_isDigitOf
        (s.digits_lt c (by rw [hcl]; exact List.mem_cons_self))
      exact ⟨c, l, d, by rw [hm, hcl, List.nil_append], hd⟩
    · exact ⟨byte '0', byte 'x' :: s.digits, 0, by rw [hm]; rfl, by decide⟩
    · exact ⟨byte '0', byte 'X' :: s.digits, 0, by rw [hm]; rfl, by decide⟩
  have hdrop : (s.text ++ t).drop s.sign.length = s.mark ++ s.digits ++ t := by
    rw [Subject.text, List.append_assoc, List.drop_left]
  rw [hdrop]
  refine ⟨?_, List.prefix_append _ t⟩
  obtain ⟨c, l, d, hcl, hd⟩ := hbody
  unfold Subject.text Subject.negative
  obtain hs | hs | hs := s.sign_eq
  · rw [hs, List.nil_append, hcl, List.cons_append, strtolSign, if_neg (not_sign_of_digit hd)]
    rfl
  · rw [hs, List.append_assoc, List.singleton_append, strtolSign, if_pos (Or.inl rfl)]
    rfl
  · rw [hs, List.append_assoc, List.singleton_append, strtolSign, if_pos (Or.inr rfl)]
    rfl

/-- Every text begins with a sign or none. -/
lemma exists_sign (p : List UInt8) :
    ∃ sign : List UInt8, (sign = [] ∨ sign = [byte '+'] ∨ sign = [byte '-']) ∧
      p = sign ++ (strtolSign p).2 ∧ (strtolSign p).1 = decide (sign = [byte '-']) := by
  cases p with
  | nil => exact ⟨[], Or.inl rfl, rfl, rfl⟩
  | cons c p =>
    by_cases hplus : c = byte '+'
    · subst hplus
      exact ⟨[byte '+'], Or.inr (Or.inl rfl), rfl, rfl⟩
    · by_cases hminus : c = byte '-'
      · subst hminus
        exact ⟨[byte '-'], Or.inr (Or.inr rfl), rfl, rfl⟩
      · refine ⟨[], Or.inl rfl, ?_, ?_⟩
        · rw [strtolSign, if_neg (not_or.mpr ⟨hplus, hminus⟩)]
          rfl
        · rw [strtolSign, if_neg (not_or.mpr ⟨hplus, hminus⟩)]
          rfl

/-- The radix of digits depends on the first of them. -/
lemma radixOf_of_begins (base : ℕ) {ds q : List UInt8} (h : ds <+: q) (hne : ds ≠ []) :
    radixOf base [] ds = radixOf base [] q := by
  obtain ⟨t, rfl⟩ := h
  obtain ⟨c, l, rfl⟩ := List.exists_cons_of_ne_nil hne
  rfl

/-- The mark of a number marks the text. -/
lemma Subject.marked {base : ℕ} (s : Subject base) {q : List UInt8}
    (h : s.mark ++ s.digits <+: q) (hm : s.mark ≠ []) :
    HexMark base q ∧ s.mark.length = 2 ∧ s.digits <+: q.drop 2 ∧ s.radix = 16 := by
  have hradix : s.radix = 16 := if_pos hm
  obtain ⟨t, rfl⟩ := h
  obtain hnil | ⟨hbase, hx | hx⟩ := s.mark_eq
  · exact absurd hnil hm
  · rw [hx]
    exact ⟨⟨hbase, rfl, Or.inl rfl⟩, rfl, List.prefix_append _ t, hradix⟩
  · rw [hx]
    exact ⟨⟨hbase, rfl, Or.inr rfl⟩, rfl, List.prefix_append _ t, hradix⟩

/-- The `x` of a mark is no digit. -/
lemma isDigitOf_x {radix : ℕ} (hradix : radix ≤ 16) {c : UInt8}
    (hc : c = byte 'x' ∨ c = byte 'X') : isDigitOf radix c = false := by
  have hd : strtolDigit c = some 33 := by
    obtain rfl | rfl := hc
    · decide
    · decide
  unfold isDigitOf
  rw [hd]
  exact decide_eq_false (by omega)

/-- Without a mark, a number that begins a marked text is the zero of its mark. -/
lemma Subject.unmarked {base : ℕ} (s : Subject base) {q : List UInt8} (h : s.digits <+: q)
    (hm : s.mark = []) (hq : HexMark base q) : s.digits.length = 1 := by
  obtain ⟨hbase, hzero, hx⟩ := hq
  obtain ⟨t, rfl⟩ := h
  obtain ⟨c, l, hcl⟩ := List.exists_cons_of_ne_nil s.digits_ne
  cases l with
  | nil => rw [hcl]; rfl
  | cons x l =>
    exfalso
    rw [hcl] at hzero hx
    have hc : c = byte '0' := Option.some.inj hzero
    have hx : x = byte 'x' ∨ x = byte 'X' := hx.imp Option.some.inj Option.some.inj
    have hradix : radixOf base s.mark s.digits ≤ 16 := by
      rw [hm, hcl, hc, radixOf, if_neg (not_not_intro rfl)]
      split_ifs <;> omega
    have hlt := s.digits_lt x (by rw [hcl]; exact List.mem_cons_of_mem c List.mem_cons_self)
    rw [isDigitOf_x hradix hx] at hlt
    exact absurd hlt Bool.false_ne_true

/-- The number of bytes of the mark. -/
def markLength (base : ℕ) (q : List UInt8) : ℕ := if HexMark base q then 2 else 0

/-- The digits stand behind the mark. -/
lemma strtolBase_snd (base : ℕ) (q : List UInt8) :
    (strtolBase base q).2 = q.drop (markLength base q) := by
  rw [strtolBase_eq, markLength]
  split_ifs
  · rfl
  · rfl

/-- A number that begins a text: it has the sign and the mark of the text, and its digits are among
those the code finds; or it is the zero of the mark. -/
lemma Subject.parts {base : ℕ} (s : Subject base) {p : List UInt8} (h : s.text <+: p) :
    (strtolSign p = (s.negative, p.drop s.sign.length) ∧ s.sign.length ≤ p.length) ∧
      (s.mark.length = markLength base (strtolSign p).2 ∧
          s.digits <+: foundDigits base (strtolSign p).2 ∧
          s.radix = (strtolBase base (strtolSign p).2).1 ∨
        HexMark base (strtolSign p).2 ∧ s.mark = [] ∧ s.digits.length = 1) := by
  obtain ⟨hsign, hbody⟩ := s.strtolSign_eq h
  have hle : s.sign.length ≤ p.length := by
    have := h.length_le
    rw [Subject.text, List.length_append] at this
    omega
  refine ⟨⟨hsign, hle⟩, ?_⟩
  rw [hsign]
  dsimp only
  generalize p.drop s.sign.length = q at hbody
  unfold foundDigits markLength
  rw [strtolBase_eq]
  by_cases hm : s.mark = []
  · rw [hm, List.nil_append] at hbody
    by_cases hq : HexMark base q
    · exact Or.inr ⟨hq, hm, s.unmarked hbody hm hq⟩
    · have hradix : s.radix = radixOf base [] q := by
        rw [Subject.radix, hm]
        exact radixOf_of_begins base hbody s.digits_ne
      rw [if_neg hq, if_neg hq, hm]
      refine Or.inl ⟨rfl, prefix_takeWhile hbody fun c hc => ?_, hradix⟩
      rw [← hradix]
      exact s.digits_lt c hc
  · obtain ⟨hq, hlen, hdigits, hradix⟩ := s.marked hbody hm
    rw [if_pos hq, if_pos hq]
    refine Or.inl ⟨hlen, prefix_takeWhile hdigits fun c hc => ?_, hradix⟩
    rw [← hradix]
    exact s.digits_lt c hc

/-- The mark of a marked text. -/
lemma HexMark.take_two {base : ℕ} {q : List UInt8} (hq : HexMark base q) :
    q.take 2 = [byte '0', byte 'x'] ∨ q.take 2 = [byte '0', byte 'X'] := by
  obtain ⟨-, hzero, hx⟩ := hq
  match q, hzero, hx with
  | c :: x :: q, hzero, hx =>
    rw [Option.some.inj hzero]
    exact hx.imp (fun hx => by rw [Option.some.inj hx]; rfl)
      fun hx => by rw [Option.some.inj hx]; rfl

/-- The digits that the code finds are those of a number. -/
lemma exists_subject {base : ℕ} {p : List UInt8} (h : foundDigits base (strtolSign p).2 ≠ []) :
    ∃ s : Subject base, s.text <+: p ∧ s.digits = foundDigits base (strtolSign p).2 ∧
      s.mark.length = markLength base (strtolSign p).2 := by
  obtain ⟨sign, hsign, hp, -⟩ := exists_sign p
  generalize (strtolSign p).2 = q at *
  have hall : ∀ c ∈ foundDigits base q, isDigitOf (strtolBase base q).1 c = true := fun c hc =>
    List.mem_takeWhile_imp hc
  have hprefix : foundDigits base q <+: (strtolBase base q).2 := List.takeWhile_prefix _
  generalize foundDigits base q = ds at *
  rw [strtolBase_eq] at hall hprefix
  by_cases hq : HexMark base q
  · rw [if_pos hq] at hall hprefix
    have hmark := hq.take_two
    have hne : q.take 2 ≠ [] := by
      obtain hmark | hmark := hmark
      · rw [hmark]
        exact List.cons_ne_nil _ _
      · rw [hmark]
        exact List.cons_ne_nil _ _
    refine ⟨⟨sign, q.take 2, ds, hsign, Or.inr ⟨hq.1, hmark⟩, h, ?_⟩, ?_, rfl, ?_⟩
    · rw [radixOf, if_pos hne]
      exact hall
    · obtain ⟨t, ht⟩ := hprefix
      refine ⟨t, ?_⟩
      rw [hp, Subject.text, List.append_assoc, List.append_assoc, ht, List.take_append_drop]
    · rw [markLength, if_pos hq]
      exact hmark.elim (congrArg List.length) (congrArg List.length)
  · rw [if_neg hq] at hall hprefix
    refine ⟨⟨sign, [], ds, hsign, Or.inl rfl, h, ?_⟩, ?_, rfl, ?_⟩
    · rw [radixOf_of_begins base hprefix h]
      exact hall
    · rw [hp]
      exact List.prefix_append_right_inj _ |>.mpr hprefix
    · rw [markLength, if_neg hq]
      rfl

/-! ## The longest number -/

/-- The longest number has the digits that the code finds. -/
lemma longest_subject {base : ℕ} {p : List UInt8} (h : foundDigits base (strtolSign p).2 ≠ [])
    {s : Subject base} (hs : s.Longest p) :
    s.digits = foundDigits base (strtolSign p).2 ∧
      s.mark.length = markLength base (strtolSign p).2 ∧
      s.radix = (strtolBase base (strtolSign p).2).1 := by
  obtain ⟨f, hf, hdigits, hmark⟩ := exists_subject h
  obtain ⟨⟨hsignf, hlef⟩, -⟩ := f.parts hf
  obtain ⟨⟨hsign, hle⟩, hparts⟩ := s.parts hs.1
  have hlen := hs.2 f hf
  have hq : (strtolSign p).2.length = p.length - f.sign.length := by
    rw [hsignf, List.length_drop]
  have hq' : (strtolSign p).2.length = p.length - s.sign.length := by
    rw [hsign, List.length_drop]
  simp only [Subject.text, List.length_append, hdigits, hmark] at hlen
  obtain ⟨hm, hds, hr⟩ | ⟨hhex, hm, hds⟩ := hparts
  · exact ⟨hds.eq_of_length_le (by omega), hm, hr⟩
  · have hpos := List.length_pos_iff.mpr h
    rw [markLength, if_pos hhex, hm, List.length_nil] at hlen
    omega

/-- If there is a number, there is a longest one. -/
lemma exists_longest {base : ℕ} {p : List UInt8} (h : foundDigits base (strtolSign p).2 ≠ []) :
    ∃ s : Subject base, s.Longest p := by
  obtain ⟨f, hf, hdigits, hmark⟩ := exists_subject h
  refine ⟨f, hf, fun s hs => ?_⟩
  obtain ⟨⟨hsignf, hlef⟩, -⟩ := f.parts hf
  obtain ⟨⟨hsign, hle⟩, hparts⟩ := s.parts hs
  have hq := congrArg (fun r => r.2.length) (hsignf.symm.trans hsign)
  dsimp only at hq
  rw [List.length_drop, List.length_drop] at hq
  simp only [Subject.text, List.length_append, hdigits, hmark]
  obtain ⟨hm, hds, -⟩ | ⟨hhex, hm, hds⟩ := hparts
  · have := hds.length_le
    omega
  · have hpos := List.length_pos_iff.mpr h
    rw [markLength, if_pos hhex, hm, List.length_nil]
    omega

/-- Where no digit stands behind a mark, its zero is the longest number. -/
lemma exists_zero {base : ℕ} {p : List UInt8} (hq : HexMark base (strtolSign p).2)
    (h : foundDigits base (strtolSign p).2 = []) : ∃ s : Subject base, s.Longest p := by
  obtain ⟨sign, hsign, hp, -⟩ := exists_sign p
  have hlt : ∀ c ∈ [byte '0'], isDigitOf (radixOf base [] [byte '0']) c = true := by
    intro c hc
    rw [List.mem_singleton] at hc
    subst hc
    obtain hbase | hbase := hq.1
    · subst hbase
      decide
    · subst hbase
      decide
  have hzero : [byte '0'] <+: (strtolSign p).2 := by
    obtain ⟨t, ht⟩ := List.take_prefix 2 (strtolSign p).2
    obtain hmark | hmark := hq.take_two
    · exact ⟨byte 'x' :: t, by rw [← ht, hmark]; rfl⟩
    · exact ⟨byte 'X' :: t, by rw [← ht, hmark]; rfl⟩
  have hlen : (strtolSign p).2.length = p.length - sign.length := by
    conv_rhs => rw [hp]
    rw [List.length_append, Nat.add_sub_cancel_left]
  have hle : sign.length ≤ p.length := by
    rw [hp, List.length_append]
    omega
  refine ⟨⟨sign, [], [byte '0'], hsign, Or.inl rfl, List.cons_ne_nil _ _, hlt⟩, ?_, ?_⟩
  · rw [hp]
    exact List.prefix_append_right_inj _ |>.mpr hzero
  · intro s' hs'
    obtain ⟨⟨hsign', hle'⟩, hparts⟩ := s'.parts hs'
    have hlen' : (strtolSign p).2.length = p.length - s'.sign.length := by
      rw [hsign', List.length_drop]
    obtain ⟨-, hds, -⟩ | ⟨-, hm, hds⟩ := hparts
    · rw [h] at hds
      exact absurd (List.prefix_nil.mp hds) s'.digits_ne
    · simp only [Subject.text, List.length_append, hm, hds, List.length_nil, List.length_cons]
      omega

/-! ## The code -/

/-- The result of `strtol`, by the digits it finds. -/
lemma strtol_eq (nptr : CString) (base : ℕ) {p q : List UInt8} {neg : Bool}
    (hp : nptr.bytes.dropWhile isspace = p) (hq : strtolSign p = (neg, q)) :
    strtol nptr base =
      (if neg then -BitVec.ofNat 64 (digitsValue (strtolBase base q).1 (foundDigits base q))
        else BitVec.ofNat 64 (digitsValue (strtolBase base q).1 (foundDigits base q)),
        if foundDigits base q = [] then nptr.bytes
        else (q.drop (markLength base q)).drop (foundDigits base q).length) := by
  rw [← strtolBase_snd]
  unfold strtol foundDigits
  rw [hp]
  dsimp only
  rw [hq]
  dsimp only
  rw [show (0 : BitVec 64) = BitVec.ofNat 64 0 from rfl, strtolLoop_eq]
  generalize (strtolBase base q).2 = start
  generalize (strtolBase base q).1 = radix
  have hsplit : start.takeWhile (isDigitOf radix) ++ start.dropWhile (isDigitOf radix) = start :=
    List.takeWhile_append_dropWhile
  have hlen := congrArg List.length hsplit
  rw [List.length_append] at hlen
  have hdrop : start.drop (start.takeWhile (isDigitOf radix)).length =
      start.dropWhile (isDigitOf radix) :=
    calc start.drop (start.takeWhile (isDigitOf radix)).length
      _ = (start.takeWhile (isDigitOf radix) ++ start.dropWhile (isDigitOf radix)).drop
          (start.takeWhile (isDigitOf radix)).length := by rw [hsplit]
      _ = start.dropWhile (isDigitOf radix) := List.drop_left
  have hend : (start.dropWhile (isDigitOf radix)).length = start.length ↔
      start.takeWhile (isDigitOf radix) = [] := by
    rw [← List.length_eq_zero_iff]
    omega
  rw [hdrop]
  simp only [hend]
  rfl

/-- The code finds no digit behind a mark just where there is none. -/
lemma bareHex_iff (base : ℕ) (nptr : CString) :
    BareHex base nptr ↔ HexMark base (strtolSign (nptr.bytes.dropWhile isspace)).2 ∧
      foundDigits base (strtolSign (nptr.bytes.dropWhile isspace)).2 = [] := by
  unfold BareHex
  refine and_congr_right fun hq => ?_
  unfold foundDigits
  rw [strtolBase_eq, if_pos hq]
  generalize (strtolSign (nptr.bytes.dropWhile isspace)).2 = q
  rw [← List.head?_drop]
  cases q.drop 2 with
  | nil => simp
  | cons c l => simp [List.takeWhile_cons]

/-- The value is that of the standard if the number fits or wraps to it. -/
lemma signedLimit_iff (neg : Bool) (m : ℕ) :
    (if neg then -BitVec.ofNat 64 m else BitVec.ofNat 64 m) = signedLimit neg m ↔
      SignedFits neg m := by
  have hlt : m % 2 ^ 64 < 2 ^ 64 := Nat.mod_lt m (by decide)
  unfold signedLimit SignedFits
  cases neg with
  | false =>
    simp only [Bool.false_eq_true, if_false]
    by_cases h : m < 2 ^ 63
    · rw [if_pos h]
      exact iff_of_true rfl (Or.inl h)
    · rw [if_neg h, ← BitVec.toNat_inj, BitVec.toNat_ofNat, BitVec.toNat_intMax]
      omega
  | true =>
    simp only [if_true]
    by_cases h : m ≤ 2 ^ 63
    · rw [if_pos h]
      exact iff_of_true rfl (Or.inl h)
    · rw [if_neg h, ← BitVec.toNat_inj, BitVec.toNat_neg, BitVec.toNat_ofNat,
        BitVec.toNat_intMin]
      omega

/-- The same for `strtoul`. -/
lemma unsignedLimit_iff (neg : Bool) (m : ℕ) :
    (if neg then -BitVec.ofNat 64 m else BitVec.ofNat 64 m) = unsignedLimit neg m ↔
      UnsignedFits neg m := by
  have hlt : m % 2 ^ 64 < 2 ^ 64 := Nat.mod_lt m (by decide)
  unfold unsignedLimit UnsignedFits
  by_cases h : m < 2 ^ 64
  · rw [if_pos h]
    exact iff_of_true rfl (Or.inl h)
  · rw [if_neg h, ← BitVec.toNat_inj, BitVec.toNat_allOnes]
    cases neg with
    | false =>
      simp only [Bool.false_eq_true, if_false]
      rw [BitVec.toNat_ofNat]
      omega
    | true =>
      simp only [if_true]
      rw [BitVec.toNat_neg, BitVec.toNat_ofNat]
      omega

/-- The result where no digit is found. -/
lemma strtol_absent (nptr : CString) {base : ℕ}
    (h : foundDigits base (strtolSign (nptr.bytes.dropWhile isspace)).2 = []) :
    strtol nptr base = (0, nptr.bytes) := by
  rcases hq : strtolSign (nptr.bytes.dropWhile isspace) with ⟨neg, q⟩
  rw [hq] at h
  dsimp only at h
  rw [strtol_eq nptr base rfl hq, h, if_pos rfl]
  cases neg with
  | false => rfl
  | true => exact congrArg (fun val => (val, nptr.bytes)) (BitVec.neg_zero 64)

/-- The result for the longest number. -/
lemma strtol_longest (nptr : CString) {base : ℕ} {s : Subject base}
    (h : foundDigits base (strtolSign (nptr.bytes.dropWhile isspace)).2 ≠ [])
    (hs : s.Longest (nptr.bytes.dropWhile isspace)) :
    strtol nptr base =
      (if s.negative then -BitVec.ofNat 64 s.magnitude else BitVec.ofNat 64 s.magnitude,
        (nptr.bytes.dropWhile isspace).drop s.text.length) := by
  obtain ⟨hdigits, hmark, hradix⟩ := longest_subject h hs
  obtain ⟨⟨hsign, -⟩, -⟩ := s.parts hs.1
  rw [strtol_eq nptr base rfl hsign]
  rw [hsign] at h hdigits hmark hradix
  dsimp only at h hdigits hmark hradix
  rw [← hdigits, ← hmark, ← hradix, if_neg s.digits_ne, List.drop_drop, List.drop_drop,
    Subject.text, List.length_append, List.length_append]
  rfl

/-- The results are those of the standard if no mark stands without a digit and the value is that
of the standard. -/
lemma parses_iff {limit : Bool → ℕ → BitVec 64} {fits : Bool → ℕ → Prop}
    (hlimit : ∀ neg m, (if neg then -BitVec.ofNat 64 m else BitVec.ofNat 64 m) = limit neg m ↔
      fits neg m) (base : ℕ) (nptr : CString) :
    Parses limit base nptr (strtol nptr base) ↔ ¬BareHex base nptr ∧
      ∀ s : Subject base, s.Longest (nptr.bytes.dropWhile isspace) →
        fits s.negative s.magnitude := by
  by_cases hdigits : foundDigits base (strtolSign (nptr.bytes.dropWhile isspace)).2 = []
  · have hnil := strtol_absent nptr hdigits
    by_cases hq : HexMark base (strtolSign (nptr.bytes.dropWhile isspace)).2
    · refine iff_of_false (fun hparse => ?_) fun h => h.1 ((bareHex_iff base nptr).mpr ⟨hq, hdigits⟩)
      obtain ⟨s, hs⟩ := exists_zero hq hdigits
      have hlen := congrArg (fun r => r.2.length) (hparse.found s hs)
      have hsuffix := (List.dropWhile_suffix isspace (l := nptr.bytes)).length_le
      have htext := hs.1.length_le
      have hpos := List.length_pos_iff.mpr s.digits_ne
      rw [hnil] at hlen
      dsimp only at hlen
      rw [List.length_drop] at hlen
      have : s.digits.length ≤ s.text.length := by
        rw [Subject.text, List.length_append, List.length_append]
        omega
      omega
    · have hnone : ∀ s : Subject base, ¬s.text <+: nptr.bytes.dropWhile isspace := by
        intro s hs
        obtain ⟨-, ⟨-, hds, -⟩ | ⟨hhex, -⟩⟩ := s.parts hs
        · rw [hdigits] at hds
          exact s.digits_ne (List.prefix_nil.mp hds)
        · exact hq hhex
      exact iff_of_true ⟨fun s hs => absurd hs.1 (hnone s), fun _ => hnil⟩
        ⟨fun h => hq h.1, fun s hs => absurd hs.1 (hnone s)⟩
  · obtain ⟨f, hf, -⟩ := exists_subject hdigits
    have hbare : ¬BareHex base nptr := fun h => hdigits ((bareHex_iff base nptr).mp h).2
    constructor
    · intro hparse
      refine ⟨hbare, fun s hs => ?_⟩
      have hresult := hparse.found s hs
      rw [strtol_longest nptr hdigits hs] at hresult
      exact (hlimit _ _).mp (congrArg Prod.fst hresult)
    · rintro ⟨-, hfits⟩
      refine ⟨fun s hs => ?_, fun hnone => absurd hf (hnone f)⟩
      rw [strtol_longest nptr hdigits hs, (hlimit _ _).mpr (hfits s hs)]

/-- The same if a bare prefix is no number to be converted. -/
lemma parsesAtZero_iff {limit : Bool → ℕ → BitVec 64} {fits : Bool → ℕ → Prop}
    (hlimit : ∀ neg m, (if neg then -BitVec.ofNat 64 m else BitVec.ofNat 64 m) = limit neg m ↔
      fits neg m) (base : ℕ) (nptr : CString) :
    ParsesAtZero limit base nptr (strtol nptr base) ↔
      (BareHex base nptr → nptr.bytes = (strtolSign (nptr.bytes.dropWhile isspace)).2) ∧
      (¬BareHex base nptr → ∀ s : Subject base, s.Longest (nptr.bytes.dropWhile isspace) →
        fits s.negative s.magnitude) := by
  have hparse := parses_iff hlimit base nptr
  constructor
  · rintro ⟨hbare, hother⟩
    refine ⟨fun h => ?_, fun h => (hparse.mp (hother h)).2⟩
    have hresult := hbare h
    rw [strtol_absent nptr ((bareHex_iff base nptr).mp h).2] at hresult
    exact congrArg Prod.snd hresult
  · rintro ⟨hbare, hother⟩
    refine ⟨fun h => ?_, fun h => hparse.mpr ⟨h, hother h⟩⟩
    rw [strtol_absent nptr ((bareHex_iff base nptr).mp h).2]
    exact congrArg (Prod.mk 0) (hbare h)

/-- **`strtol` and `strtoul` are those of the standard just where no `0x` stands without a digit
and the value of the longest number fits, or wraps to the limit.** If a bare `0x` is left alone,
with `*endptr` at its `0`, then it must be the beginning of the text. -/
theorem strtol_iff (base : ℕ) (nptr : CString) :
    (Parses signedLimit base nptr (strtol nptr base) ↔ ¬BareHex base nptr ∧
      ∀ s : Subject base, s.Longest (nptr.bytes.dropWhile isspace) →
        SignedFits s.negative s.magnitude) ∧
    (Parses unsignedLimit base nptr (strtoul nptr base) ↔ ¬BareHex base nptr ∧
      ∀ s : Subject base, s.Longest (nptr.bytes.dropWhile isspace) →
        UnsignedFits s.negative s.magnitude) ∧
    (ParsesAtZero signedLimit base nptr (strtol nptr base) ↔
      (BareHex base nptr → nptr.bytes = (strtolSign (nptr.bytes.dropWhile isspace)).2) ∧
      (¬BareHex base nptr → ∀ s : Subject base, s.Longest (nptr.bytes.dropWhile isspace) →
        SignedFits s.negative s.magnitude)) ∧
    (ParsesAtZero unsignedLimit base nptr (strtoul nptr base) ↔
      (BareHex base nptr → nptr.bytes = (strtolSign (nptr.bytes.dropWhile isspace)).2) ∧
      (¬BareHex base nptr → ∀ s : Subject base, s.Longest (nptr.bytes.dropWhile isspace) →
        UnsignedFits s.negative s.magnitude)) :=
  ⟨parses_iff signedLimit_iff base nptr, parses_iff unsignedLimit_iff base nptr,
    parsesAtZero_iff signedLimit_iff base nptr, parsesAtZero_iff unsignedLimit_iff base nptr⟩

/-- **A number of twenty digits** is converted to zero. -/
theorem not_parses_large :
    ¬∀ (base : ℕ) (nptr : CString), base = 0 ∨ 2 ≤ base ∧ base ≤ 36 →
      Parses signedLimit base nptr (strtol nptr base) ∧
          Parses unsignedLimit base nptr (strtoul nptr base) ∨
        ParsesAtZero signedLimit base nptr (strtol nptr base) ∧
          ParsesAtZero unsignedLimit base nptr (strtoul nptr base) := by
  intro h
  have hbare : ¬BareHex 10 (.ofBytes (ascii "18446744073709551616")) := fun hb =>
    absurd hb.1 (by decide)
  have hparse : Parses signedLimit 10 (.ofBytes (ascii "18446744073709551616"))
      (strtol (.ofBytes (ascii "18446744073709551616")) 10) :=
    (h 10 _ (Or.inr (by decide))).elim And.left fun h => h.1.other hbare
  have hfits := ((parses_iff signedLimit_iff _ _).mp hparse).2
  have hfound : foundDigits 10 (strtolSign (CString.bytes
      (.ofBytes (ascii "18446744073709551616")) |>.dropWhile isspace)).2 =
        ascii "18446744073709551616" := by decide
  have hne : foundDigits 10 (strtolSign (CString.bytes
      (.ofBytes (ascii "18446744073709551616")) |>.dropWhile isspace)).2 ≠ [] := by
    rw [hfound]
    decide
  obtain ⟨s, hs⟩ := exists_longest hne
  obtain ⟨hdigits, -, hradix⟩ := longest_subject hne hs
  obtain ⟨⟨hsign, -⟩, -⟩ := s.parts hs.1
  have hneg : s.negative = false := (congrArg Prod.fst hsign).symm.trans (by decide)
  have hmag : s.magnitude = 2 ^ 64 := by
    rw [Subject.magnitude, hdigits, hradix, hfound]
    decide
  have hcut := hfits s hs
  rw [hneg, hmag, SignedFits, if_neg Bool.false_ne_true] at hcut
  revert hcut
  decide

end Asteros.Libc
