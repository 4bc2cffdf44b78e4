import Asteros.Libc.FormatIntegers
import Asteros.Libc.NumberParsing

set_option autoImplicit false

/-!
# Reading printed integers

What `strtol` makes of the text of an integer conversion, in the base of the conversion. It skips
spaces in front of a sign and takes zeros behind it for digits; but `vformat` puts zeros in front of
a minus, and there `strtol` ends before the number begins.

## Main results

* `Specification.strtol_text` — spaces, a sign, zeros and digits are a number.
* `Specification.strtol_produces_iff` — when a printed number is read back.
* `strtol_decimal` — every `long` survives being printed and parsed.
-/

namespace Asteros.Libc

namespace Specification

variable (s : Specification)

/-- The digits of a value, and zeros in front of them, are digits. -/
lemma isDigitOf_of_mem {n : ℤ} {j : ℕ} {b : UInt8}
    (h : b ∈ List.replicate j (byte '0') ++ s.digitsText n) :
    isDigitOf s.conversion.base b = true := by
  have hdigit : ∀ d < s.conversion.base,
      isDigitOf s.conversion.base (s.conversion.digit d) = true := fun d hd => by
    rw [isDigitOf, s.strtolDigit_digit hd]
    exact decide_eq_true hd
  rcases List.mem_append.mp h with h | h
  · rw [List.eq_of_mem_replicate h]
    cases s.conversion <;> decide
  · unfold digitsText numbuf at h
    split_ifs at h
    · rw [List.mem_reverse, List.mem_singleton] at h
      exact h ▸ hdigit 0 (lt_trans Nat.zero_lt_one s.one_lt_base)
    · obtain ⟨d, hd, rfl⟩ := List.mem_map.mp (List.mem_reverse.mp h)
      exact hdigit d (Nat.digits_lt_base s.one_lt_base hd)

/-- The value of digits. -/
lemma digitsValue_eq {t : List UInt8} (h : ∀ b ∈ t, isDigitOf s.conversion.base b = true) :
    digitsValue s.conversion.base t = s.absValue t := by
  induction t using List.reverseRecOn with
  | nil => rfl
  | append_singleton t b ih =>
    obtain ⟨d, hd, -⟩ := strtolDigit_of_isDigitOf (h b (by simp))
    have ih := ih fun c hc => h c (List.mem_append_left _ hc)
    unfold digitsValue absValue at *
    rw [List.foldl_append, ih, List.reverse_append, List.reverse_singleton,
      List.singleton_append, List.filterMap_cons_some hd, Nat.ofDigits_cons, List.foldl_cons,
      List.foldl_nil, hd, Option.getD_some, Nat.mul_comm, Nat.add_comm]

/-- The zeros do not count. -/
lemma digitsValue_zeros (n : ℤ) (j : ℕ) :
    digitsValue s.conversion.base (List.replicate j (byte '0') ++ s.digitsText n) = n.natAbs := by
  obtain ⟨ds, hds, hvalue⟩ := s.filterMap_numbuf n.natAbs
  have hzeros := s.ofDigits_filterMap_append ds true j
  rw [if_pos rfl] at hzeros
  rw [s.digitsValue_eq fun b hb => s.isDigitOf_of_mem hb, absValue, List.reverse_append,
    List.reverse_replicate, digitsText, List.reverse_reverse, List.filterMap_append, hds, hzeros,
    hvalue]

/-- **Digits are converted** as far as a minus behind them. -/
lemma strtol_digits {nptr : CString} {ds rest : List UInt8} {neg : Bool}
    (hsign : strtolSign (nptr.bytes.dropWhile isspace) = (neg, ds ++ rest)) (hne : ds ≠ [])
    (hds : ∀ b ∈ ds, isDigitOf s.conversion.base b = true)
    (hrest : rest = [] ∨ ∃ n, rest = byte '-' :: s.digitsText n) :
    strtol nptr s.conversion.base =
      (if neg then -BitVec.ofNat 64 (digitsValue s.conversion.base ds)
        else BitVec.ofNat 64 (digitsValue s.conversion.base ds), rest) := by
  have hbase : s.conversion.base ≠ 0 ∧ s.conversion.base ≤ 16 := by
    cases s.conversion <;> decide
  have hall : ∀ b ∈ ds ++ rest, isDigitOf s.conversion.base b = true ∨ b = byte '-' := by
    intro b hb
    rcases List.mem_append.mp hb with hb | hb
    · exact .inl (hds b hb)
    · obtain rfl | ⟨n, rfl⟩ := hrest
      · exact absurd hb List.not_mem_nil
      · exact (List.mem_cons.mp hb).symm.imp_left (s.isDigitOf_of_mem (j := 0))
  have hmark : ¬HexMark s.conversion.base (ds ++ rest) := by
    -- an `x` is neither a digit of these bases nor a minus
    have hx : ∀ b ∈ ds ++ rest, ¬(b = byte 'x' ∨ b = byte 'X') := by
      rintro b hb hx
      rcases hall b hb with h | rfl
      · rw [isDigitOf_x hbase.2 hx] at h
        exact absurd h (by decide)
      · exact absurd hx (by decide)
    rintro ⟨-, -, h | h⟩
    · exact hx _ (List.mem_of_getElem? h) (.inl rfl)
    · exact hx _ (List.mem_of_getElem? h) (.inr rfl)
  have hradix : strtolBase s.conversion.base (ds ++ rest) = (s.conversion.base, ds ++ rest) := by
    rw [strtolBase_eq, if_neg hmark, radixOf, if_neg (by simp), if_pos hbase.1]
  have hend : rest.takeWhile (isDigitOf s.conversion.base) = [] := by
    obtain rfl | ⟨n, rfl⟩ := hrest <;> rfl
  have hfound : foundDigits s.conversion.base (ds ++ rest) = ds := by
    rw [foundDigits, hradix, List.takeWhile_append_of_pos hds, hend, List.append_nil]
  rw [strtol_eq nptr _ rfl hsign, hfound, hradix, if_neg hne, markLength, if_neg hmark,
    List.drop_zero, List.drop_left]

/-- A digit is no white space. -/
lemma isspace_of_isDigitOf {radix : ℕ} {c : UInt8} (h : isDigitOf radix c = true) :
    isspace c = false := by
  obtain ⟨d, hd, -⟩ := strtolDigit_of_isDigitOf h
  by_contra hspace
  simp only [isspace, Bool.not_eq_false, Bool.or_eq_true, beq_iff_eq] at hspace
  rcases hspace with ((((rfl | rfl) | rfl) | rfl) | rfl) | rfl <;>
    exact absurd (hd.symm.trans (by decide)) (Option.some_ne_none d)

/-- **Spaces, a sign, zeros and digits** are a number. -/
lemma strtol_text {nptr : CString} {n : ℤ} {i j : ℕ} (h : nptr.bytes =
      List.replicate i (byte ' ') ++
        (signText n ++ (List.replicate j (byte '0') ++ s.digitsText n))) :
    strtol nptr s.conversion.base = (BitVec.ofInt 64 n, []) := by
  have hdigits : ∀ b ∈ List.replicate j (byte '0') ++ s.digitsText n,
      isDigitOf s.conversion.base b = true := fun b hb => s.isDigitOf_of_mem hb
  have hvalue := s.digitsValue_zeros n j
  have hne : List.replicate j (byte '0') ++ s.digitsText n ≠ [] := by
    simp [s.digitsText_ne_nil n]
  generalize List.replicate j (byte '0') ++ s.digitsText n = body at *
  have hsign : strtolSign (nptr.bytes.dropWhile isspace) = (decide (n < 0), body ++ []) := by
    obtain ⟨c, l, rfl⟩ := List.exists_cons_of_ne_nil hne
    obtain ⟨d, hd, -⟩ := strtolDigit_of_isDigitOf (hdigits c (by simp))
    have hspaces : ∀ b ∈ List.replicate i (byte ' '), isspace b = true := fun b hb => by
      rw [List.eq_of_mem_replicate hb]
      decide
    rw [h, List.dropWhile_append_of_pos hspaces, List.append_nil, signText]
    split_ifs with hneg
    · rw [decide_eq_true hneg]
      rfl
    · rw [List.nil_append, List.dropWhile_cons_of_neg
        (by rw [isspace_of_isDigitOf (hdigits c (by simp))]; decide), strtolSign,
        if_neg (not_sign_of_digit hd), decide_eq_false hneg]
  rw [s.strtol_digits hsign hne hdigits (.inl rfl), hvalue]
  congr 1
  by_cases hneg : n < 0
  · rw [if_pos (decide_eq_true hneg), ← BitVec.ofInt_natCast, ← BitVec.ofInt_neg,
      Int.ofNat_natAbs_of_nonpos hneg.le, neg_neg]
  · rw [if_neg (by simpa using hneg), ← BitVec.ofInt_natCast, Int.natAbs_of_nonneg (by omega)]

/-- **A printed integer is read back** by `strtol`, with nothing left over, in the base of its
conversion, unless zeros go in front of a minus.

**Proof sketch.** Other padding is spaces in front of the sign, or zeros in front of digits without
one. Behind zeros and a minus the digits are never reached, and what is left over begins with the
minus. -/
theorem strtol_produces_iff (word : BitVec 64) {buf : CString} (hbuf : s.Produces word buf.bytes) :
    strtol buf s.conversion.base = (BitVec.ofInt 64 (s.codeValue word), []) ↔
      (s.zeroPadded = true → s.codeValue word < 0 →
        s.codeWidth ≤ (s.numberText (s.codeValue word)).length) := by
  have htext := s.produces_unique hbuf (s.vformat_specification word)
  generalize s.codeValue word = n at *
  rw [codeText, numberText] at htext
  constructor
  · intro hread hzero hneg
    by_contra hwide
    obtain ⟨k, hk⟩ : ∃ k, (s.codeWidth - (s.numberText n).length).toNat = k + 1 :=
      Nat.exists_eq_succ_of_ne_zero (by omega)
    rw [← numberText, hk, hzero, if_pos rfl, numberText, signText, if_pos hneg] at htext
    have hsign : strtolSign (buf.bytes.dropWhile isspace) =
        (false, List.replicate (k + 1) (byte '0') ++ byte '-' :: s.digitsText n) := by
      rw [htext]
      rfl
    have hrest := s.strtol_digits hsign (by simp)
      (fun b hb => s.isDigitOf_of_mem (n := n) (List.mem_append_left _ hb)) (.inr ⟨n, rfl⟩)
    rw [hread] at hrest
    exact absurd (congrArg Prod.snd hrest) (by simp)
  · intro hfits
    cases hzero : s.zeroPadded with
    | false => exact s.strtol_text (j := 0) (by rw [htext, hzero]; rfl)
    | true =>
      by_cases hneg : n < 0
      · have hnone : (s.codeWidth - (signText n ++ s.digitsText n).length).toNat = 0 :=
          Int.toNat_of_nonpos (by have := hfits hzero hneg; rw [numberText] at this; omega)
        exact s.strtol_text (i := 0) (j := 0) (by rw [htext, hnone]; rfl)
      · exact s.strtol_text (i := 0) (by rw [htext, hzero, signText, if_neg hneg]; rfl)

/-- `%05d` with -42. -/
theorem strtol_produces_padded : strtol (.ofBytes (ascii "00-42")) 10 ≠ (-42, []) := fun h =>
  absurd ((strtol_produces_iff ⟨[.zero], .decimal 5 (by decide), .absent, .d⟩ (-42)
    (vformat_specification _ _)).mp h) (by decide)

end Specification

/-- **Every `long` survives being printed and parsed.** -/
theorem strtol_decimal {s : CString} {v : BitVec 64} (hs : s.bytes = decimal v) :
    (strtol s 10).1 = v := by
  have hread := Specification.strtol_text ⟨[], .absent, .l, .d⟩ (n := v.toInt) (i := 0) (j := 0)
    (hs.trans (Specification.decimal_eq v))
  rw [show strtol s 10 = _ from hread, BitVec.ofInt_toInt]

end Asteros.Libc
