import Asteros.Lib.NearestEven
import Asteros.Libc.FormatBound
import Asteros.Libc.FormatIntegers
import Mathlib.Data.List.DropRight

set_option autoImplicit false

/-!
# The text of a double

`NSCFBridge_formatDouble`. A finite double is a multiple of the least positive one, so its value is an
integer in this unit; what the code computes is rounded to 53 bits. The digits are found one by one,
and those of a number that no `unsigned long long` holds are those that the conversions of the
processor lead to.

## Main definitions

* `Double` — the doubles, and what the code does with them.
* `formatDouble` — the text.

## Main results

* `formatDouble_spec` — it is a sign, digits, a point and digits.
-/

namespace Asteros.Foundation

open Asteros.Libc NearestEven

/-! ## Doubles -/

/-- The least positive double is two to minus this power. -/
def leastExponent : ℕ := 1074

/-- One, in units of the least positive double. -/
def unit : ℤ := 2 ^ leastExponent

/-- The doubles are less than two to this power. -/
def greatestExponent : ℕ := 1024

/-- The integers from here on are beyond the greatest double. -/
def beyond : ℕ := 2 ^ (greatestExponent + leastExponent)

/-- The integer is the value of a finite double in this unit. -/
def IsDouble (n : ℤ) : Prop := Representable 53 n ∧ n.natAbs < beyond

/-- The negative of a representable number. -/
lemma IsDouble.neg {n : ℤ} (h : IsDouble n) : IsDouble (-n) := by
  obtain ⟨⟨c, e, hc, hn⟩, hlt⟩ := h
  exact ⟨⟨c, e, hc, by rwa [Int.natAbs_neg]⟩, by rwa [Int.natAbs_neg]⟩

/-- The values of the C type `double`, with one zero. -/
inductive Double where
  /-- Not a number. -/
  | nan
  /-- An infinity. -/
  | infinite (neg : Bool)
  /-- A number. -/
  | finite (n : ℤ) (h : IsDouble n)

namespace Double

/-- The double for an exact value. -/
def round (n : ℤ) : Double :=
  if h : (NearestEven.round 53 n).natAbs < beyond then
    .finite (NearestEven.round 53 n) ⟨representable_round (by decide) n, h⟩
  else .infinite (decide (n < 0))

/-- `-d`. -/
def neg : Double → Double
  | .nan => .nan
  | .infinite s => .infinite (!s)
  | .finite n h => .finite (-n) h.neg

/-- `d < 0.0`. -/
def isNeg : Double → Bool
  | .finite n _ => decide (n < 0)
  | .infinite s => s
  | .nan => false

/-- `d > 0.0`. -/
def isPos : Double → Bool
  | .finite n _ => decide (0 < n)
  | .infinite s => !s
  | .nan => false

/-- `d * 10.0`. -/
def mulTen : Double → Double
  | .finite n _ => round (10 * n)
  | d => d

/-- `d - (double)v`. -/
def subInt (v : ℤ) : Double → Double
  | .finite n _ => round (n - NearestEven.round 53 v * unit)
  | d => d

/-- `(unsigned long long)d`. Outside of the range the conversion is undefined; the instruction gives
the value with only the highest bit set. -/
def toULongLong : Double → BitVec 64
  | .finite n _ =>
    if -2 ^ 63 ≤ n.tdiv unit ∧ n.tdiv unit < 2 ^ 64 then BitVec.ofInt 64 (n.tdiv unit)
    else BitVec.intMin 64
  | _ => BitVec.intMin 64

/-- `(int)d`, as the instruction does it. -/
def toInt : Double → ℤ
  | .finite n _ =>
    if -2 ^ 31 ≤ n.tdiv unit ∧ n.tdiv unit < 2 ^ 31 then n.tdiv unit else -2 ^ 31
  | _ => -2 ^ 31

end Double

/-! ## The text -/

/-- `(char)('0' + digit)`. -/
def digitOf (digit : ℤ) : UInt8 := UInt8.ofNat ((48 + digit) % 256).toNat

/-- The loop over the digits of the fraction, with so many rounds left. -/
def fracLoop : ℕ → Double → List UInt8
  | 0, _ => []
  | i + 1, frac =>
    if frac.isPos then
      digitOf frac.mulTen.toInt :: fracLoop i (frac.mulTen.subInt frac.mulTen.toInt)
    else []

/-- The digits without the zeros behind them. -/
def fracDigits (frac : Double) : List UInt8 := (fracLoop 15 frac).rdropWhile (· == byte '0')

/-- The format if there is no fraction. -/
def wholeFormat : CString := CString.ofBytes (ascii "%s%llu.0")

/-- The format if there is one. -/
def fractionFormat : CString := CString.ofBytes (ascii "%s%llu.%s")

/-- `NSCFBridge_formatDouble` into an array of 64 characters. -/
def formatDouble (d : Double) : CString :=
  let neg := d.isNeg
  let d := if neg then d.neg else d
  let intPart := d.toULongLong
  let digits := fracDigits (d.subInt intPart.toNat)
  let sign := CString.ofBytes (if neg then [byte '-'] else [])
  (if digits = [] then vsnprintf 64 wholeFormat [.str (some sign), .word intPart]
    else vsnprintf 64 fractionFormat
      [.str (some sign), .word intPart, .str (some (CString.ofBytes digits))]).getD (.ofBytes [])

/-! ## Integers with 53 bits -/

/-- One, as a natural number. -/
lemma unit_eq : unit = ((2 ^ leastExponent : ℕ) : ℤ) := by
  rw [unit, Nat.cast_pow, Nat.cast_ofNat]

/-- One is positive. -/
lemma unit_pos : 0 < unit := by
  rw [unit_eq]
  exact Int.natCast_pos.mpr (Nat.two_pow_pos _)

/-- The distance between the doubles just below one. -/
lemma unit_eq_mul {k : ℕ} (hk : leastExponent = 53 + k) : unit = 2 ^ 53 * ((2 ^ k : ℕ) : ℤ) := by
  rw [unit_eq, hk, Nat.pow_add, Nat.cast_mul, Nat.cast_pow 2 53, Nat.cast_ofNat]

/-- A number of 53 bits is one. -/
lemma representable_of_lt {n : ℕ} (h : n < 2 ^ 53) : Representable 53 (n : ℤ) :=
  ⟨n, 0, h, by simp⟩

/-- A multiple of one by a number of 53 bits. -/
lemma representable_mul_unit {n : ℤ} (h : Representable 53 n) : Representable 53 (n * unit) := by
  obtain ⟨c, e, hc, hn⟩ := h
  refine ⟨c, e + leastExponent, hc, ?_⟩
  rw [Int.natAbs_mul, hn, unit_eq, Int.natAbs_natCast, Nat.pow_add, Nat.mul_assoc]

/-- The whole part and the fraction of a double are doubles. -/
lemma representable_parts {n : ℤ} (h : Representable 53 n) (hn : 0 ≤ n) :
    Representable 53 (n / unit) ∧ Representable 53 (n % unit) := by
  obtain ⟨c, e, hc, habs⟩ := h
  lift n to ℕ using hn
  rw [Int.natAbs_natCast] at habs
  rw [unit_eq, ← Int.natCast_ediv, ← Int.natCast_emod, habs]
  rcases Nat.le_total leastExponent e with he | he
  · obtain ⟨k, rfl⟩ := Nat.exists_eq_add_of_le he
    have hsplit : c * 2 ^ (leastExponent + k) = c * 2 ^ k * 2 ^ leastExponent := by
      rw [Nat.pow_add]
      ring
    rw [hsplit, Nat.mul_div_cancel _ (Nat.two_pow_pos _), Nat.mul_mod_left]
    exact ⟨⟨c, k, hc, rfl⟩, representable_of_lt (Nat.two_pow_pos _)⟩
  · obtain ⟨k, hk⟩ := Nat.exists_eq_add_of_le he
    have hsplit : (2 : ℕ) ^ leastExponent = 2 ^ k * 2 ^ e := by
      rw [hk, Nat.pow_add, Nat.mul_comm]
    rw [hsplit, Nat.mul_div_mul_right _ _ (Nat.two_pow_pos _), Nat.mul_mod_mul_right]
    exact ⟨representable_of_lt ((Nat.div_le_self _ _).trans_lt hc),
      ⟨c % 2 ^ k, e, (Nat.mod_le _ _).trans_lt hc, rfl⟩⟩

/-- A double below one stays away from it. -/
lemma le_of_lt_unit {n : ℤ} (h : Representable 53 n) (hn : 0 ≤ n) (hlt : n < unit) {k : ℕ}
    (hk : leastExponent = 53 + k) : n ≤ (2 ^ 53 - 1) * ((2 ^ k : ℕ) : ℤ) := by
  obtain ⟨c, e, hc, habs⟩ := h
  lift n to ℕ using hn
  rw [Int.natAbs_natCast] at habs
  have hunit := unit_eq_mul hk
  have hnat : n ≤ (2 ^ 53 - 1) * 2 ^ k := by
    rcases Nat.le_total k e with he | he
    · obtain ⟨j, rfl⟩ := Nat.exists_eq_add_of_le he
      have hsplit : n = c * 2 ^ j * 2 ^ k := by
        rw [habs, Nat.pow_add, Nat.mul_assoc, Nat.mul_comm (2 ^ k)]
      have hlt' : c * 2 ^ j * 2 ^ k < 2 ^ 53 * 2 ^ k := by
        rw [← hsplit]
        omega
      have hj := Nat.lt_of_mul_lt_mul_right hlt'
      rw [hsplit]
      exact Nat.mul_le_mul_right _ (by omega)
    · rw [habs]
      exact Nat.mul_le_mul (by omega) (Nat.pow_le_pow_right (by decide) he)
  omega

/-- Ten times a double below one is rounded to less than ten. -/
lemma round_ten_lt {n : ℤ} (h : Representable 53 n) (hn : 0 ≤ n) (hlt : n < unit) :
    0 ≤ NearestEven.round 53 (10 * n) ∧ NearestEven.round 53 (10 * n) < 10 * unit := by
  obtain ⟨k, hk⟩ : ∃ k, leastExponent = 53 + k := ⟨1021, rfl⟩
  have hunit := unit_eq_mul hk
  have hle := le_of_lt_unit h hn hlt hk
  have hpos := Nat.two_pow_pos k
  have hzero : NearestEven.round 53 0 = 0 :=
    round_of_representable (by decide) (representable_of_lt (n := 0) (by decide))
  have hlow := round_mono (p := 53) (by decide) (show 0 ≤ 10 * n by omega)
  rw [hzero] at hlow
  refine ⟨hlow, ?_⟩
  -- the greatest double below ten, and how far it is
  have hten : Representable 53 (((10 * 2 ^ 49 - 1) * (2 ^ 4 * 2 ^ k) : ℕ) : ℤ) := by
    refine ⟨10 * 2 ^ 49 - 1, 4 + k, by decide, ?_⟩
    rw [Int.natAbs_natCast, Nat.pow_add]
  have hnear := round_nearest (p := 53) (by decide) (10 * n) hten
  omega

/-! ## The digits of the fraction -/

namespace Double

/-- A fraction: not negative, and below one. -/
def IsFraction (d : Double) : Prop := ∃ n h, d = .finite n h ∧ 0 ≤ n ∧ n < unit

/-- A number that no `int` holds, with some distance. -/
def IsLarge (d : Double) : Prop :=
  d = .infinite false ∨ ∃ n h, d = .finite n h ∧ 2 ^ 40 * unit ≤ n

/-- An exact value that is a double is not rounded. -/
lemma round_of_isDouble {n : ℤ} (h : IsDouble n) : round n = .finite n h := by
  have heq := round_of_representable (by decide) h.1
  unfold round
  rw [dif_pos (by rw [heq]; exact h.2)]
  congr 1

/-- What is not less than a large number is rounded to a large one. -/
lemma isLarge_round {n : ℤ} (h : 2 ^ 40 * unit ≤ n) : (round n).IsLarge := by
  have hunit := unit_pos
  have hrep : Representable 53 ((2 ^ 40 : ℤ) * unit) :=
    representable_mul_unit (representable_of_lt (n := 2 ^ 40) (by decide))
  have hmono := round_mono (p := 53) (by decide) h
  rw [round_of_representable (by decide) hrep] at hmono
  unfold round
  split_ifs with hlt
  · exact .inr ⟨_, _, rfl, hmono⟩
  · have hneg : ¬n < 0 := by omega
    rw [decide_eq_false hneg]
    exact .inl rfl

/-- A number below ten is not beyond the greatest double. -/
lemma lt_beyond {n : ℤ} (h0 : 0 ≤ n) (h : n < 10 * unit) : n.natAbs < beyond := by
  obtain ⟨k, hk⟩ : ∃ k, greatestExponent = k + 4 := ⟨1020, rfl⟩
  have hle : 1 * 2 ^ 4 * 2 ^ leastExponent ≤ beyond := by
    rw [beyond, hk, Nat.pow_add, Nat.pow_add]
    exact Nat.mul_le_mul_right _ (Nat.mul_le_mul_right _ Nat.one_le_two_pow)
  rw [unit_eq] at h
  omega

/-- **The next digit of a fraction** is a digit, and leaves a fraction. -/
lemma IsFraction.step {d : Double} (h : d.IsFraction) :
    0 ≤ d.mulTen.toInt ∧ d.mulTen.toInt < 10 ∧ (d.mulTen.subInt d.mulTen.toInt).IsFraction := by
  obtain ⟨n, hn, rfl, hlow, hlt⟩ := h
  obtain ⟨hrlow, hrlt⟩ := round_ten_lt hn.1 hlow hlt
  have hunit := unit_pos
  have hrep := representable_round (p := 53) (by decide) (10 * n)
  have hlt' : (NearestEven.round 53 (10 * n)).natAbs < beyond := lt_beyond hrlow hrlt
  obtain ⟨r, hr, hten⟩ : ∃ r, ∃ hr : IsDouble r, mulTen (.finite n hn) = .finite r hr ∧ 0 ≤ r ∧
      r < 10 * unit :=
    ⟨_, ⟨hrep, hlt'⟩, by rw [mulTen, round, dif_pos hlt'], hrlow, hrlt⟩
  obtain ⟨hten, hrlow, hrlt⟩ := hten
  have hdiv : 0 ≤ r / unit ∧ r / unit < 10 :=
    ⟨Int.ediv_nonneg hrlow hunit.le, Int.ediv_lt_of_lt_mul hunit hrlt⟩
  have htoInt : toInt (.finite r hr) = r / unit := by
    rw [toInt, Int.tdiv_eq_ediv_of_nonneg hrlow, if_pos ⟨by omega, by omega⟩]
  have hdigit : NearestEven.round 53 (r / unit) = r / unit :=
    round_of_representable (by decide) (representable_parts hr.1 hrlow).1
  have hmod := Int.emod_nonneg r hunit.ne'
  have hmodlt := Int.emod_lt_of_pos r hunit
  have hpart : IsDouble (r % unit) :=
    ⟨(representable_parts hr.1 hrlow).2, lt_beyond hmod (by omega)⟩
  have hrest : r - r / unit * unit = r % unit := by
    rw [Int.emod_def, Int.mul_comm]
  rw [hten, htoInt]
  refine ⟨hdiv.1, hdiv.2, r % unit, hpart, ?_, hmod, hmodlt⟩
  rw [subInt, hdigit, hrest, round_of_isDouble hpart]

/-- The conversion of a large number gives `INT_MIN`, and leaves a large number. -/
lemma IsLarge.step {d : Double} (h : d.IsLarge) :
    d.mulTen.toInt = -2 ^ 31 ∧ (d.mulTen.subInt d.mulTen.toInt).IsLarge := by
  have hunit := unit_pos
  have hten : d.mulTen.IsLarge := by
    rcases h with rfl | ⟨n, hn, rfl, hle⟩
    · exact .inl rfl
    · exact isLarge_round (by omega)
  have hmin : NearestEven.round 53 (-2 ^ 31) = -2 ^ 31 :=
    round_of_representable (by decide) ⟨2 ^ 31, 0, by decide, by decide⟩
  rcases hten with heq | ⟨n, hn, heq, hle⟩
  · rw [heq]
    exact ⟨rfl, .inl rfl⟩
  · have hdiv : 2 ^ 40 ≤ n / unit := Int.le_ediv_of_mul_le hunit hle
    have htoInt : toInt (.finite n hn) = -2 ^ 31 := by
      rw [toInt, Int.tdiv_eq_ediv_of_nonneg (by omega), if_neg (by omega)]
    rw [heq, htoInt]
    refine ⟨rfl, ?_⟩
    rw [subInt, hmin]
    exact isLarge_round (by omega)

end Double

open Double

/-- The character of a digit. -/
lemma isdigit_digitOf {v : ℤ} (h0 : 0 ≤ v) (h : v < 10) : isdigit (digitOf v) = true := by
  have hnat : ((48 + v) % 256).toNat = 48 + v.toNat := by omega
  have hchar : digitOf v = digitChar v.toNat := by
    rw [digitOf, hnat, digitChar]
  rw [hchar]
  exact isdigit_digitChar (by omega)

/-- **The loop stores digits**, of a fraction as of a large number. -/
lemma fracLoop_digits (i : ℕ) {d : Double} (h : d = .nan ∨ d.IsFraction ∨ d.IsLarge) :
    (∀ b ∈ fracLoop i d, isdigit b = true) ∧ (fracLoop i d).length ≤ i := by
  induction i generalizing d with
  | zero => exact ⟨fun b hb => absurd hb List.not_mem_nil, Nat.le_refl 0⟩
  | succ i ih =>
    rw [fracLoop]
    split_ifs with hpos
    · have hstep : isdigit (digitOf d.mulTen.toInt) = true ∧
          (d.mulTen.subInt d.mulTen.toInt = .nan ∨
            (d.mulTen.subInt d.mulTen.toInt).IsFraction ∨
              (d.mulTen.subInt d.mulTen.toInt).IsLarge) := by
        rcases h with rfl | h | h
        · cases hpos
        · obtain ⟨hlow, hlt, hnext⟩ := h.step
          exact ⟨isdigit_digitOf hlow hlt, .inr (.inl hnext)⟩
        · obtain ⟨hmin, hnext⟩ := h.step
          rw [hmin] at hnext ⊢
          exact ⟨by decide, .inr (.inr hnext)⟩
      obtain ⟨hdigits, hlen⟩ := ih hstep.2
      refine ⟨fun b hb => ?_, by rw [List.length_cons]; omega⟩
      rcases List.mem_cons.mp hb with rfl | hb
      · exact hstep.1
      · exact hdigits b hb
    · exact ⟨fun b hb => absurd hb List.not_mem_nil, Nat.zero_le _⟩

/-- What is left of the absolute value without its whole part is a fraction, or large. -/
lemma subInt_cases (d : Double) :
    let abs := if d.isNeg then d.neg else d
    abs.subInt abs.toULongLong.toNat = .nan ∨
      (abs.subInt abs.toULongLong.toNat).IsFraction ∨
        (abs.subInt abs.toULongLong.toNat).IsLarge := by
  have hunit := unit_pos
  have habs : (if d.isNeg then d.neg else d) = .nan ∨
      (if d.isNeg then d.neg else d) = .infinite false ∨
        ∃ n h, (if d.isNeg then d.neg else d) = .finite n h ∧ 0 ≤ n := by
    cases d with
    | nan => exact .inl rfl
    | infinite s => cases s <;> exact .inr (.inl rfl)
    | finite n h =>
      rw [isNeg]
      split_ifs with hneg
      · rw [decide_eq_true_eq] at hneg
        exact .inr (.inr ⟨-n, h.neg, rfl, by omega⟩)
      · rw [decide_eq_true_eq] at hneg
        exact .inr (.inr ⟨n, h, rfl, by omega⟩)
  dsimp only
  generalize (if d.isNeg then d.neg else d) = abs at habs ⊢
  rcases habs with rfl | rfl | ⟨n, h, rfl, hn⟩
  · exact .inl rfl
  · exact .inr (.inr (.inl rfl))
  · have hdiv := Int.ediv_nonneg hn hunit.le
    rw [toULongLong, Int.tdiv_eq_ediv_of_nonneg hn]
    split_ifs with hrange
    · -- the whole part fits
      have hnat : ((BitVec.ofInt 64 (n / unit)).toNat : ℤ) = n / unit := by
        rw [BitVec.toNat_ofInt, Int.toNat_of_nonneg (Int.emod_nonneg _ (by decide))]
        exact Int.emod_eq_of_lt hdiv hrange.2
      obtain ⟨hwhole, hpart⟩ := representable_parts h.1 hn
      have hmod := Int.emod_nonneg n hunit.ne'
      have hmodlt := Int.emod_lt_of_pos n hunit
      have hdouble : IsDouble (n % unit) := ⟨hpart, lt_beyond hmod (by omega)⟩
      have hrest : n - n / unit * unit = n % unit := by
        rw [Int.emod_def, Int.mul_comm]
      rw [hnat, subInt, round_of_representable (by decide) hwhole, hrest,
        round_of_isDouble hdouble]
      exact .inr (.inl ⟨_, _, rfl, hmod, hmodlt⟩)
    · have hmin : ((BitVec.intMin 64).toNat : ℤ) = 2 ^ 63 := by decide
      have hrep : NearestEven.round 53 (2 ^ 63) = 2 ^ 63 :=
        round_of_representable (by decide) ⟨1, 63, by decide, by decide⟩
      have hle : 2 ^ 64 * unit ≤ n := by
        have hge : 2 ^ 64 ≤ n / unit := by omega
        exact (Int.le_ediv_iff_mul_le hunit).mp hge
      rw [hmin, subInt, hrep]
      exact .inr (.inr (isLarge_round (by omega)))

/-! ## The text -/

/-- `%s`, and the format behind it. -/
lemma expansionLoop_string (s : CString) (fuel : ℕ) (p : List UInt8) (ap : List VaArg) :
    expansionLoop (fuel + 1) (byte '%' :: byte 's' :: p) (.str (some s) :: ap) =
      (expansionLoop fuel p ap).map (s.bytes ++ ·) := by
  have hdirective : ∀ ap, Libc.directive (byte 's' :: p) ap =
      some (⟨false, false, 0, 0⟩, byte 's' :: p, ap) := fun ap => rfl
  have htext : Libc.conversion ⟨false, false, 0, 0⟩ (byte 's') (.str (some s) :: ap) =
      some (s.bytes, ap) := by
    rw [Libc.conversion, if_neg (by decide), if_neg (by decide), if_neg (by decide), if_pos rfl]
    simp [vaStr, stringText]
  rw [expansionLoop, if_pos rfl, hdirective]
  simp only [Option.bind_eq_bind, Option.bind_some, htext]

/-- `%llu`, and the format behind it. -/
lemma expansionLoop_unsigned (v : BitVec 64) (fuel : ℕ) (p : List UInt8) (ap : List VaArg) :
    expansionLoop (fuel + 1) (byte '%' :: byte 'l' :: byte 'l' :: byte 'u' :: p) (.word v :: ap) =
      (expansionLoop fuel p ap).map ((numbuf digitChar 10 v.toNat).reverse ++ ·) := by
  have hdirective : ∀ ap, Libc.directive (byte 'l' :: byte 'l' :: byte 'u' :: p) ap =
      some (⟨false, false, 0, 2⟩, byte 'u' :: p, ap) := fun ap => rfl
  have hdigits : numbuf lowerDigit 10 v.toNat = numbuf digitChar 10 v.toNat := by
    unfold numbuf
    split_ifs
    · rfl
    · apply List.map_congr_left
      intro d hd
      exact Specification.lowerDigit_eq (Nat.digits_lt_base (by decide) hd)
  have htext : Libc.conversion ⟨false, false, 0, 2⟩ (byte 'u') (.word v :: ap) =
      some ((numbuf digitChar 10 v.toNat).reverse, ap) := by
    have hunsigned : unsignedText ⟨false, false, 0, 2⟩ (byte 'u') v.toNat =
        (numbuf digitChar 10 v.toNat).reverse := by
      have hpadding : ∀ len : ℕ, ((0 : ℤ) - len).toNat = 0 := fun len => by omega
      unfold unsignedText Directive.padding
      dsimp only
      rw [if_neg (by decide), if_pos rfl, if_neg (by decide), hpadding, List.replicate_zero,
        List.nil_append, hdigits]
    rw [Libc.conversion, if_neg (by decide), if_pos (Or.inl rfl), ← hunsigned]
    rfl
  rw [expansionLoop, if_pos rfl, hdirective]
  simp only [Option.bind_eq_bind, Option.bind_some, htext]

/-- Characters that are digits have no NUL among them. -/
lemma nulFree_digits {s : List UInt8} (h : ∀ b ∈ s, isdigit b = true) : 0 ∉ s := fun h0 =>
  absurd (h 0 h0) (by decide)

/-- The text without a fraction. -/
lemma expansion_whole (sign : CString) (v : BitVec 64) :
    expansion wholeFormat [.str (some sign), .word v] =
      some (sign.bytes ++ ((numbuf digitChar 10 v.toNat).reverse ++ byte '.' :: [byte '0'])) := by
  have hfmt : wholeFormat.bytes = byte '%' :: byte 's' :: byte '%' :: byte 'l' :: byte 'l' ::
      byte 'u' :: byte '.' :: [byte '0'] := by decide
  rw [expansion, CString.strlen, hfmt]
  simp only [List.length_cons, List.length_nil, Nat.zero_add]
  rw [expansionLoop_string, expansionLoop_unsigned, expansionLoop_literal (by decide),
    expansionLoop_literal (by decide), expansionLoop]
  rfl

/-- The text with a fraction. -/
lemma expansion_fraction (sign digits : CString) (v : BitVec 64) :
    expansion fractionFormat [.str (some sign), .word v, .str (some digits)] =
      some (sign.bytes ++ ((numbuf digitChar 10 v.toNat).reverse ++ byte '.' :: digits.bytes)) := by
  have hfmt : fractionFormat.bytes = byte '%' :: byte 's' :: byte '%' :: byte 'l' :: byte 'l' ::
      byte 'u' :: byte '.' :: byte '%' :: [byte 's'] := by decide
  rw [expansion, CString.strlen, hfmt]
  simp only [List.length_cons, List.length_nil, Nat.zero_add]
  rw [expansionLoop_string, expansionLoop_unsigned, expansionLoop_literal (by decide),
    expansionLoop_string, expansionLoop, Option.map_some, List.append_nil]
  rfl

/-- A text that fits is what the array holds. -/
lemma vsnprintf_getD {size : ℕ} {fmt : CString} {ap : List VaArg} {text : List UInt8}
    (hexp : expansion fmt ap = some text) (hlen : text.length < size) (hnul : 0 ∉ text) :
    ((vsnprintf size fmt ap).getD (.ofBytes [])).bytes = text := by
  rw [vsnprintf, vformat_eq, hexp]
  simp only [Option.map_some, Option.bind_eq_bind, Option.bind_some, Sink.contents_after hlen,
    Option.getD_some, CString.bytes_ofBytes_of_nulFree hnul]

/-- **The text of a double** is a sign or none, digits, a point and digits. -/
theorem formatDouble_spec (d : Double) :
    ∃ (neg : Bool) (int frac : List UInt8),
      (formatDouble d).bytes = (if neg then [byte '-'] else []) ++ (int ++ byte '.' :: frac) ∧
      int ≠ [] ∧ (∀ b ∈ int, isdigit b = true) ∧ (∀ b ∈ frac, isdigit b = true) ∧
      (formatDouble d).bytes.length < 64 := by
  obtain ⟨hloop, hlen⟩ := fracLoop_digits 15 (subInt_cases d)
  unfold formatDouble fracDigits
  dsimp only
  generalize (if d.isNeg then d.neg else d).toULongLong = v at *
  generalize fracLoop 15 ((if d.isNeg then d.neg else d).subInt v.toNat) = loop at *
  generalize d.isNeg = neg
  have hsub : ∀ b ∈ loop.rdropWhile (· == byte '0'), isdigit b = true := fun b hb =>
    hloop b ((List.rdropWhile_prefix _ loop).subset hb)
  have hsublen := (List.rdropWhile_prefix (· == byte '0') loop).length_le.trans hlen
  generalize loop.rdropWhile (· == byte '0') = digits at *
  have hint : ∀ b ∈ (numbuf digitChar 10 v.toNat).reverse, isdigit b = true := fun b hb =>
    isdigit_of_mem_numbuf (List.mem_reverse.mp hb)
  have hintlen : (numbuf digitChar 10 v.toNat).reverse.length ≤ 20 := by
    rw [List.length_reverse, length_numbuf_le_iff (by decide)]
    exact v.isLt.trans (by decide)
  have hne : (numbuf digitChar 10 v.toNat).reverse ≠ [] := by
    obtain ⟨c, p, -, hcons⟩ := exists_digit_numbuf v.toNat
    rw [hcons]
    exact List.cons_ne_nil _ _
  have hsign : (CString.ofBytes (if neg then [byte '-'] else [])).bytes =
      if neg then [byte '-'] else [] := by
    apply CString.bytes_ofBytes_of_nulFree
    cases neg <;> decide
  -- the array has room for all of it, and there is no NUL in it
  have hfits : ∀ frac : List UInt8, (∀ b ∈ frac, isdigit b = true) → frac.length ≤ 15 →
      ((if neg then [byte '-'] else []) ++
        ((numbuf digitChar 10 v.toNat).reverse ++ byte '.' :: frac)).length < 64 ∧
      0 ∉ (if neg then [byte '-'] else []) ++
        ((numbuf digitChar 10 v.toNat).reverse ++ byte '.' :: frac) := by
    intro frac hdigits hle
    have hone : (if neg then [byte '-'] else []).length ≤ 1 ∧
        0 ∉ (if neg then [byte '-'] else []) := by
      cases neg <;> decide
    have hpoint : (0 : UInt8) ≠ byte '.' := by decide
    refine ⟨?_, ?_⟩
    · rw [List.length_append, List.length_append, List.length_cons]
      omega
    · rw [List.mem_append, List.mem_append, List.mem_cons, not_or, not_or, not_or]
      exact ⟨hone.2, nulFree_digits hint, hpoint, nulFree_digits hdigits⟩
  by_cases hnil : digits = []
  · obtain ⟨hlt, hnul⟩ := hfits [byte '0'] (by decide) (by decide)
    have hexp := expansion_whole (.ofBytes (if neg then [byte '-'] else [])) v
    rw [hsign] at hexp
    rw [if_pos hnil, vsnprintf_getD hexp hlt hnul]
    exact ⟨neg, _, [byte '0'], rfl, hne, hint, by decide, hlt⟩
  · obtain ⟨hlt, hnul⟩ := hfits digits hsub hsublen
    have hexp := expansion_fraction (.ofBytes (if neg then [byte '-'] else [])) (.ofBytes digits) v
    rw [hsign, CString.bytes_ofBytes_of_nulFree (nulFree_digits hsub)] at hexp
    rw [if_neg hnil, vsnprintf_getD hexp hlt hnul]
    exact ⟨neg, _, digits, rfl, hne, hint, hsub, hlt⟩

end Asteros.Foundation
