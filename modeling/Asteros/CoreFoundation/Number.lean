import Asteros.Lib.NearestEven
import Mathlib.Data.Rat.Defs
import Mathlib.Algebra.Order.Ring.Unbundled.Rat

set_option autoImplicit false

/-!
# Numbers

`CFNumber.c`: a number holds an `int64_t` or a `double`. It is compared as a `double`, and hashed as
what it holds. An `int64_t` is rounded when it is converted, so that two of them that are different
may compare equal.

`CFNumberCreate` and `CFNumberGetValue` read and write the variable that they are given with the
width that their switch has for the type. For `kCFNumberCFIndexType` both take four bytes, although
a `CFIndex` has eight.

## Main definitions

* `Double` — the values of a `double`.
* `cfEqual`, `cfHash`, `cfNumberCompare` — comparing and hashing.
* `cfNumberCreate`, `cfNumberGetValue` — storing and reading an integer.

## Main results

* `exact_iff` — when two integers are compared as integers.
* `readBack_iff` — when an integer is read back as it was.
-/

namespace Asteros.CoreFoundation.Number

/-! ## Doubles -/

/-- The values of the C type `double`, with one zero. -/
inductive Double where
  /-- Not a number. -/
  | nan
  /-- An infinity. -/
  | infinite (neg : Bool)
  /-- A number. -/
  | finite (q : ℚ)

namespace Double

/-- `==`. -/
def eq : Double → Double → Bool
  | .finite a, .finite b => decide (a = b)
  | .infinite s, .infinite t => s == t
  | _, _ => false

/-- `<`. -/
def lt : Double → Double → Bool
  | .finite a, .finite b => decide (a < b)
  | .infinite true, .finite _ | .finite _, .infinite false | .infinite true, .infinite false => true
  | _, _ => false

/-- `(double)v`, rounded to the 53 bits of the significand. -/
def ofInt64 (v : BitVec 64) : Double := .finite (NearestEven.round 53 v.toInt)

/-- `(CFHashCode)d`, which cuts off the fraction. Outside of the range the conversion is undefined;
the instruction gives the value with only the highest bit set. -/
def toUInt64 : Double → BitVec 64
  | .finite q =>
    let t := if 0 ≤ q then q.floor else q.ceil
    if -2 ^ 63 ≤ t ∧ t < 2 ^ 64 then BitVec.ofInt 64 t else BitVec.intMin 64
  | _ => BitVec.intMin 64

end Double

/-! ## Comparing -/

/-- `struct __CFNumber`: `isFloat` says which member of the union is in use. -/
inductive CFNumber where
  /-- `v.i`. -/
  | int (i : BitVec 64)
  /-- `v.d`. -/
  | float (d : Double)

/-- `n->isFloat ? n->v.d : (double)n->v.i`. -/
def CFNumber.toDouble : CFNumber → Double
  | .int i => .ofInt64 i
  | .float d => d

/-- `numberEqual`. -/
def numberEqual (a b : CFNumber) : Bool := a.toDouble.eq b.toDouble

/-- `numberHash`. -/
def numberHash : CFNumber → BitVec 64
  | .int i => i
  | .float d => d.toUInt64

/-- `CFEqual`, for two addresses at which there are numbers. -/
def cfEqual (objects : ℕ → CFNumber) (cf1 cf2 : ℕ) : Bool :=
  if cf1 = cf2 then true
  else if cf1 = 0 ∨ cf2 = 0 then false
  else numberEqual (objects cf1) (objects cf2)

/-- `CFHash`. -/
def cfHash (objects : ℕ → CFNumber) (cf : ℕ) : BitVec 64 := numberHash (objects cf)

/-- `CFComparisonResult`. -/
inductive CFComparisonResult where
  | lessThan
  | equalTo
  | greaterThan
  deriving DecidableEq

/-- `CFNumberCompare`. -/
def cfNumberCompare (number otherNumber : CFNumber) : CFComparisonResult :=
  let a := number.toDouble
  let b := otherNumber.toDouble
  if a.lt b then .lessThan
  else if b.lt a then .greaterThan
  else .equalTo

/-- How integers compare. -/
def order (i j : ℤ) : CFComparisonResult :=
  if i < j then .lessThan else if j < i then .greaterThan else .equalTo

/-- Two numbers that hold these integers are compared as integers, and equal ones have equal
hashes. -/
structure Exact (objects : ℕ → CFNumber) (a b : ℕ) (i j : BitVec 64) : Prop where
  /-- `CFEqual` tells whether the integers are equal. -/
  equal : cfEqual objects a b = true ↔ i = j
  /-- `CFNumberCompare` orders them. -/
  compare : cfNumberCompare (objects a) (objects b) = order i.toInt j.toInt
  /-- Equal numbers have equal hashes. -/
  hash : cfEqual objects a b = true → cfHash objects a = cfHash objects b

/-- Converted integers are equal if they are rounded to the same. -/
lemma eq_ofInt64 (i j : BitVec 64) : (Double.ofInt64 i).eq (.ofInt64 j) = true ↔
    NearestEven.round 53 i.toInt = NearestEven.round 53 j.toInt := by
  simp [Double.eq, Double.ofInt64]

/-- They are ordered as what they are rounded to. -/
lemma lt_ofInt64 (i j : BitVec 64) : (Double.ofInt64 i).lt (.ofInt64 j) = true ↔
    NearestEven.round 53 i.toInt < NearestEven.round 53 j.toInt := by
  simp [Double.lt, Double.ofInt64, Rat.intCast_lt_intCast]

/-- The comparison of two numbers that hold integers. -/
lemma cfNumberCompare_int (i j : BitVec 64) : cfNumberCompare (.int i) (.int j) =
    order (NearestEven.round 53 i.toInt) (NearestEven.round 53 j.toInt) := by
  simp only [cfNumberCompare, CFNumber.toDouble, lt_ofInt64, order]

/-- Roundings that differ are ordered as the integers are. -/
lemma order_round {i j : ℤ} (h : NearestEven.round 53 i ≠ NearestEven.round 53 j) :
    order (NearestEven.round 53 i) (NearestEven.round 53 j) = order i j := by
  have hmono : ∀ {m n : ℤ}, m ≤ n → NearestEven.round 53 m ≤ NearestEven.round 53 n :=
    fun hle => NearestEven.round_mono (by decide) hle
  rcases lt_trichotomy i j with hlt | rfl | hgt
  · have hround := (hmono hlt.le).lt_of_ne h
    simp [order, hlt, hround]
  · exact absurd rfl h
  · have hround := (hmono hgt.le).lt_of_ne h.symm
    simp [order, hgt, hround, hgt.not_gt, hround.not_gt]

/-- **Integers are compared as integers** exactly if they are equal or are not rounded to the same
`double`. -/
theorem exact_iff {objects : ℕ → CFNumber} {a b : ℕ} {i j : BitVec 64} (ha : a ≠ 0) (hb : b ≠ 0)
    (hi : objects a = .int i) (hj : objects b = .int j) : Exact objects a b i j ↔
      i = j ∨ NearestEven.round 53 i.toInt ≠ NearestEven.round 53 j.toInt := by
  have hequal : cfEqual objects a b = true ↔
      a = b ∨ NearestEven.round 53 i.toInt = NearestEven.round 53 j.toInt := by
    simp [cfEqual, ha, hb, numberEqual, hi, hj, CFNumber.toDouble, eq_ofInt64]
  have hsame : a = b → i = j := by
    rintro rfl
    exact CFNumber.int.inj (hi.symm.trans hj)
  constructor
  · intro h
    by_contra hne
    push Not at hne
    exact hne.1 (h.equal.mp (hequal.mpr (.inr hne.2)))
  · intro h
    have hij : cfEqual objects a b = true ↔ i = j := by
      rw [hequal]
      constructor
      · rintro (hab | hround)
        · exact hsame hab
        · exact h.resolve_right fun hne => hne hround
      · rintro rfl
        exact .inr rfl
    refine ⟨hij, ?_, fun heq => ?_⟩
    · rw [hi, hj, cfNumberCompare_int]
      rcases h with rfl | hne
      · simp [order]
      · exact order_round hne
    · rw [cfHash, cfHash, hi, hj, hij.mp heq]

/-- It is so for all integers of at most 53 bits. -/
lemma round_ne_of_lt {i j : ℤ} (hi : i.natAbs < 2 ^ 53) (hj : j.natAbs < 2 ^ 53) (hne : i ≠ j) :
    NearestEven.round 53 i ≠ NearestEven.round 53 j := by
  rw [NearestEven.round_of_representable (by decide) (NearestEven.representable_of_lt hi),
    NearestEven.round_of_representable (by decide) (NearestEven.representable_of_lt hj)]
  exact hne

/-- Two numbers that hold small integers. -/
theorem exact_iff_small : Exact (fun a => .int (BitVec.ofNat 64 a)) 5 7 5 7 :=
  (exact_iff (by decide) (by decide) rfl rfl).mpr (.inr (round_ne_of_lt (by decide) (by decide)
    (by decide)))

/-- **`2 ^ 53` and its successor are equal** as numbers, but not as integers. -/
theorem not_exact_successor :
    ¬∀ (objects : ℕ → CFNumber) (a b : ℕ) (i j : BitVec 64), a ≠ 0 → b ≠ 0 → objects a = .int i →
      objects b = .int j → Exact objects a b i j := by
  intro h
  have hexact := h (fun a => .int (BitVec.ofNat 64 (2 ^ 53 + a - 1))) 1 2 (2 ^ 53) (2 ^ 53 + 1)
    (by decide) (by decide) rfl rfl
  have hequal : (2 ^ 53 : BitVec 64) = 2 ^ 53 + 1 := hexact.equal.mp (by decide +kernel)
  exact absurd hequal (by decide)

/-! ## Storing and reading -/

/-- The integer types among the `CFNumberType`s. -/
inductive IntegerType where
  | sInt8
  | sInt16
  | sInt32
  | sInt64
  | char
  | short
  | int
  | long
  | longLong
  | cfIndex
  | nsInteger
  deriving DecidableEq

namespace IntegerType

/-- The size of the C type that a type code stands for. -/
def sizeof : IntegerType → ℕ
  | .sInt8 | .char => 1
  | .sInt16 | .short => 2
  | .sInt32 | .int => 4
  | .sInt64 | .long | .longLong | .cfIndex | .nsInteger => 8

end IntegerType

/-- An access of so many bytes at the start of eight bytes of memory, sign-extended. -/
def load (bytes : ℕ) (cell : BitVec 64) : BitVec 64 := (cell.truncate (8 * bytes)).signExtend 64

/-- So many bytes are overwritten with those of a value; the others stay. -/
def store (bytes : ℕ) (cell value : BitVec 64) : BitVec 64 :=
  BitVec.ofNat 64 (cell.toNat / 2 ^ (8 * bytes) * 2 ^ (8 * bytes) + value.toNat % 2 ^ (8 * bytes))

/-- `CFNumberCreate` for an integer type, with the eight bytes of memory at `valuePtr`. -/
def cfNumberCreate (theType : IntegerType) (cell : BitVec 64) : CFNumber :=
  .int <| match theType with
    | .sInt8 => load 1 cell
    | .sInt16 | .short => load 2 cell
    | .sInt32 | .int | .cfIndex => load 4 cell
    | .sInt64 | .long | .longLong | .nsInteger => load 8 cell
    | .char => load 1 cell

/-- `(int64_t)d`, as the instruction does it. -/
def Double.toInt64 : Double → BitVec 64
  | .finite q =>
    let t := if 0 ≤ q then q.floor else q.ceil
    if -2 ^ 63 ≤ t ∧ t < 2 ^ 63 then BitVec.ofInt 64 t else BitVec.intMin 64
  | _ => BitVec.intMin 64

/-- `CFNumberGetValue` for an integer type: the eight bytes of memory at `valuePtr` afterwards. -/
def cfNumberGetValue (number : CFNumber) (theType : IntegerType) (cell : BitVec 64) : BitVec 64 :=
  let iv := match number with
    | .int i => i
    | .float d => d.toInt64
  match theType with
  | .sInt8 => store 1 cell iv
  | .sInt16 | .short => store 2 cell iv
  | .sInt32 | .int | .cfIndex => store 4 cell iv
  | .sInt64 | .long | .longLong | .nsInteger => store 8 cell iv
  | .char => store 1 cell iv

/-- What a variable of the second type holds after a number was made of one of the first type and
read into it. -/
def readBack (t t' : IntegerType) (cell cell' : BitVec 64) : BitVec 64 :=
  load t'.sizeof (cfNumberGetValue (cfNumberCreate t cell) t' cell')

/-- The bytes that both functions access for a type. -/
def IntegerType.width : IntegerType → ℕ
  | .cfIndex => 4
  | t => t.sizeof

lemma cfNumberCreate_eq (t : IntegerType) (cell : BitVec 64) :
    cfNumberCreate t cell = .int (load t.width cell) := by
  cases t <;> rfl

lemma cfNumberGetValue_int (i : BitVec 64) (t : IntegerType) (cell : BitVec 64) :
    cfNumberGetValue (.int i) t cell = store t.width cell i := by
  cases t <;> rfl

lemma width_eq {t : IntegerType} (h : t ≠ .cfIndex) : t.width = t.sizeof := by
  cases t <;> first | rfl | exact absurd rfl h

lemma one_le_sizeof (t : IntegerType) : 1 ≤ t.sizeof := by
  cases t <;> decide

lemma sizeof_le (t : IntegerType) : t.sizeof ≤ 8 := by
  cases t <;> decide

/-- The bits of an access: above its bytes, the sign. -/
lemma getLsbD_load {b i : ℕ} (hb : 1 ≤ b) (hi : i < 64) (cell : BitVec 64) :
    (load b cell).getLsbD i = cell.getLsbD (min i (8 * b - 1)) := by
  simp only [load, BitVec.getLsbD_signExtend, BitVec.truncate_eq_setWidth, BitVec.getLsbD_setWidth,
    BitVec.msb_setWidth, hi, decide_true, Bool.true_and]
  split
  · rename_i h
    rw [min_eq_left (by omega)]
    simp [h]
  · rename_i h
    rw [min_eq_right (by omega)]
    simp [show 0 < b by omega]

/-- The bits of what is overwritten. -/
lemma getLsbD_store {b i : ℕ} (hi : i < 64) (cell value : BitVec 64) :
    (store b cell value).getLsbD i = if i < 8 * b then value.getLsbD i else cell.getLsbD i := by
  rw [store, BitVec.getLsbD_ofNat, mul_comm (cell.toNat / 2 ^ (8 * b)),
    Nat.testBit_two_pow_mul_add _ (Nat.mod_lt _ (Nat.two_pow_pos _))]
  simp only [hi, decide_true, Bool.true_and]
  split
  · rename_i h
    simp [Nat.testBit_mod_two_pow, h, BitVec.testBit_toNat]
  · rename_i h
    rw [Nat.testBit_div_two_pow, Nat.sub_add_cancel (by omega), BitVec.testBit_toNat]

/-- What was written is what is read. -/
lemma load_store {b : ℕ} (hb : 1 ≤ b) (cell value : BitVec 64) :
    load b (store b cell value) = load b value := by
  apply BitVec.eq_of_getLsbD_eq
  intro i hi
  rw [getLsbD_load hb hi, getLsbD_load hb hi, getLsbD_store (by omega), if_pos (by omega)]

/-- A wider access to a sign-extended value gives that value. -/
lemma load_load {b b' : ℕ} (hb : 1 ≤ b) (hle : b ≤ b') (cell : BitVec 64) :
    load b' (load b cell) = load b cell := by
  apply BitVec.eq_of_getLsbD_eq
  intro i hi
  rw [getLsbD_load (by omega) hi, getLsbD_load hb (by omega), getLsbD_load hb hi]
  congr 1
  omega

/-- All eight bytes. -/
lemma load_eight (cell : BitVec 64) : load 8 cell = cell := by
  apply BitVec.eq_of_getLsbD_eq
  intro i hi
  rw [getLsbD_load (by decide) hi, min_eq_left (by omega)]

/-- The lower half of an access to at least four bytes. -/
lemma load_mod {b : ℕ} (hb : 4 ≤ b) (cell : BitVec 64) :
    (load b cell).toNat % 2 ^ 32 = cell.toNat % 2 ^ 32 := by
  apply Nat.eq_of_testBit_eq
  intro i
  rw [Nat.testBit_mod_two_pow, Nat.testBit_mod_two_pow, BitVec.testBit_toNat, BitVec.testBit_toNat]
  by_cases hi : i < 32
  · rw [getLsbD_load (by omega) (by omega), min_eq_left (by omega)]
  · simp [hi]

/-- Both functions access the lower half of what they should. -/
lemma load_width_mod (t : IntegerType) (cell : BitVec 64) :
    (load t.width cell).toNat % 2 ^ 32 = (load t.sizeof cell).toNat % 2 ^ 32 := by
  by_cases h : t = .cfIndex
  · subst h
    rw [load_mod (by decide), load_mod (by decide)]
  · rw [width_eq h]

/-- Overwriting the lower half. -/
lemma store_four (cell value v : BitVec 64) (hv : value.toNat % 2 ^ 32 = v.toNat % 2 ^ 32) :
    store 4 cell value = v ↔ cell.toNat / 2 ^ 32 = v.toNat / 2 ^ 32 := by
  rw [BitVec.toNat_eq, store, BitVec.toNat_ofNat]
  omega

/-- **An integer is read back as it was**, by the same or a wider type, exactly if it is not read as
a `CFIndex`, or the upper half of the variable that it is read into is already that of the
integer. -/
theorem readBack_iff {t t' : IntegerType} (cell cell' : BitVec 64)
    (hwide : t' = t ∨ t.sizeof < t'.sizeof) :
    readBack t t' cell cell' = load t.sizeof cell ↔
      (t' = .cfIndex → cell'.toNat / 2 ^ 32 = (load t.sizeof cell).toNat / 2 ^ 32) := by
  rw [readBack, cfNumberCreate_eq, cfNumberGetValue_int]
  by_cases h : t' = .cfIndex
  · subst h
    rw [show IntegerType.cfIndex.sizeof = 8 from rfl, load_eight,
      show IntegerType.cfIndex.width = 4 from rfl, store_four _ _ _ (load_width_mod t cell)]
    simp
  · have ht : t ≠ .cfIndex := by
      rintro rfl
      rcases hwide with rfl | hlt
      · exact h rfl
      · exact absurd hlt (not_lt.mpr (sizeof_le t'))
    have hle : t.sizeof ≤ t'.sizeof := by
      rcases hwide with rfl | hlt
      · exact le_refl _
      · exact hlt.le
    rw [width_eq h, width_eq ht, load_store (one_le_sizeof t'), load_load (one_le_sizeof t) hle]
    simp [h]

/-- A negative `short` read as a `long`. -/
theorem readBack_iff_short : readBack .short .long 0xFFFE 0 = load 2 0xFFFE :=
  (readBack_iff (t := .short) 0xFFFE 0 (.inr (by decide))).mpr (by decide)

/-- **`2 ^ 32` as a `CFIndex`** is read back as zero. -/
theorem not_readBack_cfIndex :
    ¬∀ (t t' : IntegerType) (cell cell' : BitVec 64), t' = t ∨ t.sizeof < t'.sizeof →
      readBack t t' cell cell' = load t.sizeof cell := by
  intro h
  exact absurd (h .cfIndex .cfIndex (2 ^ 32) 0 (.inl rfl)) (by decide +kernel)

end Asteros.CoreFoundation.Number
