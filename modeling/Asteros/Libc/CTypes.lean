import Mathlib.Data.List.TakeWhile
import Mathlib.Tactic.Linarith

set_option autoImplicit false

/-!
# The C types the userland is written in

`size_t` values are natural numbers below `2 ^ 64`, with the subtraction and the addition of
the code wrapping explicitly; a `uint32_t` conversion keeps the value modulo `2 ^ 32`. A C
string is a byte list without a NUL, since that is what `strlen`, `strcmp` and `strdup` see of
the array it is stored in; a buffer is a byte list whose length a `size_t` can hold.

## Main definitions

* `sizeSub`, `sizeAdd` — `size_t` arithmetic.
* `toUint32` — the conversion to `uint32_t`.
* `CString`, `CString.ofBytes` — C strings, and the one an array holds.
* `Buffer` — an array of bytes together with its length.
-/

namespace Asteros.Libc

/-- `a - b` on `size_t`. -/
def sizeSub (a b : ℕ) : ℕ := (a + 2 ^ 64 - b) % 2 ^ 64

/-- `a + b` on `size_t`. -/
def sizeAdd (a b : ℕ) : ℕ := (a + b) % 2 ^ 64

/-- The conversion `(uint32_t)n`. -/
def toUint32 (n : ℕ) : ℕ := n % 2 ^ 32

/-- What is said of every byte of a text is decided byte by byte of the text, not for all bytes. -/
instance (priority := 2000) decidableForallByte (text : List UInt8) (p : UInt8 → Prop)
    [DecidablePred p] : Decidable (∀ b ∈ text, p b) :=
  List.decidableBAll p text

/-- A subtraction that does not borrow is the one on numbers. -/
lemma sizeSub_of_le {a b : ℕ} (h : b ≤ a) (ha : a < 2 ^ 64) : sizeSub a b = a - b := by
  unfold sizeSub
  rw [show a + 2 ^ 64 - b = a - b + 2 ^ 64 by omega, Nat.add_mod_right,
    Nat.mod_eq_of_lt (by omega)]

/-- An addition that does not carry out is the one on numbers. -/
lemma sizeAdd_of_lt {a b : ℕ} (h : a + b < 2 ^ 64) : sizeAdd a b = a + b :=
  Nat.mod_eq_of_lt h

/-- A value that fits is unchanged by the conversion to `uint32_t`. -/
lemma toUint32_of_lt {n : ℕ} (h : n < 2 ^ 32) : toUint32 n = n := Nat.mod_eq_of_lt h

/-- A converted value fits. -/
lemma toUint32_lt (n : ℕ) : toUint32 n < 2 ^ 32 := Nat.mod_lt _ (by norm_num)

/-- A `uint32_t` value is a `size_t` value. -/
lemma lt_size_of_lt_uint32 {n : ℕ} (h : n < 2 ^ 32) : n < 2 ^ 64 := h.trans (by norm_num)

/-- Masking the low bits of a `size_t` off rounds it down to a power of two. -/
lemma land_mask {x k : ℕ} (hx : x < 2 ^ 64) (hk : k ≤ 64) :
    x &&& (2 ^ 64 - 1 - (2 ^ k - 1)) = x / 2 ^ k * 2 ^ k := by
  have hpow : 2 ^ k ≤ 2 ^ 64 := Nat.pow_le_pow_right (by decide) hk
  have hpos : 0 < 2 ^ k := Nat.two_pow_pos k
  have hmask : 2 ^ 64 - 1 - (2 ^ k - 1) = 2 ^ 64 - (2 ^ k - 1 + 1) := by omega
  rw [hmask, ← Nat.shiftRight_eq_div_pow, ← Nat.shiftLeft_eq]
  apply Nat.eq_of_testBit_eq
  intro i
  rw [Nat.testBit_and, Nat.testBit_two_pow_sub_succ (by omega), Nat.testBit_two_pow_sub_one,
    Nat.testBit_shiftLeft, Nat.testBit_shiftRight]
  by_cases hik : i < k
  · simp [hik]
  · by_cases hi : i < 64
    · simp [hik, hi, show k + (i - k) = i by omega, show k ≤ i by omega]
    · have hbit : x.testBit i = false :=
        Nat.testBit_lt_two_pow (hx.trans_le (Nat.pow_le_pow_right (by decide) (by omega)))
      simp [hi, hbit, show k + (i - k) = i by omega]

/-- The conversion never increases a value. -/
lemma toUint32_le (n : ℕ) : toUint32 n ≤ n := Nat.mod_le _ _

/-- A C string: the bytes before the terminating NUL. -/
structure CString where
  /-- The bytes of the string, terminator excluded. -/
  bytes : List UInt8
  /-- There is no NUL among them. -/
  nulFree : 0 ∉ bytes
  deriving DecidableEq

namespace CString

/-- Two C strings with the same bytes are equal. -/
@[ext] lemma ext {s t : CString} (h : s.bytes = t.bytes) : s = t := by
  cases s; cases t; cases h; rfl

/-- `strlen`. -/
def strlen (s : CString) : ℕ := s.bytes.length

/-- The C string at the start of a byte array that is followed by a NUL: everything up to the
first NUL. -/
def ofBytes (bs : List UInt8) : CString where
  bytes := bs.takeWhile (· ≠ 0)
  nulFree := by
    intro h
    simpa using List.mem_takeWhile_imp h

/-- An array without a NUL holds exactly its bytes. -/
lemma bytes_ofBytes_of_nulFree {bs : List UInt8} (h : 0 ∉ bs) : (ofBytes bs).bytes = bs := by
  simp only [ofBytes]
  rw [List.takeWhile_eq_self_iff]
  intro b hb
  simpa using fun hb0 : b = 0 => h (hb0 ▸ hb)

/-- A terminator after an array does not change the string in it. -/
lemma bytes_ofBytes_terminated (bs : List UInt8) : (ofBytes (bs ++ [0])).bytes = (ofBytes bs).bytes := by
  induction bs with
  | nil => rfl
  | cons b bs ih =>
    simp only [ofBytes, List.cons_append, List.takeWhile_cons] at ih ⊢
    split
    · rw [ih]
    · rfl

/-- A C string in two parts of an array. -/
lemma bytes_ofBytes_append {a : List UInt8} (ha : 0 ∉ a) (b : List UInt8) :
    (ofBytes (a ++ b)).bytes = a ++ (ofBytes b).bytes := by
  simp only [ofBytes]
  rw [List.takeWhile_append_of_pos]
  intro x hx
  have hne : x ≠ 0 := fun hzero => ha (hzero ▸ hx)
  simpa using hne

/-- Reading a C string out of its own array gives it back. -/
@[simp] lemma ofBytes_bytes (s : CString) : ofBytes s.bytes = s :=
  ext (bytes_ofBytes_of_nulFree s.nulFree)

/-- The string in an array is no longer than the array. -/
lemma strlen_ofBytes_le (bs : List UInt8) : (ofBytes bs).strlen ≤ bs.length :=
  (List.takeWhile_sublist _).length_le

end CString

/-- A byte array whose length is a `size_t`. -/
structure Buffer where
  /-- The contents. -/
  bytes : List UInt8
  /-- The length is representable. -/
  size_lt : bytes.length < 2 ^ 64
  deriving DecidableEq

/-- The length of a buffer. -/
def Buffer.len (b : Buffer) : ℕ := b.bytes.length

end Asteros.Libc
