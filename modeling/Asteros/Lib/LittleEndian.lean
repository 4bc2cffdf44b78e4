import Mathlib.Data.List.Basic
import Mathlib.Tactic.Linarith
import Mathlib.Tactic.Ring

set_option autoImplicit false

/-!
# Little-endian words as byte lists

A word of `n` bytes is stored least significant byte first. `leBytes n v` is the `n`-byte
image of `v` (taken modulo `256 ^ n`, as a store of a wider value truncates), and `leVal`
reads a byte list back as a number.

## Main definitions

* `leBytes` — the bytes of a number, lowest first.
* `leVal` — the number a byte list stands for.

## Main results

* `leVal_leBytes` — reading what was stored gives the value modulo `256 ^ n`.
* `leBytes_leVal` — storing what was read gives the bytes back.
-/

namespace LittleEndian

/-- The `n` low bytes of `v`, least significant first. -/
def leBytes : ℕ → ℕ → List UInt8
  | 0, _ => []
  | n + 1, v => UInt8.ofNat v :: leBytes n (v / 256)

/-- The number whose little-endian image is the given byte list. -/
def leVal : List UInt8 → ℕ
  | [] => 0
  | b :: bs => b.toNat + 256 * leVal bs

/-- The image of a number has the requested width. -/
@[simp] lemma length_leBytes (n v : ℕ) : (leBytes n v).length = n := by
  induction n generalizing v with
  | zero => rfl
  | succ n ih => simp [leBytes, ih]

/-- A byte list of length `n` stands for a number below `256 ^ n`. -/
lemma leVal_lt (bs : List UInt8) : leVal bs < 256 ^ bs.length := by
  induction bs with
  | nil => simp [leVal]
  | cons b bs ih =>
    have hb : b.toNat < 256 := b.toNat_lt
    simp only [leVal, List.length_cons, pow_succ]
    omega

/-- Reading a stored number gives it back modulo the width of the store. -/
lemma leVal_leBytes (n v : ℕ) : leVal (leBytes n v) = v % 256 ^ n := by
  induction n generalizing v with
  | zero => simp [leBytes, leVal, Nat.mod_one]
  | succ n ih =>
    have hb : (UInt8.ofNat v).toNat = v % 256 := by simp
    rw [leBytes, leVal, ih, hb, pow_succ, Nat.mul_comm (256 ^ n) 256, Nat.mod_mul]

/-- A number that fits is read back exactly. -/
lemma leVal_leBytes_of_lt {n v : ℕ} (h : v < 256 ^ n) : leVal (leBytes n v) = v := by
  rw [leVal_leBytes, Nat.mod_eq_of_lt h]

/-- Storing the number a byte list stands for gives the byte list back. -/
lemma leBytes_leVal (bs : List UInt8) : leBytes bs.length (leVal bs) = bs := by
  induction bs with
  | nil => rfl
  | cons b bs ih =>
    have hb : b.toNat < 256 := b.toNat_lt
    have hdiv : leVal (b :: bs) / 256 = leVal bs := by simp only [leVal]; omega
    have hhead : UInt8.ofNat (leVal (b :: bs)) = b := by
      apply UInt8.toNat_inj.mp
      simp only [UInt8.toNat_ofNat', leVal]
      omega
    rw [List.length_cons, leBytes, hdiv, ih, hhead]

/-- The form of `leBytes_leVal` in which the width is given separately. -/
lemma leBytes_leVal_of_length {n : ℕ} {bs : List UInt8} (h : bs.length = n) :
    leBytes n (leVal bs) = bs := by
  rw [← h, leBytes_leVal]

/-- A store only keeps the value modulo its width. -/
lemma leBytes_mod (n v : ℕ) : leBytes n (v % 256 ^ n) = leBytes n v := by
  have h := leBytes_leVal_of_length (length_leBytes n v)
  rw [leVal_leBytes] at h
  exact h

/-- Two numbers that fit and have the same image are equal. -/
lemma leBytes_injOn {n v w : ℕ} (hv : v < 256 ^ n) (hw : w < 256 ^ n)
    (h : leBytes n v = leBytes n w) : v = w := by
  rw [← leVal_leBytes_of_lt hv, h, leVal_leBytes_of_lt hw]

end LittleEndian
