import Mathlib.Data.List.Basic
import Mathlib.Tactic.Linarith
import Mathlib.Tactic.Ring

set_option autoImplicit false

/-!
# LEB128

A number is written in groups of seven bits, the lowest first, one group in a byte; the high bit
of a byte says that another one follows. Groups of zeros at the end do not change the number, so a
number has many encodings. A decoder collects the groups in a register of `w` bits by shifting and
or-ing, and the shift takes its count modulo `w`, as machines do.

## Main definitions

* `value` — the number that groups stand for.
* `Terminated` — the high bit is set in every byte but the last.
* `gather` — what a register of `w` bits holds after some bytes.

## Main results

* `gather_eq` — a number that fits the register is decoded, whatever the encoding.
-/

namespace Leb128

/-- The number that the groups of some bytes stand for. -/
def value : List UInt8 → ℕ
  | [] => 0
  | b :: bs => (b &&& 0x7f).toNat + 128 * value bs

/-- The bytes are those of one number: the high bit is set in all of them but the last. -/
def Terminated : List UInt8 → Prop
  | [] => False
  | [b] => b &&& 0x80 = 0
  | b :: bs => b &&& 0x80 ≠ 0 ∧ Terminated bs

/-- What a register of `w` bits holds after more bytes, the first group going to `bit`. -/
def gather (w : ℕ) : ℕ → ℕ → List UInt8 → ℕ
  | _, acc, [] => acc
  | bit, acc, b :: bs =>
    gather w (bit + 7) (acc ||| ((b &&& 0x7f).toNat <<< (bit % w)) % 2 ^ w) bs

/-- There is at least one byte. -/
lemma Terminated.ne_nil {bs : List UInt8} (h : Terminated bs) : bs ≠ [] := by
  rintro rfl
  exact h

/-- A group is below 128. -/
lemma group_lt (b : UInt8) : (b &&& 0x7f).toNat < 128 := by
  rw [UInt8.toNat_and]
  exact Nat.and_lt_two_pow _ (n := 7) (by decide)

/-- **A number that fits the register is decoded**, whatever the encoding: groups that would be
shifted out are zero. -/
lemma gather_eq {w : ℕ} {bs : List UInt8} {bit acc : ℕ} (hacc : acc < 2 ^ bit)
    (hfit : acc + value bs * 2 ^ bit < 2 ^ w) :
    gather w bit acc bs = acc + value bs * 2 ^ bit := by
  induction bs generalizing bit acc with
  | nil => rw [gather, value, Nat.zero_mul, Nat.add_zero]
  | cons b bs ih =>
    have hgroup := group_lt b
    have hsplit : value (b :: bs) * 2 ^ bit =
        (b &&& 0x7f).toNat * 2 ^ bit + value bs * 2 ^ (bit + 7) := by
      rw [value, pow_add]
      ring
    have hpow : 2 ^ (bit + 7) = 128 * 2 ^ bit := by
      rw [pow_add]
      ring
    rw [hsplit] at hfit ⊢
    have hnext : acc ||| ((b &&& 0x7f).toNat <<< (bit % w)) % 2 ^ w =
        acc + (b &&& 0x7f).toNat * 2 ^ bit := by
      by_cases hbit : bit < w
      · have hsmall : (b &&& 0x7f).toNat * 2 ^ bit < 2 ^ w := by omega
        rw [Nat.mod_eq_of_lt hbit, Nat.shiftLeft_eq, Nat.mod_eq_of_lt hsmall, Nat.or_comm,
          Nat.mul_comm _ (2 ^ bit), ← Nat.two_pow_add_eq_or_of_lt hacc, Nat.add_comm]
      · have hle : 2 ^ w ≤ 2 ^ bit := Nat.pow_le_pow_right (by decide) (by omega)
        have hzero : (b &&& 0x7f).toNat = 0 := by
          by_contra hne
          have hone : 1 * 2 ^ bit ≤ (b &&& 0x7f).toNat * 2 ^ bit :=
            Nat.mul_le_mul_right _ (by omega)
          omega
        rw [hzero, Nat.zero_shiftLeft, Nat.zero_mod, Nat.or_zero, Nat.zero_mul, Nat.add_zero]
    have hlt : acc + (b &&& 0x7f).toNat * 2 ^ bit < 2 ^ (bit + 7) := by
      rw [hpow]
      have hle : (b &&& 0x7f).toNat * 2 ^ bit ≤ 127 * 2 ^ bit :=
        Nat.mul_le_mul_right _ (by omega)
      omega
    rw [gather, hnext, ih hlt (by omega)]
    omega

end Leb128
