import Mathlib.Data.List.Pairwise
import Mathlib.Data.Nat.Bitwise
import Mathlib.Tactic.Ring

set_option autoImplicit false

/-!
# Pieces placed one behind another

A list of pieces is placed in a range when each begins behind the end of the one before it, and the
last ends within the range. The pieces have an offset and a size, and each is to meet a condition of
its own, such as an alignment.

An offset is rounded up to a power of two by a mask, as is usual in code, which is the arithmetic
rounding as long as no bit is lost.

## Main definitions

* `Placed` — the pieces are placed in a range.
* `roundUp` — the next multiple.

## Main results

* `Placed.append` — placed lists of neighbouring ranges.
* `Placed.pairwise`, `Placed.mem` — the pieces lie apart and in the range.
* `and_mask_eq` — the mask rounds down.
-/

namespace Placement

/-! ## Pieces -/

variable {β : Type} (offset : β → ℤ) (size : β → ℕ) (ok : β → Prop)

/-- The pieces lie one behind another between the bounds, and each meets the condition. -/
def Placed (low : ℤ) : List β → ℤ → Prop
  | [], high => low ≤ high
  | b :: bs, high => low ≤ offset b ∧ ok b ∧ Placed (offset b + size b) bs high

variable {offset size ok} {low low' mid high high' : ℤ} {b : β} {bs cs : List β}

/-- The bounds are in order. -/
lemma Placed.le (h : Placed offset size ok low bs high) : low ≤ high := by
  induction bs generalizing low with
  | nil => exact h
  | cons b bs ih =>
    have hrest := ih h.2.2
    have hfirst := h.1
    omega

/-- A lower bound will do as well. -/
lemma Placed.mono_low (h : Placed offset size ok low bs high) (hle : low' ≤ low) :
    Placed offset size ok low' bs high := by
  cases bs with
  | nil => exact hle.trans h
  | cons b bs => exact ⟨hle.trans h.1, h.2⟩

/-- So will a higher one. -/
lemma Placed.mono_high (h : Placed offset size ok low bs high) (hle : high ≤ high') :
    Placed offset size ok low bs high' := by
  induction bs generalizing low with
  | nil => exact le_trans (show low ≤ high from h) hle
  | cons b bs ih => exact ⟨h.1, h.2.1, ih h.2.2⟩

/-- **Placed lists of neighbouring ranges** make a placed list. -/
theorem Placed.append (h : Placed offset size ok low bs mid)
    (h' : Placed offset size ok mid cs high) : Placed offset size ok low (bs ++ cs) high := by
  induction bs generalizing low with
  | nil => exact h'.mono_low h
  | cons b bs ih => exact ⟨h.1, h.2.1, ih h.2.2⟩

/-- One piece behind the others. -/
lemma Placed.concat (h : Placed offset size ok low bs mid) (hb : mid ≤ offset b) (hok : ok b)
    (hhigh : offset b + size b ≤ high) : Placed offset size ok low (bs ++ [b]) high :=
  h.append ⟨hb, hok, hhigh⟩

/-- **Each piece lies in the range** and meets its condition. -/
theorem Placed.mem (h : Placed offset size ok low bs high) (hb : b ∈ bs) :
    low ≤ offset b ∧ offset b + size b ≤ high ∧ ok b := by
  induction bs generalizing low with
  | nil => cases hb
  | cons c bs ih =>
    rcases List.mem_cons.mp hb with rfl | hb
    · exact ⟨h.1, h.2.2.le, h.2.1⟩
    · obtain ⟨hlow, hhigh, hok⟩ := ih h.2.2 hb
      have hfirst := h.1
      exact ⟨by omega, hhigh, hok⟩

/-- **The pieces lie apart**: each begins where those before it have ended. -/
theorem Placed.pairwise (h : Placed offset size ok low bs high) :
    bs.Pairwise fun b c => offset b + size b ≤ offset c := by
  induction bs generalizing low with
  | nil => exact List.Pairwise.nil
  | cons b bs ih => exact List.pairwise_cons.mpr ⟨fun c hc => (h.2.2.mem hc).1, ih h.2.2⟩

/-! ## Rounding -/

/-- The next multiple of the alignment. -/
def roundUp (n align : ℕ) : ℕ := (n + align - 1) / align * align

/-- It is not smaller. -/
lemma le_roundUp (n : ℕ) {align : ℕ} (h : 0 < align) : n ≤ roundUp n align := by
  have hdiv := Nat.div_add_mod (n + align - 1) align
  have hmod := Nat.mod_lt (n + align - 1) h
  rw [roundUp, Nat.mul_comm]
  omega

/-- It is a multiple. -/
lemma dvd_roundUp (n align : ℕ) : align ∣ roundUp n align := Nat.dvd_mul_left _ _

/-- **The mask rounds down**: clearing the low bits of a number leaves the multiple below it. -/
theorem and_mask_eq {n w k : ℕ} (hn : n < 2 ^ w) (hk : k ≤ w) :
    n &&& (2 ^ w - 2 ^ k) = n / 2 ^ k * 2 ^ k := by
  have hmask : 2 ^ w - 2 ^ k = (2 ^ (w - k) - 1) * 2 ^ k := by
    rw [Nat.sub_mul, ← Nat.pow_add, Nat.sub_add_cancel hk, Nat.one_mul]
  apply Nat.eq_of_testBit_eq
  intro i
  rw [hmask, Nat.testBit_and, Nat.testBit_mul_two_pow, Nat.testBit_mul_two_pow,
    Nat.testBit_two_pow_sub_one, Nat.testBit_div_two_pow]
  by_cases hki : k ≤ i
  · by_cases hiw : i < w
    · have hlt : i - k < w - k := by omega
      simp [hki, hlt]
    · have hzero : n.testBit i = false :=
        Nat.testBit_lt_two_pow (hn.trans_le (Nat.pow_le_pow_right (by decide) (by omega)))
      simp [hki, hzero]
  · simp [hki]

end Placement
