import Mathlib.Algebra.Order.Ring.Int
import Mathlib.Algebra.Order.Group.Unbundled.Int
import Mathlib.Data.Nat.Size
import Mathlib.Tactic.Ring

set_option autoImplicit false

/-!
# Rounding to so many significant bits

The integers that can be written with at most `p` significant bits, and the rounding of an integer
to one of them: to the nearest, and of two that are equally near, to the one whose last bit is even.
This is how a binary floating-point format with `p` bits of precision represents integers, as long
as its exponents reach.

## Main definitions

* `Representable` — an integer with at most `p` significant bits.
* `round` — the rounding.

## Main results

* `representable_round`, `round_nearest` — it gives a nearest one.
* `round_of_representable` — those that can be written exactly stay as they are.
* `round_mono` — it keeps the order.
-/

namespace NearestEven

/-- The integer is a number of at most `p` bits times a power of two. -/
def Representable (p : ℕ) (n : ℤ) : Prop := ∃ c e : ℕ, c < 2 ^ p ∧ n.natAbs = c * 2 ^ e

/-- The weight of the last of the `p` bits of a number. -/
def ulp (p n : ℕ) : ℕ := 2 ^ (n.size - p)

/-- The rounding of a number: down or up to a multiple of the weight of the last bit. -/
def roundNat (p n : ℕ) : ℕ :=
  let u := ulp p n
  if 2 * (n % u) < u ∨ 2 * (n % u) = u ∧ n / u % 2 = 0 then n / u * u else (n / u + 1) * u

/-- The rounding of an integer, which does not depend on its sign. -/
def round (p : ℕ) (n : ℤ) : ℤ := if 0 ≤ n then roundNat p n.natAbs else -roundNat p n.natAbs

variable {p n m : ℕ}

/-- A weight is not zero. -/
lemma ulp_pos (p n : ℕ) : 0 < ulp p n := Nat.two_pow_pos _

/-- The bits above the last one are at most `p`. -/
lemma div_ulp_lt (p n : ℕ) : n / ulp p n < 2 ^ p := by
  unfold ulp
  rw [Nat.div_lt_iff_lt_mul (Nat.two_pow_pos _), ← Nat.pow_add]
  exact (Nat.lt_size_self n).trans_le (Nat.pow_le_pow_right (by decide) (by omega))

/-- What is not below the number without its last bits, and can be written with `p` bits, has no bits
below the last one either. -/
lemma ulp_dvd (hp : 0 < p) {c e : ℕ} (hc : c < 2 ^ p) (h : n / ulp p n * ulp p n ≤ c * 2 ^ e) :
    ulp p n ∣ c * 2 ^ e := by
  rcases Nat.le_total n.size p with hsize | hsize
  · unfold ulp
    rw [Nat.sub_eq_zero_of_le hsize]
    exact one_dvd _
  -- the highest bit of the number is among those that are kept
  have hpos : 0 < n.size := by omega
  have htop : 2 ^ (n.size - 1) ≤ n := Nat.lt_size.mp (by omega)
  have hsplit : 2 ^ (n.size - 1) = 2 ^ (p - 1) * ulp p n := by
    unfold ulp
    rw [← Nat.pow_add]
    congr 1
    omega
  have hkept : 2 ^ (p - 1) ≤ n / ulp p n := by
    rw [Nat.le_div_iff_mul_le (ulp_pos p n), ← hsplit]
    exact htop
  have hle : 2 ^ (n.size - 1) ≤ c * 2 ^ e := by
    rw [hsplit]
    exact (Nat.mul_le_mul_right _ hkept).trans h
  have hlt : 2 ^ (n.size - 1) < 2 ^ (p + e) := by
    rw [Nat.pow_add]
    exact hle.trans_lt (Nat.mul_lt_mul_of_pos_right hc (Nat.two_pow_pos e))
  have hexp : n.size - 1 < p + e := (Nat.pow_lt_pow_iff_right (by decide)).mp hlt
  exact (Nat.pow_dvd_pow 2 (by omega)).trans (Nat.dvd_mul_left _ _)

/-- The rounding of a number is one of the two multiples around it. -/
lemma roundNat_cases (p n : ℕ) :
    (roundNat p n = n / ulp p n * ulp p n ∧ 2 * (n % ulp p n) ≤ ulp p n) ∨
      (roundNat p n = (n / ulp p n + 1) * ulp p n ∧ ulp p n ≤ 2 * (n % ulp p n)) := by
  unfold roundNat
  dsimp only
  split_ifs with h
  · exact .inl ⟨rfl, by omega⟩
  · exact .inr ⟨rfl, by omega⟩

/-- The rounding has at most `p` bits. -/
lemma exists_roundNat (hp : 0 < p) (n : ℕ) : ∃ c e, c < 2 ^ p ∧ roundNat p n = c * 2 ^ e := by
  have hlt := div_ulp_lt p n
  rcases roundNat_cases p n with ⟨h, -⟩ | ⟨h, -⟩
  · exact ⟨_, _, hlt, h⟩
  · rcases Nat.lt_or_ge (n / ulp p n + 1) (2 ^ p) with hsmall | hcarry
    · exact ⟨_, _, hsmall, h⟩
    · -- the carry goes through all the bits
      refine ⟨1, p + (n.size - p), Nat.one_lt_two_pow (by omega), ?_⟩
      rw [h, Nat.pow_add, Nat.one_mul, show n / ulp p n + 1 = 2 ^ p by omega]
      rfl

/-- No number of at most `p` bits is nearer than the rounding. -/
lemma roundNat_nearest (hp : 0 < p) {c e : ℕ} (hc : c < 2 ^ p) :
    ((roundNat p n : ℤ) - n).natAbs ≤ ((c * 2 ^ e : ℕ) - (n : ℤ)).natAbs := by
  have hdiv := Nat.div_add_mod n (ulp p n)
  have hmod := Nat.mod_lt n (ulp_pos p n)
  rw [Nat.mul_comm] at hdiv
  have hsucc : (n / ulp p n + 1) * ulp p n = n / ulp p n * ulp p n + ulp p n := Nat.succ_mul _ _
  -- there is none between the two multiples
  have hgap : c * 2 ^ e ≤ n / ulp p n * ulp p n ∨ (n / ulp p n + 1) * ulp p n ≤ c * 2 ^ e := by
    rcases Nat.le_total (c * 2 ^ e) (n / ulp p n * ulp p n) with hle | hge
    · exact .inl hle
    · obtain ⟨k, hk⟩ := ulp_dvd hp hc hge
      rw [hk, Nat.mul_comm] at hge ⊢
      rcases Nat.lt_or_ge (n / ulp p n) k with hlt | hle
      · exact .inr (Nat.mul_le_mul_right _ hlt)
      · exact .inl (Nat.mul_le_mul_right _ hle)
  rcases roundNat_cases p n with ⟨h, hhalf⟩ | ⟨h, hhalf⟩ <;> rw [h] <;> omega

/-! ## Integers -/

/-- The rounding can be written with `p` bits. -/
theorem representable_round (hp : 0 < p) (n : ℤ) : Representable p (round p n) := by
  obtain ⟨c, e, hc, h⟩ := exists_roundNat hp n.natAbs
  refine ⟨c, e, hc, ?_⟩
  rw [← h]
  unfold round
  split_ifs <;> omega

/-- **The rounding is a nearest one** of the integers that can be written with `p` bits. -/
theorem round_nearest (hp : 0 < p) (n : ℤ) {m : ℤ} (hm : Representable p m) :
    (round p n - n).natAbs ≤ (m - n).natAbs := by
  obtain ⟨c, e, hc, h⟩ := hm
  have hnear := roundNat_nearest (n := n.natAbs) (e := e) hp hc
  have hzero := roundNat_nearest (n := n.natAbs) (e := 0) hp (Nat.two_pow_pos p)
  rw [← h] at hnear
  unfold round
  -- on the other side of zero, zero itself is nearer
  split_ifs <;> omega

/-- **What can be written exactly** stays as it is. -/
theorem round_of_representable (hp : 0 < p) {n : ℤ} (hn : Representable p n) : round p n = n := by
  have hle := round_nearest hp n hn
  omega

/-- **The rounding keeps the order.** -/
theorem round_mono (hp : 0 < p) {m n : ℤ} (h : m ≤ n) : round p m ≤ round p n := by
  by_contra hlt
  have hm := round_nearest hp m (representable_round hp n)
  have hn := round_nearest hp n (representable_round hp m)
  rcases h.eq_or_lt with rfl | h
  · exact hlt (le_refl _)
  · omega

/-- Numbers of at most `p` bits can be written exactly. -/
lemma representable_of_lt {n : ℤ} (h : n.natAbs < 2 ^ p) : Representable p n :=
  ⟨n.natAbs, 0, h, by rw [Nat.pow_zero, Nat.mul_one]⟩

end NearestEven
