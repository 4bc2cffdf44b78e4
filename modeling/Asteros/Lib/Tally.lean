import Mathlib.Algebra.Ring.Nat
import Mathlib.Tactic.ByContra

set_option autoImplicit false

/-!
# Tallies

What is counted over the members of a list, each of which has a weight: how many of the threads of
a process are at a place, how many of a set of records name an object. This file has how a tally
changes when one member does, and what a tally says of the members.

## Main definitions

* `tally` — the sum of the weights.

## Main results

* `tally_set` — one member changes.
* `tally_pos`, `eq_of_tally_le_one` — some member has a weight, and at most one has.
-/

namespace Tally

variable {α : Type}

/-- The sum of the weights. -/
def tally (w : α → ℕ) (l : List α) : ℕ := (l.map w).sum

variable {w : α → ℕ} {l : List α} {a b : α} {i j : ℕ}

/-- No members. -/
@[simp] lemma tally_nil : tally w [] = 0 := rfl

/-- One member more. -/
@[simp] lemma tally_cons : tally w (a :: l) = w a + tally w l := by
  rw [tally, List.map_cons, List.sum_cons, tally]

/-- **One member changes.** -/
theorem tally_set (h : l[i]? = some a) : tally w (l.set i b) + w a = tally w l + w b := by
  induction l generalizing i with
  | nil => cases h
  | cons c l ih =>
    cases i with
    | zero =>
      obtain rfl : c = a := Option.some_inj.mp h
      rw [List.set_cons_zero, tally_cons, tally_cons]
      omega
    | succ i =>
      have hrest := ih h
      rw [List.set_cons_succ, tally_cons, tally_cons]
      omega

/-- A change that leaves the weight. -/
lemma tally_set_same (h : l[i]? = some a) (hw : w b = w a) : tally w (l.set i b) = tally w l := by
  have hset := tally_set (w := w) (b := b) h
  omega

/-- A member counts. -/
lemma le_tally (h : l[i]? = some a) : w a ≤ tally w l := by
  induction l generalizing i with
  | nil => cases h
  | cons c l ih =>
    rw [tally_cons]
    cases i with
    | zero =>
      obtain rfl : c = a := Option.some_inj.mp h
      omega
    | succ i => exact Nat.le_trans (ih h) (Nat.le_add_left _ _)

/-- Two members count both. -/
lemma add_le_tally (hi : l[i]? = some a) (hj : l[j]? = some b) (hij : i ≠ j) :
    w a + w b ≤ tally w l := by
  induction l generalizing i j with
  | nil => cases hi
  | cons c l ih =>
    rw [tally_cons]
    cases i with
    | zero =>
      obtain rfl : c = a := Option.some_inj.mp hi
      cases j with
      | zero => exact absurd rfl hij
      | succ j =>
        have hb : w b ≤ tally w l := le_tally (i := j) hj
        omega
    | succ i =>
      cases j with
      | zero =>
        obtain rfl : c = b := Option.some_inj.mp hj
        have ha : w a ≤ tally w l := le_tally (i := i) hi
        omega
      | succ j =>
        have hrest := ih (i := i) (j := j) hi hj (fun h => hij (by rw [h]))
        omega

/-- **Some member has a weight**, where the tally is positive. -/
theorem tally_pos : 0 < tally w l ↔ ∃ (i : ℕ) (a : α), l[i]? = some a ∧ 0 < w a := by
  constructor
  · intro h
    induction l with
    | nil => exact absurd h (Nat.lt_irrefl 0)
    | cons c l ih =>
      rw [tally_cons] at h
      by_cases hc : 0 < w c
      · exact ⟨0, c, rfl, hc⟩
      · obtain ⟨i, a, hi, ha⟩ := ih (by omega)
        exact ⟨i + 1, a, hi, ha⟩
  · rintro ⟨i, a, hi, ha⟩
    exact Nat.lt_of_lt_of_le ha (le_tally hi)

/-- **At most one member has a weight**, where the tally is at most 1. -/
theorem eq_of_tally_le_one (h : tally w l ≤ 1) (hi : l[i]? = some a) (hj : l[j]? = some b)
    (ha : 0 < w a) (hb : 0 < w b) : i = j := by
  by_contra hij
  have hsum : w a + w b ≤ tally w l := add_le_tally hi hj hij
  omega

/-- Members that all have no weight. -/
lemma tally_eq_zero (h : ∀ a ∈ l, w a = 0) : tally w l = 0 := by
  induction l with
  | nil => rfl
  | cons c l ih =>
    rw [tally_cons, h c List.mem_cons_self, ih fun a ha => h a (List.mem_cons_of_mem c ha)]

end Tally
