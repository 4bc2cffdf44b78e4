import Mathlib.Algebra.Order.Ring.Nat
import Mathlib.Data.List.Pairwise

set_option autoImplicit false

/-!
# Ranges of addresses

A range of addresses has a start and a length. What it means that one lies within another, or apart
from it, is said by their bytes; for a range that is not empty, both can be read off the ends.

Memory that is given out in pages makes ranges that begin and end at multiples of a page. Such a
multiple lies behind the last byte of a piece exactly if it lies behind its last page.

## Main definitions

* `Range` — a range, with `Range.Within` and `Range.Apart`.
* `pages` — the pages that a number of bytes takes.

## Main results

* `Range.Within.le` — the ends of a range within another.
* `add_pages_le` — a page boundary behind a piece is behind its pages.
-/

namespace AddressRange

/-- A range of addresses. -/
structure Range where
  /-- The first address. -/
  start : ℕ
  /-- The number of bytes. -/
  len : ℕ
  deriving DecidableEq

namespace Range

/-- The address behind a range. -/
def finish (r : Range) : ℕ := r.start + r.len

/-- An address lies in a range. -/
def Has (r : Range) (x : ℕ) : Prop := r.start ≤ x ∧ x < r.finish

/-- Every byte of one range is a byte of another. -/
def Within (r s : Range) : Prop := ∀ x, r.Has x → s.Has x

/-- Two ranges have no byte in common. -/
def Apart (r s : Range) : Prop := ∀ x, r.Has x → ¬s.Has x

variable {r s : Range}

/-- The address behind a range that is given by its start and its length. -/
@[simp] lemma finish_mk (start len : ℕ) : (⟨start, len⟩ : Range).finish = start + len := rfl

/-- A range lies within another one that begins no later and ends no earlier. -/
lemma within_of_le (hstart : s.start ≤ r.start) (hfinish : r.finish ≤ s.finish) : r.Within s :=
  fun _ hx => ⟨hstart.trans hx.1, hx.2.trans_le hfinish⟩

/-- **The ends of a range within another.** If it is not empty, it begins no earlier and ends no
later. -/
lemma Within.le (h : r.Within s) (hpos : 0 < r.len) :
    s.start ≤ r.start ∧ r.finish ≤ s.finish := by
  have hfirst := h r.start ⟨Nat.le_refl _, by unfold finish; omega⟩
  have hlast := h (r.finish - 1) ⟨by unfold finish; omega, by unfold finish; omega⟩
  unfold Has at hfirst hlast
  omega

/-- Ranges lie apart if one ends before the other begins. -/
lemma apart_of_le (h : r.finish ≤ s.start ∨ s.finish ≤ r.start) : r.Apart s := by
  intro x hr hs
  unfold Has at hr hs
  omega

/-- It does not matter which of the two is first. -/
lemma Apart.symm (h : r.Apart s) : s.Apart r := fun x hs hr => h x hr hs

/-- A range all of whose bytes lie below an address ends there at the latest. -/
lemma finish_le_of_has_lt {bound : ℕ} (h : ∀ x, r.Has x → x < bound) (hpos : 0 < r.len) :
    r.finish ≤ bound := by
  have hlast := h (r.finish - 1) ⟨by unfold finish; omega, by unfold finish; omega⟩
  unfold finish at hlast ⊢
  omega

end Range

/-! ## Pages -/

variable {page : ℕ}

/-- The number of pages that so many bytes take. -/
def pages (page size : ℕ) : ℕ := (size + (page - 1)) / page

/-- The pages hold the bytes. -/
lemma le_pages_mul (hpage : 0 < page) (size : ℕ) : size ≤ pages page size * page := by
  have hmod := Nat.mod_lt (size + (page - 1)) hpage
  have hdiv := Nat.div_add_mod (size + (page - 1)) page
  rw [Nat.mul_comm] at hdiv
  unfold pages
  omega

/-- No page is left over. -/
lemma pages_le_of_le_mul (hpage : 0 < page) {size n : ℕ} (h : size ≤ n * page) :
    pages page size ≤ n := by
  refine Nat.le_of_lt_succ ((Nat.div_lt_iff_lt_mul hpage).mpr ?_)
  rw [Nat.succ_mul]
  omega

/-- **A page boundary behind a piece is behind its pages.** This is for a piece that begins at a
page boundary. -/
lemma add_pages_le (hpage : 0 < page) {start size bound : ℕ} (hstart : page ∣ start)
    (hbound : page ∣ bound) (h : start + size ≤ bound) :
    start + pages page size * page ≤ bound := by
  obtain ⟨a, rfl⟩ := hstart
  obtain ⟨b, rfl⟩ := hbound
  have hle : a ≤ b := by
    refine Nat.le_of_mul_le_mul_left ?_ hpage
    omega
  have hsize : size ≤ (b - a) * page := by
    rw [Nat.mul_comm, Nat.mul_sub]
    omega
  calc page * a + pages page size * page
      ≤ page * a + (b - a) * page :=
        Nat.add_le_add_left (Nat.mul_le_mul_right page (pages_le_of_le_mul hpage hsize)) _
    _ = page * b := by rw [Nat.mul_comm (b - a), ← Nat.mul_add, Nat.add_sub_cancel' hle]

end AddressRange
