import Mathlib.Data.List.Infix

set_option autoImplicit false

/-!
# Occurrences of a list in another

Where a list occurs in another one, and which places a scan from the left finds that looks on behind
each occurrence.

## Main definitions

* `OccursAt` — a list occurs at a place.
* `IsLeftmost` — the first such place.
* `Leftmost` — the leftmost places that do not overlap.

## Main results

* `Leftmost.unique` — there is only one list of them.
-/

namespace Occurrence

variable {α : Type} (t s : List α)

/-- The list `t` occurs in `s` at a place. -/
def OccursAt (i : ℕ) : Prop := t <+: s.drop i

/-- It occurs there, and nowhere before. -/
def IsLeftmost (i : ℕ) : Prop := OccursAt t s i ∧ ∀ j < i, ¬OccursAt t s j

/-- The places from `start` on where a scan from the left finds the list: each is the first behind
the end of the one before, and there is none behind the last one. -/
inductive Leftmost : ℕ → List ℕ → Prop
  /-- No place is left. -/
  | none {start : ℕ} (h : ∀ i, start ≤ i → ¬OccursAt t s i) : Leftmost start []
  /-- The first place, and those behind it. -/
  | next {start i : ℕ} {rest : List ℕ} (hi : start ≤ i) (hat : OccursAt t s i)
      (hbefore : ∀ j, start ≤ j → j < i → ¬OccursAt t s j) (hrest : Leftmost (i + t.length) rest) :
      Leftmost start (i :: rest)

variable {t s} {i j start : ℕ} {is js : List ℕ}

/-- A list that occurs at a place has room there. -/
lemma OccursAt.le (h : OccursAt t s i) (ht : t ≠ []) : i + t.length ≤ s.length := by
  have hlen := h.length_le
  have hpos := List.length_pos_iff.mpr ht
  rw [List.length_drop] at hlen
  omega

/-- A list that occurs at a place is a part of the other. -/
lemma OccursAt.isPart (h : OccursAt t s i) : t <:+: s :=
  List.IsInfix.trans h.isInfix (List.drop_suffix i s).isInfix

/-- A part of a list occurs at some place. -/
lemma exists_occursAt (h : t <:+: s) : ∃ i, OccursAt t s i := by
  obtain ⟨front, back, rfl⟩ := h
  refine ⟨front.length, back, ?_⟩
  rw [List.append_assoc, List.drop_left]

/-- **There is one list of leftmost places.** -/
lemma Leftmost.unique (hi : Leftmost t s start is) (hj : Leftmost t s start js) : is = js := by
  induction hi generalizing js with
  | none h =>
    cases hj with
    | none _ => rfl
    | next hle hat _ _ => exact absurd hat (h _ hle)
  | next hle hat hbefore _ ih =>
    cases hj with
    | none h => exact absurd hat (h _ hle)
    | next hle' hat' hbefore' hrest' =>
      rename_i i _ _ j _
      obtain hlt | rfl | hgt := Nat.lt_trichotomy i j
      · exact absurd hat (hbefore' i hle hlt)
      · rw [ih hrest']
      · exact absurd hat' (hbefore j hle' hgt)

end Occurrence
