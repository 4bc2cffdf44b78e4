import Asteros.Lib.KeyedList
import Mathlib.Data.List.Perm.Basic

set_option autoImplicit false

/-!
# Arrays whose order does not matter

An element of such an array is removed by putting the last one in its place. This file has that
operation for lists, by index and for lists with keys, where it finds what erasing finds.

## Main definitions

* `swapRemove` — removing by index.
* `swapErase` — removing a key.

## Main results

* `swapRemove_perm` — what is left.
* `find_swapErase` — what is found after a key was removed.
-/

namespace Unordered

open KeyedList

variable {α κ ν : Type}

/-- The last element takes the place of the one at an index. -/
def swapRemove (l : List α) (i : ℕ) : List α :=
  match l.getLast? with
  | none => l
  | some z => (l.set i z).dropLast

/-- **What is left** is what is left by erasing, in some order. -/
theorem swapRemove_perm {l : List α} {i : ℕ} (hi : i < l.length) :
    (swapRemove l i).Perm (l.eraseIdx i) := by
  rcases List.eq_nil_or_concat l with rfl | ⟨l', z, rfl⟩
  · exact absurd hi (Nat.not_lt_zero i)
  · rw [List.concat_eq_append] at hi ⊢
    have hlast : swapRemove (l' ++ [z]) i = ((l' ++ [z]).set i z).dropLast := by
      rw [swapRemove, List.getLast?_concat]
    rw [hlast]
    by_cases hlt : i < l'.length
    · rw [List.set_append_left _ _ hlt, List.dropLast_concat, List.eraseIdx_append_of_lt_length hlt]
      exact (List.set_perm_cons_eraseIdx hlt z).trans (List.perm_append_singleton z _).symm
    · obtain rfl : i = l'.length := by
        rw [List.length_append, List.length_singleton] at hi
        omega
      rw [List.eraseIdx_append_of_length_le (Nat.le_refl _), Nat.sub_self,
        List.set_append_right _ _ (Nat.le_refl _), Nat.sub_self]
      simp

/-- The first key that passes a test is removed. -/
def swapErase (eq : κ → κ → Bool) (k : κ) (l : List (κ × ν)) : List (κ × ν) :=
  match l.findIdx? fun e => eq e.1 k with
  | none => l
  | some i => swapRemove l i

variable {eq : κ → κ → Bool} {l l' : List (κ × ν)}

/-- It is left what is left by erasing, in some order. -/
lemma swapErase_perm (k : κ) (l : List (κ × ν)) : (swapErase eq k l).Perm (erase eq k l) := by
  unfold swapErase
  cases hfound : l.findIdx? fun e => eq e.1 k with
  | none =>
    have hnone : find eq l k = none := by
      exact find_eq_none_iff.mpr (List.findIdx?_eq_none_iff.mp hfound)
    rw [erase_of_find_none hnone]
  | some i =>
    obtain ⟨hi, -⟩ := List.findIdx?_eq_some_iff_getElem.mp hfound
    rw [erase_eq_eraseIdx hfound]
    exact swapRemove_perm hi

/-- The order does not matter for what is found. -/
lemma find_perm (h : Lawful eq) (hl : Distinct eq l) (hperm : l.Perm l') (k : κ) :
    find eq l k = find eq l' k := by
  have hl' : Distinct eq l' := hl.perm h hperm
  refine Option.ext fun v => ?_
  rw [find_eq_some_iff h hl, find_eq_some_iff h hl']
  exact exists_congr fun k' => and_congr_left fun _ => hperm.mem_iff

/-- Keys stay distinct. -/
lemma distinct_swapErase (h : Lawful eq) (hl : Distinct eq l) (k : κ) :
    Distinct eq (swapErase eq k l) :=
  (hl.erase k).perm h (swapErase_perm k l).symm

/-- **What is found after a key was removed.** -/
theorem find_swapErase (h : Lawful eq) (hl : Distinct eq l) (k k' : κ) :
    find eq (swapErase eq k l) k' = if eq k k' then none else find eq l k' := by
  rw [find_perm h (distinct_swapErase h hl k) (swapErase_perm k l), find_erase h hl]

end Unordered
