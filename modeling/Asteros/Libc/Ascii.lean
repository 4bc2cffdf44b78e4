import Asteros.Libc.CTypes
import Mathlib.Data.List.Infix

set_option autoImplicit false

/-!
# Characters and text

C character constants and string literals as bytes, and the `ctype.h` tests that the userland's
parsers use. A test such as `strncmp(p, lit, strlen(lit)) == 0` is `lit.isPrefixOf` of what lies
at `p`.

## Main definitions

* `byte`, `ascii` — character constants and string literals.
* `isspace`, `isdigit` — the tests of `ctype.h`.
* `strstr` — the first occurrence of a text.

## Main results

* `isPrefixOf_append_of_mismatch` — texts that differ somewhere are no prefixes of each other's
  continuations.
* `strstr_of_avoids` — an occurrence that nothing precedes is the first.
-/

namespace Asteros.Libc

/-- A character constant. -/
def byte (c : Char) : UInt8 := UInt8.ofNat c.toNat

/-- The bytes of a string literal, without its terminator. -/
def ascii (s : String) : List UInt8 := s.toList.map byte

/-- A literal by its characters, which are not decoded from it again. -/
lemma ascii_ofList (l : List Char) : ascii (String.ofList l) = l.map byte := by
  rw [ascii, String.toList_ofList]

/-- Two literals one after the other. -/
lemma ascii_append (s t : String) : ascii (s ++ t) = ascii s ++ ascii t := by
  rw [ascii, String.toList_append, List.map_append, ascii, ascii]

/-- `isspace`. -/
def isspace (b : UInt8) : Bool :=
  b == byte ' ' || b == byte '\t' || b == byte '\n' || b == byte '\r' || b == 11 || b == 12

/-- `isdigit`. -/
def isdigit (b : UInt8) : Bool := byte '0' ≤ b && b ≤ byte '9'

/-- The character of a decimal digit. -/
def digitChar (d : ℕ) : UInt8 := UInt8.ofNat (48 + d)

/-- The value of the character of a decimal digit. -/
lemma toNat_digitChar {d : ℕ} (h : d < 10) : (digitChar d).toNat = 48 + d := by
  simp only [digitChar, UInt8.toNat_ofNat']
  omega

/-- A digit's character is a digit. -/
lemma isdigit_digitChar {d : ℕ} (h : d < 10) : isdigit (digitChar d) = true := by
  simp only [isdigit, byte, Bool.and_eq_true, decide_eq_true_eq, UInt8.le_iff_toNat_le,
    toNat_digitChar h]
  exact ⟨by simp, by simp; omega⟩

/-! ## Prefixes and occurrences -/

/-- Two texts differ in a place that both have. -/
def Mismatch (lit s : List UInt8) : Bool := (lit.zip s).any fun p => p.1 != p.2

/-- A text is a prefix of its continuations. -/
@[simp] lemma isPrefixOf_append_self (lit c : List UInt8) : lit.isPrefixOf (lit ++ c) = true :=
  List.isPrefixOf_iff_prefix.mpr (List.prefix_append lit c)

/-- **A text that differs somewhere is no prefix of any continuation.** -/
lemma isPrefixOf_append_of_mismatch {lit s : List UInt8} (h : Mismatch lit s = true)
    (c : List UInt8) : lit.isPrefixOf (s ++ c) = false := by
  induction lit generalizing s with
  | nil => simp [Mismatch] at h
  | cons b lit ih =>
    cases s with
    | nil => simp [Mismatch] at h
    | cons b' s =>
      by_cases hb : b = b'
      · have hrest : Mismatch lit s = true := by
          simpa [Mismatch, hb] using h
        rw [List.cons_append, List.isPrefixOf_cons_cons, ih hrest, Bool.and_false]
      · rw [List.cons_append, List.isPrefixOf_cons_cons, beq_false_of_ne hb, Bool.false_and]

/-- `strstr`: what precedes the first occurrence of `needle`, and what starts with it. -/
def strstr (needle : List UInt8) : List UInt8 → Option (List UInt8 × List UInt8)
  | [] => if needle = [] then some ([], []) else none
  | b :: s =>
    if needle.isPrefixOf (b :: s) then some ([], b :: s)
    else (strstr needle s).map fun r => (b :: r.1, r.2)

/-- An occurrence is where it is found, and what begins there starts with what is searched. -/
lemma strstr_append_eq {needle s a e : List UInt8} (h : strstr needle s = some (a, e)) :
    a ++ e = s ∧ needle <+: e := by
  induction s generalizing a with
  | nil =>
    rw [strstr] at h
    split_ifs at h with hn
    obtain ⟨rfl, rfl⟩ := Prod.mk.inj (Option.some.inj h)
    exact ⟨rfl, by rw [hn]⟩
  | cons b s ih =>
    rw [strstr] at h
    split_ifs at h with hp
    · obtain ⟨rfl, rfl⟩ := Prod.mk.inj (Option.some.inj h)
      exact ⟨rfl, List.isPrefixOf_iff_prefix.mp hp⟩
    · obtain ⟨⟨a', e'⟩, hs, heq⟩ := Option.map_eq_some_iff.mp h
      obtain ⟨rfl, rfl⟩ := Prod.mk.inj heq
      obtain ⟨hcat, hneedle⟩ := ih hs
      exact ⟨by rw [List.cons_append, hcat], hneedle⟩

/-- The first occurrence is the first whatever follows it. -/
lemma strstr_append_right {needle a e : List UInt8} (hne : needle ≠ [])
    (h : strstr needle (a ++ (needle ++ e)) = some (a, needle ++ e)) (x : List UInt8) :
    strstr needle (a ++ (needle ++ x)) = some (a, needle ++ x) := by
  induction a with
  | nil =>
    obtain ⟨b, lit, rfl⟩ := List.exists_cons_of_ne_nil hne
    rw [List.nil_append, List.cons_append, strstr, ← List.cons_append,
      if_pos (isPrefixOf_append_self _ x)]
  | cons b a ih =>
    rw [List.cons_append, strstr] at h ⊢
    split_ifs at h with hp
    · cases h
    · obtain ⟨⟨a', e'⟩, hs, heq⟩ := Option.map_eq_some_iff.mp h
      obtain ⟨hcons, rfl⟩ := Prod.mk.inj heq
      obtain rfl := (List.cons.inj hcons).2
      -- whether it occurs here is decided before its first occurrence ends
      have hsame : ∀ y, needle.isPrefixOf (b :: (a' ++ (needle ++ y))) =
          needle.isPrefixOf (b :: (a' ++ needle)) := by
        intro y
        rw [Bool.eq_iff_iff, List.isPrefixOf_iff_prefix, List.isPrefixOf_iff_prefix,
          ← List.append_assoc, ← List.cons_append, List.isPrefix_append_of_length]
        rw [List.length_cons, List.length_append]
        omega
      rw [hsame] at hp ⊢
      rw [if_neg hp, ih hs]
      rfl

/-- No part of `pre` can be the start of an occurrence of `needle`. -/
def Avoids (needle : List UInt8) : List UInt8 → Bool
  | [] => true
  | b :: pre => Mismatch needle (b :: pre) && Avoids needle pre

/-- **An occurrence is the first if none can start before it.** -/
lemma strstr_of_avoids {needle pre : List UInt8} (hne : needle ≠ [])
    (h : Avoids needle pre = true) (c : List UInt8) :
    strstr needle (pre ++ (needle ++ c)) = some (pre, needle ++ c) := by
  induction pre with
  | nil =>
    obtain ⟨b, lit, rfl⟩ := List.exists_cons_of_ne_nil hne
    rw [List.nil_append, List.cons_append, strstr, ← List.cons_append,
      if_pos (isPrefixOf_append_self _ c)]
  | cons b pre ih =>
    rw [Avoids, Bool.and_eq_true] at h
    have hnot := isPrefixOf_append_of_mismatch h.1 (needle ++ c)
    rw [List.cons_append] at hnot
    rw [List.cons_append, strstr, hnot, if_neg Bool.false_ne_true, ih h.2]
    rfl

/-- An occurrence is the first if its first character does not occur before. -/
lemma strstr_append {b : UInt8} {lit raw : List UInt8} (h : b ∉ raw) (c : List UInt8) :
    strstr (b :: lit) (raw ++ (b :: lit ++ c)) = some (raw, b :: lit ++ c) := by
  refine strstr_of_avoids (List.cons_ne_nil b lit) ?_ c
  induction raw with
  | nil => rfl
  | cons b' raw ih =>
    rw [List.mem_cons, not_or] at h
    rw [Avoids, ih h.2, Bool.and_true]
    simp [Mismatch, h.1]

end Asteros.Libc
