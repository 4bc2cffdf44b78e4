import Asteros.Libc.Stdio

set_option autoImplicit false

/-!
# Number parsing

`strtol` of `stdlib_misc.c`, which `strtoll` calls. The value is accumulated in a `long`, which
wraps.

## Main definitions

* `strtol`, `strtoul` — the value, and the text `*endptr` is left at.
-/

namespace Asteros.Libc

/-- The value of a digit or letter. -/
def strtolDigit (b : UInt8) : Option ℕ :=
  if byte '0' ≤ b ∧ b ≤ byte '9' then some (b.toNat - 48)
  else if byte 'a' ≤ b ∧ b ≤ byte 'z' then some (b.toNat - 97 + 10)
  else if byte 'A' ≤ b ∧ b ≤ byte 'Z' then some (b.toNat - 65 + 10)
  else none

/-- The digit loop: the value and what is left. -/
def strtolLoop (base : ℕ) : List UInt8 → BitVec 64 → BitVec 64 × List UInt8
  | [], val => (val, [])
  | b :: p, val =>
    match strtolDigit b with
    | none => (val, b :: p)
    | some d =>
      if d < base then strtolLoop base p (val * BitVec.ofNat 64 base + BitVec.ofNat 64 d)
      else (val, b :: p)

/-- The sign, if there is one. -/
def strtolSign : List UInt8 → Bool × List UInt8
  | b :: p =>
    if b = byte '+' ∨ b = byte '-' then (b = byte '-', p) else (false, b :: p)
  | [] => (false, [])

/-- The prefix that selects the base. -/
def strtolBase (base : ℕ) (p : List UInt8) : ℕ × List UInt8 :=
  let zero := p.head? = some (byte '0')
  let hex := p[1]? = some (byte 'x') ∨ p[1]? = some (byte 'X')
  if (base = 0 ∨ base = 16) ∧ zero ∧ hex then (16, p.drop 2)
  else if base = 0 ∧ zero then (8, p)
  else if base = 0 then (10, p)
  else (base, p)

/-- `strtol`: the value, and the text that `*endptr` points to. -/
def strtol (nptr : CString) (base : ℕ) : BitVec 64 × List UInt8 :=
  let p := nptr.bytes.dropWhile isspace
  let (neg, p) := strtolSign p
  let (base, start) := strtolBase base p
  let (val, p) := strtolLoop base start 0
  (if neg then -val else val, if p.length = start.length then nptr.bytes else p)

/-- `strtoul`, which is the same code on `unsigned long`. -/
def strtoul (nptr : CString) (base : ℕ) : BitVec 64 × List UInt8 := strtol nptr base

/-! ## Decimal digits -/

/-- The value of a decimal digit's character. -/
lemma strtolDigit_digitChar {d : ℕ} (h : d < 10) : strtolDigit (digitChar d) = some d := by
  have hlow : byte '0' ≤ digitChar d := by
    rw [UInt8.le_iff_toNat_le, toNat_digitChar h]
    simp [byte]
  have hhigh : digitChar d ≤ byte '9' := by
    rw [UInt8.le_iff_toNat_le, toNat_digitChar h]
    simp [byte]
    omega
  rw [strtolDigit, if_pos ⟨hlow, hhigh⟩, toNat_digitChar h]
  congr 1
  omega

/-- The text of a number starts with a digit. -/
lemma exists_digit_numbuf (n : ℕ) :
    ∃ d p, d < 10 ∧ (numbuf digitChar 10 n).reverse = digitChar d :: p := by
  unfold numbuf
  by_cases h0 : n = 0
  · exact ⟨0, [], by decide, by simp [h0]⟩
  · have hne : (Nat.digits 10 n).reverse ≠ [] := by
      rw [ne_eq, List.reverse_eq_nil_iff, Nat.digits_eq_nil_iff_eq_zero]
      exact h0
    obtain ⟨d, ds, hds⟩ := List.exists_cons_of_ne_nil hne
    have hmem : d ∈ Nat.digits 10 n := List.mem_reverse.mp (hds ▸ List.mem_cons_self)
    refine ⟨d, ds.map digitChar, Nat.digits_lt_base (by decide) hmem, ?_⟩
    rw [if_neg h0, ← List.map_reverse, hds, List.map_cons]

/-- A digit is neither whitespace nor a sign. -/
lemma digitChar_ne {d : ℕ} (h : d < 10) :
    isspace (digitChar d) = false ∧ digitChar d ≠ byte '+' ∧ digitChar d ≠ byte '-' := by
  have hval := toNat_digitChar h
  have hne : ∀ b : UInt8, b.toNat < 48 → digitChar d ≠ b := fun b hb heq => by
    rw [heq] at hval
    omega
  refine ⟨?_, hne _ (by decide), hne _ (by decide)⟩
  simp only [isspace, Bool.or_eq_false_iff, beq_eq_false_iff_ne]
  exact ⟨⟨⟨⟨⟨hne _ (by decide), hne _ (by decide)⟩, hne _ (by decide)⟩, hne _ (by decide)⟩,
    hne _ (by decide)⟩, hne _ (by decide)⟩

/-- In base ten there is no prefix to skip. -/
lemma strtolBase_ten (p : List UInt8) : strtolBase 10 p = (10, p) := by
  simp [strtolBase]

end Asteros.Libc
