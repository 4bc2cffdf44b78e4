import Asteros.CoreFoundation.StringObject

set_option autoImplicit false

/-!
# Strings as data

`-dataUsingEncoding:` of `NSString` and `-initWithData:encoding:`, which undoes it. The buffer has
four bytes for every character and none for the terminator that is stored in it.

## Main definitions

* `SurvivesData` — a string comes back out of its data.

## Main results

* `survivesData_iff` — when it does.
-/

namespace Asteros.CoreFoundation

open Utf8

/-- The string is exported without a store outside the buffer, as its UTF-8 bytes, and a string that
is made of that data has the bytes of the string. -/
def SurvivesData (cs : List Char) : Prop :=
  ∃ data, dataUsingEncoding (encode cs) = .ok data ∧ data = encode cs ∧
    ∀ memory, (stringCreateFromBytes memory data).Holds (encode cs)

/-- The rest of a character is passed over. -/
lemma lengthLoop_append (p s : List UInt8) : lengthLoop p.length (p ++ s) = lengthLoop 0 s := by
  induction p with
  | nil => rfl
  | cons b p ih => exact ih

/-- The length of a string is that of its characters. -/
lemma cfStringGetLength_encode (cs : List Char) : cfStringGetLength (encode cs) = cs.length := by
  rw [cfStringGetLength]
  induction cs with
  | nil => rfl
  | cons c cs ih =>
    have hconsumed := utf8Consumed_encodeChar c (encode cs)
    obtain ⟨b, p, hp⟩ := exists_encodeChar c
    rw [hp, List.cons_append] at hconsumed
    rw [encode_cons, hp, List.cons_append, lengthLoop, hconsumed, List.length_cons,
      Nat.add_sub_cancel, lengthLoop_append, ih, List.length_cons]

/-- There is room left in four bytes for each character if a character does not take them. -/
lemma length_encode_lt_iff (cs : List Char) :
    (encode cs).length ≤ cs.length * 4 ∧
      ((encode cs).length < cs.length * 4 ↔ ∃ c ∈ cs, (String.utf8EncodeChar c).length < 4) := by
  induction cs with
  | nil => simp
  | cons c cs ih =>
    have hle : (String.utf8EncodeChar c).length ≤ 4 := by
      rw [String.length_utf8EncodeChar]
      exact c.utf8Size_le_four
    simp only [encode_cons, List.length_append, List.length_cons, List.mem_cons,
      exists_eq_or_imp, ← ih.2]
    omega

/-- **A string without NUL survives the way through data if and only if it has a character of fewer
than four bytes**, whose missing bytes are the room for the terminator. -/
theorem survivesData_iff {cs : List Char} (hnul : 0 ∉ encode cs) :
    SurvivesData cs ↔ ∃ c ∈ cs, (String.utf8EncodeChar c).length < 4 := by
  obtain ⟨hle, hlt⟩ := length_encode_lt_iff cs
  have hdata : dataUsingEncoding (encode cs) =
      if (encode cs).length < cs.length * 4 then .ok (encode cs) else .error .outOfBounds := by
    simp only [dataUsingEncoding, cfStringGetMaximumSizeForEncoding, cfStringGetLength_encode]
    rw [if_neg (by omega), Libc.CString.bytes_ofBytes_of_nulFree hnul]
    split_ifs <;> first | rfl | omega
  rw [← hlt]
  constructor
  · rintro ⟨data, hok, -, -⟩
    rw [hdata] at hok
    by_contra hno
    rw [if_neg hno] at hok
    cases hok
  · intro hroom
    exact ⟨_, by rw [hdata, if_pos hroom], rfl, fun memory => holds_stringCreateFromBytes memory _⟩

/-- A string of two characters, the first of four bytes. -/
theorem survivesData_mixed : SurvivesData [Char.ofNat 0x1f600, 'a'] :=
  (survivesData_iff (by decide)).2 ⟨'a', by decide, by decide⟩

/-- **For the empty string** the terminator is stored outside the buffer. -/
theorem not_survivesData : ¬∀ cs : List Char, 0 ∉ encode cs → SurvivesData cs := by
  intro h
  obtain ⟨data, hok, -⟩ := h [] (by decide)
  cases hok

end Asteros.CoreFoundation
