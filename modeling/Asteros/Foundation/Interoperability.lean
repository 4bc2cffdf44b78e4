import Asteros.Foundation.PropertyListRoundTrip

set_option autoImplicit false

/-!
# The two property list codecs together

What either writer produces is the document of its spelling, and either reader reads the document
of any spelling. So each codec reads what the other writes; only Core Foundation's writer fails
on its own, for integers that do not fit its array.

## Main definitions

* `Interoperates` — a property list survives in both directions.

## Main results

* `interoperates_iff` — which property lists do.
-/

namespace Asteros.Foundation

open Asteros.Libc Asteros.CoreFoundation

variable {δ : Type} (lib : Library δ)

/-- Core Foundation's reader gives back what either spelling wrote. -/
lemma createFromXMLData_document (sp : Spelling) (mutability : MutabilityOptions) {p : CFObject δ}
    (hp : p.IsPlist) : ∃ st, cfPropertyListCreateFromXMLData lib.strtod mutability
      (document sp p) = .ok (some p, st) ∧ st.errors = [] := by
  have h := read_writtenDocument sp lib.strtod mutability hp
  rwa [bytes_writtenDocument sp hp] at h

/-- Core Foundation's writer produces the document of its spelling, if the integers are short. -/
lemma createXMLData_document {p : CFObject δ} (hp : p.IsPlist) (h : p.ShortIntegers) :
    cfPropertyListCreateXMLData p = .ok (document cfSpelling p) := by
  rw [(createXMLData_eq hp).1 h, bytes_writtenDocument cfSpelling hp]
  rfl

/-- The property list `p` survives in both directions: each writer writes it without a fault, and
the other reader gives `p`. -/
def Interoperates (p : CFObject δ) : Prop :=
  (∃ data, cfPropertyListCreateXMLData p = .ok data ∧
    propertyListWithData lib data = .ok (some p)) ∧
  ∃ data, dataWithPropertyList lib p .xmlFormat_v1_0 = .ok (some data) ∧ ∀ mutability, ∃ st,
    cfPropertyListCreateFromXMLData lib.strtod mutability data = .ok (some p, st) ∧ st.errors = []

/-- **A property list survives in both directions exactly when its integers are short.**

**Proof sketch.** Both writers produce the document of their spelling, which the other reader
reads back (`propertyListWithData_text`, `read_writtenDocument`); for a longer integer Core
Foundation's writer stores outside its array. -/
theorem interoperates_iff {p : CFObject δ} (hp : p.IsPlist) :
    Interoperates lib p ↔ p.ShortIntegers := by
  have hne : p ≠ .null := by
    rintro rfl
    exact hp
  constructor
  · rintro ⟨⟨data, hdata, -⟩, -⟩
    by_contra hlong
    rw [(createXMLData_eq hp).2 hlong] at hdata
    cases hdata
  · intro h
    refine ⟨⟨_, createXMLData_document hp h, ?_⟩, _, dataWithPropertyList_eq lib hp.isGraph,
      fun mutability => createFromXMLData_document lib nsSpelling mutability hp⟩
    rw [propertyListWithData_text lib cfSpelling hp.isGraph hne, readBack_eq hp]

/-- A nested property list with strings to escape and data survives. -/
theorem interoperates_nested : Interoperates noReals
    (.array [.boolean true, .dictionary [(ascii "a<\"b", .integer 99999999999),
      (ascii "", .data [1, 2])]]) :=
  (interoperates_iff noReals
    (by simp [CFObject.IsPlist, CFObject.Everywhere, CFObject.EverywhereValues,
      CFObject.EverywhereEntries, CFObject.PlistAt, keys, ascii, byte])).mpr
    (by simp [CFObject.ShortIntegers, CFObject.Everywhere, CFObject.EverywhereValues,
      CFObject.EverywhereEntries, CFObject.ShortIntegerAt, ShortInteger])

/-- **The least `int64` does not survive**: Core Foundation's writer fails. -/
theorem not_interoperates_intMin :
    (CFObject.integer (δ := Unit) (BitVec.intMin 64)).IsPlist ∧
      ¬Interoperates noReals (.integer (BitVec.intMin 64)) := by
  have hplist : (CFObject.integer (δ := Unit) (BitVec.intMin 64)).IsPlist := trivial
  refine ⟨hplist, fun ⟨⟨data, hdata, _⟩, _⟩ => ?_⟩
  have hlong : ¬(CFObject.integer (δ := Unit) (BitVec.intMin 64)).ShortIntegers :=
    show ¬ShortInteger (BitVec.intMin 64) by decide
  rw [(createXMLData_eq hplist).2 hlong] at hdata
  cases hdata

end Asteros.Foundation
