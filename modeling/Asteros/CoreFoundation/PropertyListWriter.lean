import Asteros.CoreFoundation.Object
import Asteros.Lib.Base64
import Asteros.Libc.Stdio
import Mathlib.Tactic.NormNum

set_option autoImplicit false

/-!
# The XML property list writer

The writer half of `CFPropertyList.c`. Numbers are formatted into arrays on the stack with
`snprintf`, whose unchecked terminator can land outside the array; the writer is therefore
partial, with one failure for a value it refuses and one for that store.

## Main definitions

* `b64Encode` — line-wrapped base64.
* `writeValue` — one value at a given depth.
* `cfPropertyListCreateXMLData` — the whole document.

## Main results

* `filterMap_b64Encode` — the alphabet characters of the encoded text.
* `appendFormatted_integer` — an integer element is written exactly when its decimal text has at
  most eleven characters.
-/

namespace Asteros.CoreFoundation

open Asteros.Libc

variable {δ : Type}

/-! ## Base64 -/

/-- `b64_alphabet[v]`. -/
def b64Alphabet (v : ℕ) : UInt8 :=
  (ascii "ABCDEFGHIJKLMNOPQRSTUVWXYZabcdefghijklmnopqrstuvwxyz0123456789+/").getD v 0

/-- `b64Encode` from column `col`, which starts a new line once 76 characters stand in one. -/
def b64Encode (col : ℕ) : List UInt8 → List UInt8
  | b₀ :: b₁ :: b₂ :: bytes =>
    let v := b₀.toNat * 2 ^ 16 + b₁.toNat * 2 ^ 8 + b₂.toNat
    let quad := [b64Alphabet (v / 2 ^ 18 % 64), b64Alphabet (v / 2 ^ 12 % 64),
      b64Alphabet (v / 2 ^ 6 % 64), b64Alphabet (v % 64)]
    if col + 4 ≥ 76 then quad ++ ascii "\n" ++ b64Encode 0 bytes
    else quad ++ b64Encode (col + 4) bytes
  | [b₀, b₁] =>
    let v := b₀.toNat * 2 ^ 16 + b₁.toNat * 2 ^ 8
    [b64Alphabet (v / 2 ^ 18 % 64), b64Alphabet (v / 2 ^ 12 % 64), b64Alphabet (v / 2 ^ 6 % 64),
      byte '=']
  | [b₀] =>
    let v := b₀.toNat * 2 ^ 16
    [b64Alphabet (v / 2 ^ 18 % 64), b64Alphabet (v / 2 ^ 12 % 64), byte '=', byte '=']
  | [] => []

/-- The table is the standard alphabet. -/
lemma b64Alphabet_eq {v : ℕ} (h : v < 64) : b64Alphabet v = Base64.alphabet v := by
  have hall : ∀ v : Fin 64, b64Alphabet v = Base64.alphabet v := by
    unfold b64Alphabet
    rw [ascii_ofList]
    decide
  exact hall ⟨v, h⟩

/-- A table entry stands for its index. -/
lemma sextet_b64Alphabet {v : ℕ} (h : v < 64) : Base64.sextet (b64Alphabet v) = some v := by
  rw [b64Alphabet_eq h, Base64.sextet_alphabet h]

/-- The alphabet characters of a quadruple. -/
lemma filterMap_quad {v₀ v₁ v₂ v₃ : ℕ} (h₀ : v₀ < 64) (h₁ : v₁ < 64) (h₂ : v₂ < 64)
    (h₃ : v₃ < 64) (text : List UInt8) :
    ([b64Alphabet v₀, b64Alphabet v₁, b64Alphabet v₂, b64Alphabet v₃] ++ text).filterMap
      Base64.sextet = v₀ :: v₁ :: v₂ :: v₃ :: text.filterMap Base64.sextet := by
  simp only [List.cons_append, List.nil_append,
    List.filterMap_cons_some (sextet_b64Alphabet h₀),
    List.filterMap_cons_some (sextet_b64Alphabet h₁),
    List.filterMap_cons_some (sextet_b64Alphabet h₂),
    List.filterMap_cons_some (sextet_b64Alphabet h₃)]

/-- **The alphabet characters of the encoded text are the sextets of the bytes.** -/
lemma filterMap_b64Encode (col : ℕ) (bytes : List UInt8) :
    (b64Encode col bytes).filterMap Base64.sextet = Base64.sextets bytes := by
  have hmod : ∀ n, n % 64 < 64 := fun n => Nat.mod_lt n (by decide)
  induction col, bytes using b64Encode.induct with
  | case1 col b₀ b₁ b₂ bytes hcol ih =>
    rw [b64Encode, if_pos hcol, List.append_assoc]
    simp only [filterMap_quad (hmod _) (hmod _) (hmod _) (hmod _)]
    rw [show ascii "\n" = [10] from rfl, List.singleton_append,
      List.filterMap_cons_none (by decide), ih]
    simp [Base64.sextets, Base64.sextetAt, Base64.group]
  | case2 col b₀ b₁ b₂ bytes hcol ih =>
    rw [b64Encode, if_neg hcol]
    simp only [filterMap_quad (hmod _) (hmod _) (hmod _) (hmod _)]
    rw [ih]
    simp [Base64.sextets, Base64.sextetAt, Base64.group]
  | case3 col b₀ b₁ =>
    have heq : Base64.sextet (byte '=') = none := by decide
    simp [b64Encode, Base64.sextets, Base64.sextetAt, Base64.group,
      sextet_b64Alphabet (hmod _), heq]
  | case4 col b₀ =>
    have heq : Base64.sextet (byte '=') = none := by decide
    simp [b64Encode, Base64.sextets, Base64.sextetAt, Base64.group,
      sextet_b64Alphabet (hmod _), heq]
  | case5 col => rfl

/-- A character of base64 text: in the alphabet, the padding, or a line break. -/
def IsB64Char (c : UInt8) : Prop := Base64.sextet c ≠ none ∨ c = byte '=' ∨ c = byte '\n'

/-- The encoded text consists of such characters. -/
lemma isB64Char_b64Encode (col : ℕ) (bytes : List UInt8) :
    ∀ c ∈ b64Encode col bytes, IsB64Char c := by
  have hmod : ∀ n, n % 64 < 64 := fun n => Nat.mod_lt n (by decide)
  have halpha : ∀ n, IsB64Char (b64Alphabet (n % 64)) := fun n =>
    Or.inl (by rw [sextet_b64Alphabet (hmod n)]; simp)
  have hpad : IsB64Char (byte '=') := Or.inr (Or.inl rfl)
  have hline : IsB64Char 10 := Or.inr (Or.inr rfl)
  induction col, bytes using b64Encode.induct with
  | case1 col b₀ b₁ b₂ bytes hcol ih =>
    rw [b64Encode, if_pos hcol, show ascii "\n" = [10] from rfl]
    simp only [List.cons_append, List.nil_append, List.forall_mem_cons]
    exact ⟨halpha _, halpha _, halpha _, halpha _, hline, ih⟩
  | case2 col b₀ b₁ b₂ bytes hcol ih =>
    rw [b64Encode, if_neg hcol]
    simp only [List.cons_append, List.nil_append, List.forall_mem_cons]
    exact ⟨halpha _, halpha _, halpha _, halpha _, ih⟩
  | case3 col b₀ b₁ =>
    simp only [b64Encode, List.forall_mem_cons]
    exact ⟨halpha _, halpha _, halpha _, hpad, by simp⟩
  | case4 col b₀ =>
    simp only [b64Encode, List.forall_mem_cons]
    exact ⟨halpha _, halpha _, hpad, hpad, by simp⟩
  | case5 col => simp [b64Encode]

/-! ## The writer -/

/-- Why the writer does not produce a document. -/
inductive WriteFailure where
  /-- `writeValue` returns false: the value has no property list form. -/
  | unsupported
  /-- A store outside an array on the stack. -/
  | outOfBounds
  deriving DecidableEq

/-- `appendIndent`. -/
def appendIndent (depth : ℕ) : List UInt8 := List.replicate depth (byte '\t')

/-- One character of `appendEscaped`. -/
def escapeByte (b : UInt8) : List UInt8 :=
  if b = byte '&' then ascii "&amp;"
  else if b = byte '<' then ascii "&lt;"
  else if b = byte '>' then ascii "&gt;"
  else if b = byte '"' then ascii "&quot;"
  else if b = byte '\'' then ascii "&apos;"
  else [b]

/-- `appendEscaped`, which stops at the first NUL. -/
def appendEscaped (utf8 : CString) : List UInt8 := utf8.bytes.flatMap escapeByte

/-- `appendString`. -/
def appendString (tag : List UInt8) (s : List UInt8) : List UInt8 :=
  ascii "<" ++ tag ++ ascii ">" ++ appendEscaped (CString.ofBytes s) ++ ascii "</" ++ tag ++
    ascii ">\n"

/-- The format of an integer element. -/
def integerFormat : CString := CString.ofBytes (ascii "<integer>%lld</integer>\n")

/-- The format of a real element. -/
def realFormat : CString := CString.ofBytes (ascii "<real>%.17g</real>\n")

/-- `snprintf` into an array on the stack, and `appendCStr` of the array. -/
def appendFormatted (size : ℕ) (fmt : CString) (ap : List VaArg) :
    Except WriteFailure (List UInt8) :=
  match vsnprintf size fmt ap with
  | some s => .ok s.bytes
  | none => .error .outOfBounds

mutual
/-- `writeValue`. The formatter does not know `%.17g` and reads no argument for it. -/
def writeValue (depth : ℕ) : CFObject δ → Except WriteFailure (List UInt8)
  | .boolean b => .ok (appendIndent depth ++ ascii (if b then "<true/>\n" else "<false/>\n"))
  | .string s => .ok (appendIndent depth ++ appendString (ascii "string") s)
  | .real _ => do
    let text ← appendFormatted 64 realFormat []
    .ok (appendIndent depth ++ text)
  | .integer v => do
    let text ← appendFormatted 32 integerFormat [.word v]
    .ok (appendIndent depth ++ text)
  | .data d =>
    .ok (appendIndent depth ++ ascii "<data>\n" ++ b64Encode 0 d ++ ascii "\n" ++
      appendIndent depth ++ ascii "</data>\n")
  | .array a => do
    let body ← writeArray (depth + 1) a
    .ok (appendIndent depth ++ ascii "<array>\n" ++ body ++ appendIndent depth ++
      ascii "</array>\n")
  | .dictionary d => do
    let body ← writeEntries (depth + 1) d
    .ok (appendIndent depth ++ ascii "<dict>\n" ++ body ++ appendIndent depth ++
      ascii "</dict>\n")
  | .null => .error .unsupported
  | .date _ => .error .unsupported

/-- The loop over the values of an array. -/
def writeArray (depth : ℕ) : List (CFObject δ) → Except WriteFailure (List UInt8)
  | [] => .ok []
  | x :: xs => do
    let head ← writeValue depth x
    let tail ← writeArray depth xs
    .ok (head ++ tail)

/-- `dictWriteApplier` over the entries of a dictionary. -/
def writeEntries (depth : ℕ) : Entries δ → Except WriteFailure (List UInt8)
  | [] => .ok []
  | (key, val) :: es => do
    let value ← writeValue depth val
    let tail ← writeEntries depth es
    .ok (appendIndent depth ++ appendString (ascii "key") key ++ value ++ tail)
end

/-- The XML declaration, the document type and the opening tag. -/
def xmlHeader : List UInt8 :=
  ascii "<?xml version=\"1.0\" encoding=\"UTF-8\"?>\n" ++
    ascii "<!DOCTYPE plist PUBLIC \"-//Apple//DTD PLIST 1.0//EN\" \"http://www.apple.com/DTDs/PropertyList-1.0.dtd\">\n" ++
    ascii "<plist version=\"1.0\">\n"

/-- `CFPropertyListCreateXMLData`. -/
def cfPropertyListCreateXMLData (propertyList : CFObject δ) : Except WriteFailure (List UInt8) := do
  let body ← writeValue 0 propertyList
  .ok (xmlHeader ++ body ++ ascii "</plist>\n")

/-! ## Integers -/

/-- The decimal text has at most eleven characters. -/
def ShortInteger (v : BitVec 64) : Prop := -9999999999 ≤ v.toInt ∧ v.toInt ≤ 99999999999

instance (v : BitVec 64) : Decidable (ShortInteger v) :=
  inferInstanceAs (Decidable (_ ∧ _))

/-- Shortness as a length. -/
lemma shortInteger_iff (v : BitVec 64) : ShortInteger v ↔ (decimal v).length ≤ 11 := by
  rw [length_decimal_le_iff (k := 10) (by decide), ShortInteger]
  norm_num
  omega

/-- The element that holds an integer. -/
def integerElement (v : BitVec 64) : List UInt8 :=
  ascii "<integer>" ++ decimal v ++ ascii "</integer>\n"

/-- **An integer element is written exactly when its text is short**: otherwise the terminating
NUL is stored outside the array. -/
lemma appendFormatted_integer (v : BitVec 64) :
    appendFormatted 32 integerFormat [.word v] =
      if ShortInteger v then .ok (integerElement v) else .error .outOfBounds := by
  have hfmt : integerFormat.bytes = ascii "<integer>" ++ byte '%' ::
      (List.replicate 2 (byte 'l') ++ byte 'd' :: ascii "</integer>\n") := by decide
  have hlen : (integerElement v).length = (decimal v).length + 20 := by
    simp only [integerElement, List.length_append, show (ascii "<integer>").length = 9 from rfl,
      show (ascii "</integer>\n").length = 11 from rfl]
    omega
  have hnul : 0 ∉ integerElement v := by
    have hz := decimal_nulFree v
    have hpre : 0 ∉ ascii "<integer>" := by decide
    have hpost : 0 ∉ ascii "</integer>\n" := by decide
    simp only [integerElement, List.mem_append, hpre, hz, hpost, or_self, not_false_eq_true]
  rw [appendFormatted, vsnprintf_integer (by decide) (by decide) (by decide) hfmt]
  change (match (Sink.after 32 (integerElement v)).contents 32 with
    | some s => Except.ok s.bytes
    | none => Except.error WriteFailure.outOfBounds) = _
  by_cases hs : ShortInteger v
  · have hfit : (integerElement v).length < 32 := by
      rw [shortInteger_iff] at hs
      omega
    rw [if_pos hs, Sink.contents_after hfit]
    simp only [CString.bytes_ofBytes_of_nulFree hnul]
  · have hfull : 32 ≤ (integerElement v).length := by
      rw [shortInteger_iff] at hs
      omega
    rw [if_neg hs, Sink.contents_after_eq_none hfull]

end Asteros.CoreFoundation
