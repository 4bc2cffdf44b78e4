import Asteros.Foundation.Json.Reader

set_option autoImplicit false

/-!
# JSON texts

The trees that JSON texts are the images of, with all their whitespace and every character of
their strings and numbers, so that a text that the reader accepts can be compared with the tree it
was read as. The trees are those of the reader, which is more liberal than the grammar of
RFC 8259; that grammar is a property of trees.

## Main definitions

* `Item`, `Number`, `Tree` — strings, numbers and values.
* `Tree.readable` — what the reader takes for a value.
* `Tree.strict` — what RFC 8259 takes for one.
* `Unfinished` — values that end in the middle of an escape.

## Main results

* `treeInduction` — induction over the values of a container.
-/

namespace Asteros.Foundation.Json

open Asteros.Libc Asteros.CoreFoundation

variable {δ : Type}

/-! ## Strings -/

/-- A character of a string as it is written. -/
inductive Item where
  /-- The character itself. -/
  | char (b : UInt8)
  /-- A backslash and a character. -/
  | escape (b : UInt8)
  /-- A backslash, a `u` and four characters. -/
  | unicode (h₁ h₂ h₃ h₄ : UInt8)

/-- The text of a character. -/
def Item.bytes : Item → List UInt8
  | .char b => [b]
  | .escape b => [byte '\\', b]
  | .unicode h₁ h₂ h₃ h₄ => [byte '\\', byte 'u', h₁, h₂, h₃, h₄]

/-- What the reader stores for a character. -/
def Item.stored : Item → List UInt8
  | .char b => [b]
  | .escape b => [unescaped b]
  | .unicode h₁ h₂ h₃ h₄ => encodeCodePoint (codePoint [h₁, h₂, h₃, h₄])

/-- What the reader takes for a character of a string. -/
def Item.WellFormed : Item → Prop
  | .char b => b ≠ 0 ∧ b ≠ byte '"' ∧ b ≠ byte '\\'
  | .escape b => b ≠ byte 'u'
  | .unicode _ _ _ _ => True

/-- A hexadecimal digit. -/
def isxdigit (b : UInt8) : Bool :=
  isdigit b || (byte 'a' ≤ b && b ≤ byte 'f') || (byte 'A' ≤ b && b ≤ byte 'F')

/-- What RFC 8259 takes for a character of a string: no control character stands for itself, a
backslash is followed by one of eight characters, and a `u` by four hexadecimal digits. -/
def Item.Strict : Item → Prop
  | .char b => 0x20 ≤ b
  | .escape b => b ∈ ascii "\"\\/bfnrt"
  | .unicode h₁ h₂ h₃ h₄ => ∀ h ∈ [h₁, h₂, h₃, h₄], isxdigit h = true

/-- The text of some characters. -/
def bodyBytes (items : List Item) : List UInt8 := items.flatMap Item.bytes

/-- The text of a string. -/
def stringBytes (items : List Item) : List UInt8 :=
  byte '"' :: (bodyBytes items ++ [byte '"'])

/-- The string that is read. -/
def stringValue (items : List Item) : List UInt8 :=
  initWithUTF8String (items.flatMap Item.stored)

/-- The bytes are the UTF-8 encoding of characters. -/
def IsUtf8 (s : List UInt8) : Prop := ∃ cs : List Char, s = cs.flatMap String.utf8EncodeChar

/-- What RFC 8259 takes for a string, which is a text of characters. -/
def StrictString (items : List Item) : Prop :=
  (∀ i ∈ items, i.Strict) ∧ IsUtf8 (bodyBytes items)

/-! ## Numbers -/

/-- The exponent of a number: the letter, the sign and the digits. -/
structure Exponent where
  mark : UInt8
  sign : List UInt8
  digits : List UInt8

/-- A number as it is written. -/
structure Number where
  minus : Bool
  int : List UInt8
  frac : Option (List UInt8)
  exp : Option Exponent

namespace Number

/-- The text of a fraction. -/
def fracBytes : Option (List UInt8) → List UInt8
  | none => []
  | some digits => byte '.' :: digits

/-- The text of an exponent. -/
def expBytes : Option Exponent → List UInt8
  | none => []
  | some e => e.mark :: (e.sign ++ e.digits)

/-- The text of a number. -/
def bytes (n : Number) : List UInt8 :=
  (if n.minus then [byte '-'] else []) ++ (n.int ++ (fracBytes n.frac ++ expBytes n.exp))

/-- The characters are digits. -/
def Digits (s : List UInt8) : Prop := ∀ b ∈ s, isdigit b = true

/-- What the reader takes for a number: any of the runs of digits may be empty, but for the
integer of a number without a sign. -/
structure WellFormed (n : Number) : Prop where
  int : Digits n.int
  start : n.minus = true ∨ n.int ≠ []
  frac : ∀ digits ∈ n.frac, Digits digits
  exp : ∀ e ∈ n.exp, e.mark ∈ ascii "eE" ∧ e.sign ∈ [[], ascii "+", ascii "-"] ∧ Digits e.digits

/-- What RFC 8259 takes for a number: the runs of digits are not empty, and the integer starts
with a zero only if it is zero. -/
structure Strict (n : Number) : Prop where
  int : n.int ≠ []
  leading : n.int.head? = some (byte '0') → n.int = ascii "0"
  frac : ∀ digits ∈ n.frac, digits ≠ []
  exp : ∀ e ∈ n.exp, e.digits ≠ []

/-- The number fits the array it is copied to. -/
def Short (n : Number) : Prop := n.bytes.length < 64

/-- The number that is read. -/
def value (lib : Library δ) (n : Number) : CFObject δ :=
  if n.frac.isSome || n.exp.isSome then .real (lib.strtod (CString.ofBytes n.bytes))
  else .integer (strtol (CString.ofBytes n.bytes) 10).1

end Number

/-! ## Values -/

/-- The key of a member with the whitespace around it and the colon. -/
structure Key where
  lead : List UInt8
  name : List Item
  before : List UInt8
  after : List UInt8

/-- The text of a key. -/
def Key.bytes (k : Key) : List UInt8 :=
  k.lead ++ (stringBytes k.name ++ (k.before ++ (byte ':' :: k.after)))

/-- A value as it is written. A container that is not empty has `done` values with a comma after
them and a last one, each with its whitespace. -/
inductive Tree where
  | null
  | boolean (b : Bool)
  | number (n : Number)
  | string (items : List Item)
  | emptyArray (blank : List UInt8)
  | array (done : List (List UInt8 × Tree × List UInt8)) (lead : List UInt8) (last : Tree)
    (trail : List UInt8)
  | emptyObject (blank : List UInt8)
  | object (done : List (Key × Tree × List UInt8)) (key : Key) (last : Tree) (trail : List UInt8)

/-- **Induction over values**: a property of every value of a container holds of the container. -/
lemma treeInduction {P : Tree → Prop} (null : P .null) (boolean : ∀ b, P (.boolean b))
    (number : ∀ n, P (.number n)) (string : ∀ items, P (.string items))
    (emptyArray : ∀ blank, P (.emptyArray blank))
    (array : ∀ done lead last trail, (∀ s ∈ done, P s.2.1) → P last →
      P (.array done lead last trail))
    (emptyObject : ∀ blank, P (.emptyObject blank))
    (object : ∀ done key last trail, (∀ s ∈ done, P s.2.1) → P last →
      P (.object done key last trail)) (t : Tree) : P t := by
  refine @Tree.rec P (fun done => ∀ s ∈ done, P s.2.1) (fun done => ∀ s ∈ done, P s.2.1)
    (fun s => P s.2.1) (fun s => P s.2.1) (fun s => P s.1) null boolean number string emptyArray
    (fun done lead last trail h hl => array done lead last trail h hl) emptyObject
    (fun done key last trail h hl => object done key last trail h hl)
    ?_ ?_ ?_ ?_ ?_ ?_ ?_ t
  · simp
  · intro s done hs hdone s' hs'
    rcases List.mem_cons.mp hs' with rfl | hs'
    · exact hs
    · exact hdone s' hs'
  · simp
  · intro s done hs hdone s' hs'
    rcases List.mem_cons.mp hs' with rfl | hs'
    · exact hs
    · exact hdone s' hs'
  · exact fun _ _ h => h
  · exact fun _ _ h => h
  · exact fun _ _ h => h

namespace Tree

mutual
/-- The text of a value. -/
def bytes : Tree → List UInt8
  | .null => ascii "null"
  | .boolean b => ascii (if b then "true" else "false")
  | .number n => n.bytes
  | .string items => stringBytes items
  | .emptyArray blank => byte '[' :: (blank ++ [byte ']'])
  | .array done lead last trail =>
    byte '[' :: (elementsBytes done ++ (lead ++ (bytes last ++ (trail ++ [byte ']']))))
  | .emptyObject blank => byte '{' :: (blank ++ [byte '}'])
  | .object done key last trail =>
    byte '{' :: (membersBytes done ++ (key.bytes ++ (bytes last ++ (trail ++ [byte '}']))))

/-- The text of the values of an array that a comma follows. -/
def elementsBytes : List (List UInt8 × Tree × List UInt8) → List UInt8
  | [] => []
  | (lead, t, trail) :: done =>
    lead ++ (bytes t ++ (trail ++ (byte ',' :: elementsBytes done)))

/-- The text of the members of an object that a comma follows. -/
def membersBytes : List (Key × Tree × List UInt8) → List UInt8
  | [] => []
  | (key, t, trail) :: done =>
    key.bytes ++ (bytes t ++ (trail ++ (byte ',' :: membersBytes done)))
end

mutual
/-- The object that is read. -/
def value (lib : Library δ) : Tree → CFObject δ
  | .null => .null
  | .boolean b => .boolean b
  | .number n => n.value lib
  | .string items => .string (stringValue items)
  | .emptyArray _ => .array []
  | .array done _ last _ => .array (elementValues lib done ++ [value lib last])
  | .emptyObject _ => .dictionary []
  | .object done key last _ => .dictionary (cfDictionarySetValue (storeMembers lib [] done)
      (stringValue key.name) (value lib last))

/-- The objects that are read for values of an array. -/
def elementValues (lib : Library δ) : List (List UInt8 × Tree × List UInt8) → List (CFObject δ)
  | [] => []
  | (_, t, _) :: done => value lib t :: elementValues lib done

/-- The dictionary after some members are stored in it. -/
def storeMembers (lib : Library δ) : Entries δ → List (Key × Tree × List UInt8) → Entries δ
  | d, [] => d
  | d, (key, t, _) :: done =>
    storeMembers lib (cfDictionarySetValue d (stringValue key.name) (value lib t)) done
end

/-- What a property of values asks of numbers, of strings and of whitespace. -/
structure Rule where
  number : Number → Prop
  string : List Item → Prop
  blank : List UInt8 → Prop

/-- The key follows the rule. -/
def Rule.OfKey (R : Rule) (k : Key) : Prop :=
  R.blank k.lead ∧ R.string k.name ∧ R.blank k.before ∧ R.blank k.after

mutual
/-- The value follows the rule. -/
def Follows (R : Rule) : Tree → Prop
  | .null => True
  | .boolean _ => True
  | .number n => R.number n
  | .string items => R.string items
  | .emptyArray blank => R.blank blank
  | .array done lead last trail =>
    ElementsFollow R done ∧ R.blank lead ∧ Follows R last ∧ R.blank trail
  | .emptyObject blank => R.blank blank
  | .object done key last trail =>
    MembersFollow R done ∧ R.OfKey key ∧ Follows R last ∧ R.blank trail

/-- The values of an array follow the rule. -/
def ElementsFollow (R : Rule) : List (List UInt8 × Tree × List UInt8) → Prop
  | [] => True
  | (lead, t, trail) :: done =>
    (R.blank lead ∧ Follows R t ∧ R.blank trail) ∧ ElementsFollow R done

/-- The members of an object follow the rule. -/
def MembersFollow (R : Rule) : List (Key × Tree × List UInt8) → Prop
  | [] => True
  | (key, t, trail) :: done =>
    (R.OfKey key ∧ Follows R t ∧ R.blank trail) ∧ MembersFollow R done
end

/-- What the reader takes for a value, whatever the length of its numbers. -/
def wellFormed : Rule where
  number := Number.WellFormed
  string items := ∀ i ∈ items, i.WellFormed
  blank := Blank

/-- The numbers fit the array they are copied to. -/
def short : Rule where
  number := Number.Short
  string _ := True
  blank _ := True

/-- What the reader reads. -/
def readable : Rule where
  number n := n.WellFormed ∧ n.Short
  string items := ∀ i ∈ items, i.WellFormed
  blank := Blank

/-- What RFC 8259 takes for a value, where it is stricter than the reader. -/
def strict : Rule where
  number := Number.Strict
  string := StrictString
  blank _ := True

/-- The rule for the values of an array, as a quantified statement. -/
lemma elementsFollow_iff {R : Rule} (done : List (List UInt8 × Tree × List UInt8)) :
    ElementsFollow R done ↔ ∀ s ∈ done, R.blank s.1 ∧ Follows R s.2.1 ∧ R.blank s.2.2 := by
  induction done with
  | nil => simp [ElementsFollow]
  | cons s done ih =>
    obtain ⟨lead, t, trail⟩ := s
    rw [ElementsFollow, ih, List.forall_mem_cons]

/-- The rule for the members of an object, as a quantified statement. -/
lemma membersFollow_iff {R : Rule} (done : List (Key × Tree × List UInt8)) :
    MembersFollow R done ↔ ∀ s ∈ done, R.OfKey s.1 ∧ Follows R s.2.1 ∧ R.blank s.2.2 := by
  induction done with
  | nil => simp [MembersFollow]
  | cons s done ih =>
    obtain ⟨k, t, trail⟩ := s
    rw [MembersFollow, ih, List.forall_mem_cons]

/-- The value is a container. -/
def IsContainer : Tree → Prop
  | .emptyArray _ => True
  | .array _ _ _ _ => True
  | .emptyObject _ => True
  | .object _ _ _ _ => True
  | _ => False

end Tree

/-! ## Unfinished values -/

/-- An escape that lacks characters: a backslash alone, or a backslash, a `u` and fewer than four
characters. -/
def CutEscape (s : List UInt8) : Prop :=
  s = [byte '\\'] ∨ ∃ hex, hex.length < 4 ∧ s = byte '\\' :: byte 'u' :: hex

/-- A value that ends in the middle of an escape. -/
inductive Unfinished where
  /-- A string. -/
  | string (items : List Item) (cut : List UInt8)
  /-- An array whose next value is unfinished. -/
  | array (done : List (List UInt8 × Tree × List UInt8)) (lead : List UInt8) (next : Unfinished)
  /-- An object whose next key is unfinished. -/
  | key (done : List (Key × Tree × List UInt8)) (lead : List UInt8) (items : List Item)
    (cut : List UInt8)
  /-- An object whose next value is unfinished. -/
  | member (done : List (Key × Tree × List UInt8)) (key : Key) (next : Unfinished)

namespace Unfinished

/-- The text of an unfinished value. -/
def bytes : Unfinished → List UInt8
  | .string items cut => byte '"' :: (bodyBytes items ++ cut)
  | .array done lead next => byte '[' :: (Tree.elementsBytes done ++ (lead ++ next.bytes))
  | .key done lead items cut =>
    byte '{' :: (Tree.membersBytes done ++ (lead ++ (byte '"' :: (bodyBytes items ++ cut))))
  | .member done k next => byte '{' :: (Tree.membersBytes done ++ (k.bytes ++ next.bytes))

/-- What the reader takes for the start of a value, up to the escape. -/
def WellFormed : Unfinished → Prop
  | .string items cut => (∀ i ∈ items, i.WellFormed) ∧ CutEscape cut
  | .array done lead next =>
    Tree.ElementsFollow Tree.readable done ∧ Blank lead ∧ next.WellFormed
  | .key done lead items cut => Tree.MembersFollow Tree.readable done ∧ Blank lead ∧
      (∀ i ∈ items, i.WellFormed) ∧ CutEscape cut
  | .member done k next =>
    Tree.MembersFollow Tree.readable done ∧ Tree.readable.OfKey k ∧ next.WellFormed

/-- The value is a container. -/
def IsContainer : Unfinished → Prop
  | .string _ _ => False
  | _ => True

end Unfinished

end Asteros.Foundation.Json
