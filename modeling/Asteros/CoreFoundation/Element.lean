import Asteros.CoreFoundation.PropertyListReader

set_option autoImplicit false

/-!
# Property list elements with their layout

An element is what a well-formed part of a property list document says, with the whitespace
before it, its tags as they are spelled and its raw text. The reader accepts exactly the images
of elements, and the writers emit the images of elements with bare tags; both are proved
elsewhere against the code. This file is about the elements themselves.

## Main definitions

* `OpenTag`, `CloseTag` — tags with their layout.
* `Element` — elements; `Element.bytes` the image of an element, `Element.value` the object it
  stands for.
* `Element.Valid` — the layout is one that the tags and texts allow.

## Main results

* `Element.induct` — induction over an element.
-/

namespace Asteros.CoreFoundation

open Asteros.Libc

/-- Whitespace. -/
def Blank (s : List UInt8) : Prop := ∀ b ∈ s, isWs b = true

/-- The tag that opens an element: its name, and the attributes up to the `>`. -/
structure OpenTag where
  name : List UInt8
  rest : List UInt8

namespace OpenTag

/-- The image of an open tag. -/
def bytes (t : OpenTag) : List UInt8 := byte '<' :: (t.name ++ t.rest) ++ [byte '>']

/-- The tag ends at its `>`, and its name at the first character that cannot be in one. -/
structure Valid (t : OpenTag) : Prop where
  name : ∀ b ∈ t.name, isNameChar b = true
  rest : byte '>' ∉ t.rest
  delimited : ∀ b ∈ t.rest.head?, isNameChar b = false

/-- The name compares equal, by `strcmp`. -/
def Named (t : OpenTag) (name : List UInt8) : Prop := (CString.ofBytes t.name).bytes = name

/-- A tag with a name and nothing else. -/
def bare (name : List UInt8) : OpenTag := ⟨name, []⟩

end OpenTag

/-- The tag that closes an element: the whitespace before it and before its `>`. -/
structure CloseTag where
  lead : List UInt8
  trail : List UInt8

namespace CloseTag

/-- The image of a close tag. -/
def bytes (t : CloseTag) (name : List UInt8) : List UInt8 :=
  t.lead ++ ascii "</" ++ name ++ t.trail ++ [byte '>']

/-- The layout is whitespace. -/
structure Valid (t : CloseTag) : Prop where
  lead : Blank t.lead
  trail : Blank t.trail

/-- The close tag of a text, to which the whitespace before it belongs. -/
def ofText (trail : List UInt8) : CloseTag := ⟨[], trail⟩

/-- Such a tag is valid with whitespace before its `>`. -/
lemma valid_ofText {trail : List UInt8} (h : Blank trail) : (ofText trail).Valid :=
  ⟨fun _ hb => absurd hb List.not_mem_nil, h⟩

end CloseTag

/-- The elements that hold text. -/
inductive TextKind where
  | string
  | integer
  | real
  | data
  deriving DecidableEq

/-- The tag name of a text element. -/
def TextKind.name : TextKind → List UInt8
  | .string => ascii "string"
  | .integer => ascii "integer"
  | .real => ascii "real"
  | .data => ascii "data"

/-- What a text stands for, after its entities are replaced. -/
def TextKind.value {δ : Type} (strtod : CString → δ) : TextKind → List UInt8 → CFObject δ
  | .string, text => .string text
  | .integer, text => .integer (strtol (CString.ofBytes text) 10).1
  | .real, text => .real (strtod (CString.ofBytes text))
  | .data, text => .data (b64Decode text)

/-- A key of a dictionary, with its layout. -/
structure KeyElement where
  lead : List UInt8
  tag : OpenTag
  raw : List UInt8
  trail : List UInt8

namespace KeyElement

/-- The image of a key. -/
def bytes (k : KeyElement) : List UInt8 :=
  k.lead ++ k.tag.bytes ++ (k.raw ++ (CloseTag.ofText k.trail).bytes (ascii "key"))

/-- The layout of a key is one its tags and text allow. -/
structure Valid (k : KeyElement) : Prop where
  lead : Blank k.lead
  tag : k.tag.Valid
  named : k.tag.Named (ascii "key")
  raw : byte '<' ∉ k.raw
  trail : Blank k.trail

end KeyElement

/-- An element that stands for an object. -/
inductive Element where
  | boolean (lead : List UInt8) (tag : OpenTag) (b : Bool)
  | text (kind : TextKind) (lead : List UInt8) (tag : OpenTag) (raw : List UInt8)
      (trail : List UInt8)
  | array (lead : List UInt8) (tag : OpenTag) (items : List Element) (close : CloseTag)
  | dict (lead : List UInt8) (tag : OpenTag) (entries : List (KeyElement × Element))
      (close : CloseTag)

namespace Element

/-- Induction over an element. -/
lemma induct {P : Element → Prop} (boolean : ∀ lead tag b, P (.boolean lead tag b))
    (text : ∀ kind lead tag raw trail, P (.text kind lead tag raw trail))
    (array : ∀ lead tag items close, (∀ e ∈ items, P e) → P (.array lead tag items close))
    (dict : ∀ lead tag entries close, (∀ e ∈ entries, P e.2) → P (.dict lead tag entries close))
    (e : Element) : P e := by
  refine @Element.rec P (fun items => ∀ e ∈ items, P e) (fun entries => ∀ e ∈ entries, P e.2)
    (fun e => P e.2) boolean text array dict ?_ ?_ ?_ ?_ ?_ e
  · simp
  · intro x xs hx hxs y hy
    rcases List.mem_cons.mp hy with rfl | hy
    · exact hx
    · exact hxs y hy
  · simp
  · intro e es he hes f hf
    rcases List.mem_cons.mp hf with rfl | hf
    · exact he
    · exact hes f hf
  · exact fun _ _ h => h

mutual
/-- The image of an element. -/
def bytes : Element → List UInt8
  | .boolean lead tag _ => lead ++ tag.bytes
  | .text kind lead tag raw trail =>
    lead ++ tag.bytes ++ (raw ++ (CloseTag.ofText trail).bytes kind.name)
  | .array lead tag items close =>
    lead ++ tag.bytes ++ (bytesItems items ++ close.bytes (ascii "array"))
  | .dict lead tag entries close =>
    lead ++ tag.bytes ++ (bytesEntries entries ++ close.bytes (ascii "dict"))

/-- The images of the values of an array. -/
def bytesItems : List Element → List UInt8
  | [] => []
  | e :: es => bytes e ++ bytesItems es

/-- The images of the keys and values of a dictionary. -/
def bytesEntries : List (KeyElement × Element) → List UInt8
  | [] => []
  | (k, e) :: es => k.bytes ++ bytes e ++ bytesEntries es
end

mutual
/-- Tags have the names that the elements require, and the layout is one they allow. -/
def Valid : Element → Prop
  | .boolean lead tag b =>
    Blank lead ∧ tag.Valid ∧ tag.Named (if b then ascii "true" else ascii "false")
  | .text kind lead tag raw trail =>
    Blank lead ∧ tag.Valid ∧ tag.Named kind.name ∧ byte '<' ∉ raw ∧ Blank trail
  | .array lead tag items close =>
    Blank lead ∧ tag.Valid ∧ tag.Named (ascii "array") ∧ ValidItems items ∧ close.Valid
  | .dict lead tag entries close =>
    Blank lead ∧ tag.Valid ∧ tag.Named (ascii "dict") ∧ ValidEntries entries ∧ close.Valid

/-- The values of an array are valid. -/
def ValidItems : List Element → Prop
  | [] => True
  | e :: es => Valid e ∧ ValidItems es

/-- The keys and values of a dictionary are valid. -/
def ValidEntries : List (KeyElement × Element) → Prop
  | [] => True
  | (k, e) :: es => k.Valid ∧ Valid e ∧ ValidEntries es
end

variable {δ : Type} (strtod : CString → δ)

mutual
/-- The object that an element stands for. -/
def value : Element → CFObject δ
  | .boolean _ _ b => .boolean b
  | .text kind _ _ raw _ => kind.value strtod (unescape raw)
  | .array _ _ items _ => .array (valueItems items)
  | .dict _ _ entries _ =>
    .dictionary ((valueEntries entries).foldl (fun d e => cfDictionarySetValue d e.1 e.2) [])

/-- The objects that the values of an array stand for. -/
def valueItems : List Element → List (CFObject δ)
  | [] => []
  | e :: es => value e :: valueItems es

/-- The keys and objects that the entries of a dictionary stand for, in document order. -/
def valueEntries : List (KeyElement × Element) → Entries δ
  | [] => []
  | (k, e) :: es => (unescape k.raw, value e) :: valueEntries es
end

/-- The values of an array are valid one by one. -/
lemma validItems_iff (es : List Element) : ValidItems es ↔ ∀ e ∈ es, Valid e := by
  induction es with
  | nil => simp [ValidItems]
  | cons e es ih => simp [ValidItems, ih]

/-- The entries of a dictionary are valid one by one. -/
lemma validEntries_iff (es : List (KeyElement × Element)) :
    ValidEntries es ↔ ∀ e ∈ es, e.1.Valid ∧ Valid e.2 := by
  induction es with
  | nil => simp [ValidEntries]
  | cons e es ih =>
    obtain ⟨k, e⟩ := e
    simp [ValidEntries, ih, and_assoc]

end Element

/-! ## Documents -/

/-- A directive of the prolog: `<?...>` or `<!...>`, up to the first `>`. -/
structure Directive where
  lead : List UInt8
  mark : UInt8
  body : List UInt8

namespace Directive

/-- The image of a directive. -/
def bytes (p : Directive) : List UInt8 :=
  p.lead ++ byte '<' :: p.mark :: p.body ++ [byte '>']

/-- The directive is one that `skipDirective` skips. -/
structure Valid (p : Directive) : Prop where
  lead : Blank p.lead
  mark : p.mark = byte '?' ∨ p.mark = byte '!'
  body : byte '>' ∉ p.body

end Directive

/-- A document: the prolog, the `<plist>` element with its one value, and whatever follows. -/
structure Document where
  prolog : List Directive
  lead : List UInt8
  tag : OpenTag
  root : Element
  close : CloseTag
  tail : List UInt8

namespace Document

/-- The image of a document. -/
def bytes (d : Document) : List UInt8 :=
  d.prolog.flatMap Directive.bytes ++ (d.lead ++ d.tag.bytes ++ (d.root.bytes ++
    (d.close.bytes (ascii "plist") ++ d.tail)))

/-- The document is one that the reader accepts. -/
structure Valid (d : Document) : Prop where
  prolog : ∀ p ∈ d.prolog, p.Valid
  lead : Blank d.lead
  tag : d.tag.Valid
  named : d.tag.Named (ascii "plist")
  root : d.root.Valid
  close : d.close.Valid

end Document

end Asteros.CoreFoundation
