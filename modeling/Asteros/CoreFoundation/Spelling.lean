import Asteros.CoreFoundation.Element
import Asteros.CoreFoundation.PropertyListWriter
import Asteros.Libc.FormatReading

set_option autoImplicit false

/-!
# How the writers spell a property list

The two property list writers lay elements out in the same way, one tab for each level and one
line for each tag, and differ in how they escape strings and encode data. A spelling is that
choice together with what makes it readable; the element it gives for a property list is valid
and stands for the property list, whatever the spelling.

## Main definitions

* `Spelling` — how strings and data are written.
* `Spelling.element` — the element for an object at a given depth.
* `Spelling.text` — the lines that are written for an object.

## Main results

* `Spelling.text_eq` — the lines are the image of the element.
* `Spelling.valid_element` — the element is valid.
* `Spelling.value_element` — the element stands for the object.
-/

namespace Asteros.CoreFoundation

open Asteros.Libc

variable {δ : Type}

/-- A text that both readers take as it stands between tags. -/
structure PlainText (raw text : List UInt8) : Prop where
  noTag : byte '<' ∉ raw
  noNul : 0 ∉ raw
  unescape : unescape raw = text

/-- How strings and data are written. -/
structure Spelling where
  /-- The escaped form of a string. -/
  escape : List UInt8 → List UInt8
  /-- The text that data is encoded as, at the given depth. -/
  encode : ℕ → List UInt8 → List UInt8
  /-- An escaped string is read back as the string. -/
  escape_plain : ∀ s, 0 ∉ s → PlainText (escape s) s
  /-- Encoded data is read as it stands. -/
  encode_plain : ∀ depth d, PlainText (encode depth d) (encode depth d)
  /-- Encoded data is decoded to the data. -/
  encode_decode : ∀ depth d, b64Decode (encode depth d) = d

/-! ## Escaping -/

/-- A character that starts no entity is taken as it stands. -/
lemma unescape_cons {b : UInt8} (h : b ≠ byte '&') (raw : List UInt8) :
    unescape (b :: raw) = b :: unescape raw := by
  rw [unescape, unescapeFrom, entityOf_eq_none h]
  rfl

/-- A text without ampersands is taken as it stands. -/
lemma unescape_of_notMem {raw : List UInt8} (h : byte '&' ∉ raw) : unescape raw = raw := by
  induction raw with
  | nil => rfl
  | cons b raw ih =>
    rw [List.mem_cons, not_or] at h
    rw [unescape_cons (Ne.symm h.1), ih h.2]

/-- The five entities are replaced by the characters they stand for. -/
lemma unescape_entity {name : List UInt8} {b : UInt8}
    (h : (name, b) ∈ [(ascii "&amp;", byte '&'), (ascii "&lt;", byte '<'),
      (ascii "&gt;", byte '>'), (ascii "&quot;", byte '"'), (ascii "&apos;", byte '\'')])
    (raw : List UInt8) : unescape (name ++ raw) = b :: unescape raw := by
  simp only [List.mem_cons, Prod.mk.injEq, List.not_mem_nil, or_false] at h
  rcases h with ⟨rfl, rfl⟩ | ⟨rfl, rfl⟩ | ⟨rfl, rfl⟩ | ⟨rfl, rfl⟩ | ⟨rfl, rfl⟩
  all_goals simp [ascii, byte, unescape, unescapeFrom, entityOf, List.isPrefixOf]

/-- An escaping of each character on its own that is read back as the character. -/
structure EscapesByte (esc : UInt8 → List UInt8) : Prop where
  noTag : ∀ b, byte '<' ∉ esc b
  noNul : ∀ b, b ≠ 0 → 0 ∉ esc b
  unescape : ∀ b raw, unescape (esc b ++ raw) = b :: Asteros.CoreFoundation.unescape raw

/-- Such an escaping spells strings. -/
lemma EscapesByte.plainText {esc : UInt8 → List UInt8} (h : EscapesByte esc) {s : List UInt8}
    (hs : 0 ∉ s) : PlainText (s.flatMap esc) s := by
  induction s with
  | nil => exact ⟨by simp, by simp, rfl⟩
  | cons b s ih =>
    rw [List.mem_cons, not_or] at hs
    obtain ⟨htag, hnul, hun⟩ := ih hs.2
    rw [List.flatMap_cons]
    refine ⟨?_, ?_, ?_⟩
    · simpa using ⟨h.noTag b, by simpa using htag⟩
    · simpa using ⟨h.noNul b (Ne.symm hs.1), by simpa using hnul⟩
    · rw [h.unescape, hun]

/-! ## The layout -/

namespace Spelling

variable (sp : Spelling)

/-- The line break and the indentation before a tag. -/
def lineLead (depth : ℕ) : List UInt8 := ascii "\n" ++ appendIndent depth

mutual
/-- The element for an object, with the given whitespace before it. The objects that have no
property list form get an element that stands for nothing. -/
def element (lead : List UInt8) (depth : ℕ) : CFObject δ → Element
  | .boolean b => .boolean lead ⟨if b then ascii "true" else ascii "false", ascii "/"⟩ b
  | .string s => .text .string lead (.bare (ascii "string")) (sp.escape s) []
  | .integer v => .text .integer lead (.bare (ascii "integer")) (decimal v) []
  | .data d => .text .data lead (.bare (ascii "data")) (sp.encode depth d) []
  | .array a => .array lead (.bare (ascii "array")) (elements (depth + 1) a) ⟨lineLead depth, []⟩
  | .dictionary d =>
    .dict lead (.bare (ascii "dict")) (elementEntries (depth + 1) d) ⟨lineLead depth, []⟩
  | .null => .dict lead (.bare []) [] ⟨[], []⟩
  | .real _ => .dict lead (.bare []) [] ⟨[], []⟩
  | .date _ => .dict lead (.bare []) [] ⟨[], []⟩

/-- The elements for the values of an array. -/
def elements (depth : ℕ) : List (CFObject δ) → List Element
  | [] => []
  | x :: xs => element (lineLead depth) depth x :: elements depth xs

/-- The elements for the keys and values of a dictionary. -/
def elementEntries (depth : ℕ) : Entries δ → List (KeyElement × Element)
  | [] => []
  | (k, v) :: es =>
    (⟨lineLead depth, .bare (ascii "key"), sp.escape k, []⟩, element (lineLead depth) depth v) ::
      elementEntries depth es
end

mutual
/-- The lines that are written for an object at the given depth. The objects that have no property
list form have none. -/
def text (depth : ℕ) : CFObject δ → List UInt8
  | .boolean b => appendIndent depth ++ ascii (if b then "<true/>\n" else "<false/>\n")
  | .string s => appendIndent depth ++ ascii "<string>" ++ sp.escape s ++ ascii "</string>\n"
  | .integer v => appendIndent depth ++ ascii "<integer>" ++ decimal v ++ ascii "</integer>\n"
  | .data d => appendIndent depth ++ ascii "<data>" ++ sp.encode depth d ++ ascii "</data>\n"
  | .array a => appendIndent depth ++ ascii "<array>\n" ++ textValues (depth + 1) a ++
      appendIndent depth ++ ascii "</array>\n"
  | .dictionary d => appendIndent depth ++ ascii "<dict>\n" ++ textEntries (depth + 1) d ++
      appendIndent depth ++ ascii "</dict>\n"
  | .null => []
  | .real _ => []
  | .date _ => []

/-- The lines for the values of an array. -/
def textValues (depth : ℕ) : List (CFObject δ) → List UInt8
  | [] => []
  | x :: xs => text depth x ++ textValues depth xs

/-- The lines for the keys and values of a dictionary. -/
def textEntries (depth : ℕ) : Entries δ → List UInt8
  | [] => []
  | (k, v) :: es => appendIndent depth ++ ascii "<key>" ++ sp.escape k ++ ascii "</key>\n" ++
      text depth v ++ textEntries depth es
end

/-- Indentation is whitespace. -/
lemma blank_appendIndent (depth : ℕ) : Blank (appendIndent depth) := fun b hb => by
  rw [List.eq_of_mem_replicate hb]
  rfl

/-- A line break with indentation is whitespace. -/
lemma blank_lineLead (depth : ℕ) : Blank (lineLead depth) := fun b hb => by
  rcases List.mem_append.mp hb with hb | hb
  · rw [List.mem_singleton.mp (show b ∈ [byte '\n'] from hb)]
    rfl
  · exact blank_appendIndent depth b hb

/-- Nothing is whitespace. -/
lemma blank_nil : Blank [] := fun _ hb => absurd hb List.not_mem_nil

/-- A tag of name characters is valid when its attributes start with another character and
contain no `>`. -/
lemma valid_openTag {name rest : List UInt8} (hname : name.all isNameChar = true)
    (hrest : byte '>' ∉ rest) (hhead : rest.head?.all (fun b => !isNameChar b) = true) :
    (OpenTag.mk name rest).Valid := by
  refine ⟨List.all_eq_true.mp hname, hrest, fun b hb => ?_⟩
  rw [show rest.head? = some b from hb] at hhead
  simpa using hhead

/-- A bare tag of name characters is valid. -/
lemma valid_bare {name : List UInt8} (h : name.all isNameChar = true) :
    (OpenTag.bare name).Valid :=
  valid_openTag h List.not_mem_nil rfl

/-- A bare tag has its name. -/
lemma named_bare {name : List UInt8} (h : 0 ∉ name) : (OpenTag.bare name).Named name :=
  CString.bytes_ofBytes_of_nulFree h

/-- A decimal text is read as it stands. -/
lemma decimal_plain (v : BitVec 64) : PlainText (decimal v) (decimal v) := by
  have hnot : ∀ b, b ≠ byte '-' → isdigit b = false → b ∉ decimal v := by
    intro b hb hd hmem
    rcases mem_decimal hmem with h | h
    · exact hb h
    · rw [hd] at h
      cases h
  exact ⟨hnot _ (by decide) (by decide), hnot _ (by decide) (by decide),
    unescape_of_notMem (hnot _ (by decide) (by decide))⟩

/-- Induction over a property list: the objects that are none do not occur. -/
lemma plistInduction {P : CFObject δ → Prop} (boolean : ∀ b, P (.boolean b))
    (integer : ∀ v, P (.integer v)) (string : ∀ s, 0 ∉ s → P (.string s))
    (data : ∀ d, P (.data d)) (array : ∀ xs, (∀ x ∈ xs, P x) → P (.array xs))
    (dictionary : ∀ es, (keys es).Nodup → (∀ k ∈ keys es, 0 ∉ k) → (∀ e ∈ es, P e.2) →
      P (.dictionary es)) {o : CFObject δ} (ho : o.IsPlist) : P o := by
  exact CFObject.everywhere_induction (A := CFObject.PlistAt) False.elim (fun b _ => boolean b)
    (fun v _ => integer v) (fun _ => False.elim) string (fun d _ => data d) (fun _ => False.elim)
    (fun xs _ => array xs) (fun es h => dictionary es h.1 h.2) ho

/-- **The element for a property list is valid.** -/
theorem valid_element {o : CFObject δ} (ho : o.IsPlist) {lead : List UInt8} (hlead : Blank lead)
    (depth : ℕ) : (sp.element lead depth o).Valid := by
  refine plistInduction (P := fun o => ∀ {lead : List UInt8}, Blank lead → ∀ depth,
    (sp.element lead depth o).Valid) ?boolean ?integer ?string ?data ?array ?dictionary ho hlead
    depth
  case boolean =>
    intro b lead hlead depth
    cases b with
    | true =>
      exact ⟨hlead, valid_openTag (by decide) (by decide) (by decide),
        @CString.bytes_ofBytes_of_nulFree (ascii "true") (by decide)⟩
    | false =>
      exact ⟨hlead, valid_openTag (by decide) (by decide) (by decide),
        @CString.bytes_ofBytes_of_nulFree (ascii "false") (by decide)⟩
  case integer =>
    intro v lead hlead depth
    exact ⟨hlead, valid_bare (by decide), named_bare (by decide), (decimal_plain v).noTag,
      blank_nil⟩
  case string =>
    intro s hs lead hlead depth
    exact ⟨hlead, valid_bare (by decide), named_bare (by decide), (sp.escape_plain s hs).noTag,
      blank_nil⟩
  case data =>
    intro d lead hlead depth
    exact ⟨hlead, valid_bare (by decide), named_bare (by decide),
      (sp.encode_plain depth d).noTag, blank_nil⟩
  case array =>
    intro xs ih lead hlead depth
    have hitems : ∀ depth, Element.ValidItems (sp.elements depth xs) := by
      intro depth
      induction xs with
      | nil => trivial
      | cons x xs ih' =>
        exact ⟨ih x List.mem_cons_self (blank_lineLead depth) depth,
          ih' fun y hy => ih y (List.mem_cons_of_mem _ hy)⟩
    exact ⟨hlead, valid_bare (by decide), named_bare (by decide), hitems _,
      blank_lineLead depth, blank_nil⟩
  case dictionary =>
    intro es hnodup hnul ih lead hlead depth
    have hentries : ∀ depth, Element.ValidEntries (sp.elementEntries depth es) := by
      intro depth
      clear hnodup
      induction es with
      | nil => trivial
      | cons e es ih' =>
        obtain ⟨k, v⟩ := e
        have hk : 0 ∉ k := hnul k List.mem_cons_self
        exact ⟨⟨blank_lineLead depth, valid_bare (by decide), named_bare (by decide),
            (sp.escape_plain k hk).noTag, blank_nil⟩,
          ih (k, v) List.mem_cons_self (blank_lineLead depth) depth,
          ih' (fun l hl => hnul l (List.mem_cons_of_mem _ hl))
            fun f hf => ih f (List.mem_cons_of_mem _ hf)⟩
    exact ⟨hlead, valid_bare (by decide), named_bare (by decide), hentries _,
      blank_lineLead depth, blank_nil⟩

/-- **The element for a property list stands for it**, whatever the spelling.

**Proof sketch.** Induction over the property list: a string is unescaped, an integer is parsed
(`strtol_decimal`), data is decoded, and the entries of a dictionary are stored in order into an
empty one, which their distinct keys leave as they are (`foldl_setValue`). -/
theorem value_element (strtod : CString → δ) {o : CFObject δ} (ho : o.IsPlist)
    (lead : List UInt8) (depth : ℕ) : (sp.element lead depth o).value strtod = o := by
  refine plistInduction (P := fun o => ∀ lead depth, (sp.element lead depth o).value strtod = o)
    ?boolean ?integer ?string ?data ?array ?dictionary ho lead depth
  case boolean => exact fun b lead depth => rfl
  case integer =>
    intro v lead depth
    have hplain := decimal_plain v
    have hint : (strtol (CString.ofBytes (decimal v)) 10).1 = v :=
      strtol_decimal (CString.bytes_ofBytes_of_nulFree hplain.noNul)
    rw [element, Element.value, hplain.unescape, TextKind.value, hint]
  case string =>
    intro s hs lead depth
    rw [element, Element.value, (sp.escape_plain s hs).unescape]
    rfl
  case data =>
    intro d lead depth
    rw [element, Element.value, (sp.encode_plain depth d).unescape, TextKind.value,
      sp.encode_decode]
  case array =>
    intro xs ih lead depth
    have hitems : ∀ depth, Element.valueItems strtod (sp.elements depth xs) = xs := by
      intro depth
      induction xs with
      | nil => rfl
      | cons x xs ih' =>
        rw [elements, Element.valueItems, ih x List.mem_cons_self,
          ih' fun y hy => ih y (List.mem_cons_of_mem _ hy)]
    rw [element, Element.value, hitems]
  case dictionary =>
    intro es hnodup hnul ih lead depth
    have hentries : ∀ depth, Element.valueEntries strtod (sp.elementEntries depth es) = es := by
      intro depth
      clear hnodup
      induction es with
      | nil => rfl
      | cons e es ih' =>
        obtain ⟨k, v⟩ := e
        have hk : 0 ∉ k := hnul k List.mem_cons_self
        rw [elementEntries, Element.valueEntries, (sp.escape_plain k hk).unescape,
          ih (k, v) List.mem_cons_self, ih' (fun l hl => hnul l (List.mem_cons_of_mem _ hl))
            fun f hf => ih f (List.mem_cons_of_mem _ hf)]
    rw [element, Element.value, hentries, foldl_setValue (by simpa using hnodup),
      List.nil_append]

/-! ## The lines -/

/-- The whitespace in front of an element is a prefix of its image. -/
lemma bytes_element_lead (lead : List UInt8) (depth : ℕ) (o : CFObject δ) :
    (sp.element lead depth o).bytes = lead ++ (sp.element [] depth o).bytes := by
  cases o <;> simp [element, Element.bytes]

/-- The image of an element in a new line. -/
lemma bytes_element_lineLead (depth : ℕ) (o : CFObject δ) :
    (sp.element (lineLead depth) depth o).bytes =
      ascii "\n" ++ (sp.element (appendIndent depth) depth o).bytes := by
  rw [bytes_element_lead, bytes_element_lead sp (appendIndent depth), lineLead, List.append_assoc]

/-- The tags of a container around its lines. -/
private lemma container_eq {name body items : List UInt8} (depth : ℕ)
    (h : ascii "\n" ++ body = items ++ ascii "\n") :
    appendIndent depth ++ (ascii "<" ++ name ++ ascii ">\n") ++ body ++ appendIndent depth ++
        (ascii "</" ++ name ++ ascii ">\n") =
      appendIndent depth ++ (OpenTag.bare name).bytes ++
        (items ++ (CloseTag.mk (lineLead depth) []).bytes name) ++ ascii "\n" := by
  have hopen : ascii "<" ++ name ++ ascii ">\n" = (OpenTag.bare name).bytes ++ ascii "\n" := by
    simp [OpenTag.bare, OpenTag.bytes, ascii, byte]
  have hclose : ascii "\n" ++ (appendIndent depth ++ (ascii "</" ++ name ++ ascii ">\n")) =
      (CloseTag.mk (lineLead depth) []).bytes name ++ ascii "\n" := by
    simp [CloseTag.bytes, lineLead, ascii, byte]
  calc _ = appendIndent depth ++ (OpenTag.bare name).bytes ++ ((ascii "\n" ++ body) ++
          (appendIndent depth ++ (ascii "</" ++ name ++ ascii ">\n"))) := by
        rw [hopen]
        simp only [List.append_assoc]
    _ = appendIndent depth ++ (OpenTag.bare name).bytes ++ (items ++ (ascii "\n" ++
          (appendIndent depth ++ (ascii "</" ++ name ++ ascii ">\n")))) := by
        rw [h, List.append_assoc items]
    _ = _ := by
        rw [hclose]
        simp only [List.append_assoc]

/-- The lines of the values of an array. -/
private lemma textValues_eq {xs : List (CFObject δ)}
    (h : ∀ x ∈ xs, ∀ depth, sp.text depth x =
      (sp.element (appendIndent depth) depth x).bytes ++ ascii "\n") (depth : ℕ) :
    ascii "\n" ++ sp.textValues depth xs =
      Element.bytesItems (sp.elements depth xs) ++ ascii "\n" := by
  induction xs with
  | nil => rfl
  | cons x xs ih =>
    rw [textValues, elements, Element.bytesItems, h x List.mem_cons_self, bytes_element_lineLead,
      List.append_assoc, List.append_assoc, List.append_assoc,
      ih fun y hy => h y (List.mem_cons_of_mem _ hy)]

/-- The lines of the keys and values of a dictionary. -/
private lemma textEntries_eq {es : Entries δ}
    (h : ∀ e ∈ es, ∀ depth, sp.text depth e.2 =
      (sp.element (appendIndent depth) depth e.2).bytes ++ ascii "\n") (depth : ℕ) :
    ascii "\n" ++ sp.textEntries depth es =
      Element.bytesEntries (sp.elementEntries depth es) ++ ascii "\n" := by
  induction es with
  | nil => rfl
  | cons e es ih =>
    obtain ⟨k, v⟩ := e
    have hkey : ascii "\n" ++ (appendIndent depth ++ ascii "<key>" ++ sp.escape k ++
        ascii "</key>\n") = (⟨lineLead depth, .bare (ascii "key"), sp.escape k, []⟩ :
          KeyElement).bytes ++ ascii "\n" := by
      simp [KeyElement.bytes, lineLead, OpenTag.bare, OpenTag.bytes, CloseTag.ofText,
        CloseTag.bytes, ascii, byte]
    rw [textEntries, elementEntries, Element.bytesEntries, h (k, v) List.mem_cons_self,
      bytes_element_lineLead]
    calc ascii "\n" ++ (appendIndent depth ++ ascii "<key>" ++ sp.escape k ++ ascii "</key>\n" ++
          ((sp.element (appendIndent depth) depth v).bytes ++ ascii "\n") ++
            sp.textEntries depth es)
        = (ascii "\n" ++ (appendIndent depth ++ ascii "<key>" ++ sp.escape k ++
            ascii "</key>\n")) ++ (sp.element (appendIndent depth) depth v).bytes ++
              (ascii "\n" ++ sp.textEntries depth es) := by simp only [List.append_assoc]
      _ = _ := by
        rw [hkey, ih fun f hf => h f (List.mem_cons_of_mem _ hf)]
        simp only [List.append_assoc]

/-- **The lines that are written for a property list are the image of its element**, with the
line break after it.

**Proof sketch.** Induction over the property list. The line break that ends each value or key is
the one in front of the next tag. -/
theorem text_eq {o : CFObject δ} (ho : o.IsPlist) (depth : ℕ) :
    sp.text depth o = (sp.element (appendIndent depth) depth o).bytes ++ ascii "\n" := by
  refine plistInduction (P := fun o => ∀ depth, sp.text depth o =
    (sp.element (appendIndent depth) depth o).bytes ++ ascii "\n")
    ?boolean ?integer ?string ?data ?array ?dictionary ho depth
  case boolean =>
    intro b depth
    cases b <;> simp [text, element, Element.bytes, OpenTag.bytes, ascii, byte]
  case integer =>
    intro v depth
    simp [text, element, Element.bytes, OpenTag.bare, OpenTag.bytes, CloseTag.ofText,
      CloseTag.bytes, TextKind.name, ascii, byte]
  case string =>
    intro s _ depth
    simp [text, element, Element.bytes, OpenTag.bare, OpenTag.bytes, CloseTag.ofText,
      CloseTag.bytes, TextKind.name, ascii, byte]
  case data =>
    intro d depth
    simp [text, element, Element.bytes, OpenTag.bare, OpenTag.bytes, CloseTag.ofText,
      CloseTag.bytes, TextKind.name, ascii, byte]
  case array =>
    intro xs ih depth
    rw [text, show ascii "<array>\n" = ascii "<" ++ ascii "array" ++ ascii ">\n" from rfl,
      show ascii "</array>\n" = ascii "</" ++ ascii "array" ++ ascii ">\n" from rfl,
      container_eq depth (textValues_eq sp ih (depth + 1))]
    rfl
  case dictionary =>
    intro es _ _ ih depth
    rw [text, show ascii "<dict>\n" = ascii "<" ++ ascii "dict" ++ ascii ">\n" from rfl,
      show ascii "</dict>\n" = ascii "</" ++ ascii "dict" ++ ascii ">\n" from rfl,
      container_eq depth (textEntries_eq sp ih (depth + 1))]
    rfl

end Spelling

end Asteros.CoreFoundation
