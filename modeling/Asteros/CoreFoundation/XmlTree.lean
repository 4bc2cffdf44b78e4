import Asteros.CoreFoundation.TagScan

set_option autoImplicit false

/-!
# Property lists as XML documents

The document that XML sees, which is more than the reader takes: elements may be empty and
self-closing, comments, CDATA sections and processing instructions may stand between and inside
them, and a value may be an element that the reader does not support. After the first `<!` or
`<?` between two tags the bytes up to the next tag are left open, so every well-formed document
is among these trees.

A tree is plain if it has nothing of this but self-closing Booleans. The bytes of a tree are
followed tag by tag: either a tag that the reader does not know comes up, or all tags are known,
and then they are in balance only in a plain tree (`Node.tracks`).

## Main definitions

* `Stretch`, `startTag` — what lies between tags, and a start tag.
* `Node` — elements; `Node.bytes`, `Node.WellFormed`, `Node.Plain`.
* `Node.Shortens` — one empty element becomes self-closing.
* `Breaks`, `Tracks` — what the tags of a piece of a document tell.

## Main results

* `Node.exists_element` — a plain tree is the image of an element.
* `Node.tracks` — a tree without unknown tags and in balance is plain.
-/

namespace Asteros.CoreFoundation

open Asteros.Libc

/-! ## Trees -/

/-- What lies between two tags: text, and possibly a comment, CDATA section or processing
instruction with all that follows it up to the next tag of the tree. -/
structure Stretch where
  text : List UInt8
  markup : Option (UInt8 × List UInt8)

namespace Stretch

/-- The bytes of a stretch. -/
def bytes (s : Stretch) : List UInt8 :=
  s.text ++ match s.markup with
    | none => []
    | some (mark, body) => byte '<' :: mark :: body

/-- Markup that is not a tag starts with `<!` or `<?`. -/
def IsMarkup (s : Stretch) : Prop := ∀ m ∈ s.markup, m.1 = byte '!' ∨ m.1 = byte '?'

/-- A stretch inside an element with text. -/
def IsContent (s : Stretch) : Prop := byte '<' ∉ s.text ∧ s.IsMarkup

/-- A stretch between elements. -/
def IsGap (s : Stretch) : Prop := Blank s.text ∧ s.IsMarkup

/-- A gap is a content. -/
lemma IsGap.isContent {s : Stretch} (h : s.IsGap) : s.IsContent :=
  ⟨fun hmem => absurd (h.1 _ hmem) (by decide), h.2⟩

/-- Nothing. -/
def empty : Stretch := ⟨[], none⟩

end Stretch

/-- The attributes of a tag, with the whitespace before and after them. -/
structure IsAttrs (attrs : List UInt8) : Prop where
  lt : byte '<' ∉ attrs
  gt : byte '>' ∉ attrs
  delimited : ∀ b ∈ attrs.head?, isWs b = true
  slash : attrs.getLast? ≠ some (byte '/')

/-- The reader takes a carriage return after a tag's name as part of the name. -/
def PlainAttrs (attrs : List UInt8) : Prop := attrs.head? ≠ some (byte '\r')

/-- A start tag. -/
def startTag (name attrs : List UInt8) (selfClosing : Bool) : List UInt8 :=
  byte '<' :: (name ++ (attrs ++ if selfClosing then [byte '/'] else [])) ++ [byte '>']

/-- The elements with text or children that are values. -/
def valueNames : List (List UInt8) :=
  [ascii "dict", ascii "array", ascii "string", ascii "integer", ascii "real", ascii "data"]

/-- The names of the elements that the reader supports. -/
def tagNames : List (List UInt8) := closableNames ++ [ascii "true", ascii "false"]

/-- A key of a dictionary: its text and the whitespace in its end tag, or a self-closing tag. -/
structure KeyNode where
  gap : Stretch
  attrs : List UInt8
  body : Option (Stretch × List UInt8)

namespace KeyNode

/-- The bytes of a key. -/
def bytes (k : KeyNode) : List UInt8 :=
  k.gap.bytes ++ match k.body with
    | none => startTag (ascii "key") k.attrs true
    | some (content, trail) => startTag (ascii "key") k.attrs false ++
        (content.bytes ++ (CloseTag.ofText trail).bytes (ascii "key"))

/-- The parts of a key are what they have to be. -/
structure WellFormed (k : KeyNode) : Prop where
  gap : k.gap.IsGap
  attrs : IsAttrs k.attrs
  body : ∀ b ∈ k.body, b.1.IsContent ∧ Blank b.2

/-- The key is one the reader takes. -/
def Plain (k : KeyNode) : Prop :=
  k.gap.markup = none ∧ PlainAttrs k.attrs ∧ ∃ content trail, k.body = some (content, trail) ∧
    content.markup = none

end KeyNode

/-- An element that is a value, with what lies between the previous tag and it. -/
inductive Node where
  | boolean (gap : Stretch) (attrs : List UInt8) (b : Bool) (close : Option (List UInt8))
  | empty (gap : Stretch) (name attrs : List UInt8)
  | text (kind : TextKind) (gap : Stretch) (attrs : List UInt8) (content : Stretch)
      (trail : List UInt8)
  | array (gap : Stretch) (attrs : List UInt8) (items : List Node) (inner : Stretch)
      (trail : List UInt8)
  | dict (gap : Stretch) (attrs : List UInt8) (entries : List (KeyNode × Node)) (inner : Stretch)
      (trail : List UInt8)
  | other (gap : Stretch) (name body : List UInt8)

namespace Node

/-- Induction over a tree. -/
lemma induct {P : Node → Prop} (boolean : ∀ gap attrs b close, P (.boolean gap attrs b close))
    (empty : ∀ gap name attrs, P (.empty gap name attrs))
    (text : ∀ kind gap attrs content trail, P (.text kind gap attrs content trail))
    (array : ∀ gap attrs items inner trail, (∀ n ∈ items, P n) →
      P (.array gap attrs items inner trail))
    (dict : ∀ gap attrs entries inner trail, (∀ e ∈ entries, P e.2) →
      P (.dict gap attrs entries inner trail))
    (other : ∀ gap name body, P (.other gap name body)) (n : Node) : P n := by
  refine @Node.rec P (fun items => ∀ n ∈ items, P n) (fun entries => ∀ e ∈ entries, P e.2)
    (fun e => P e.2) boolean empty text array dict other ?_ ?_ ?_ ?_ ?_ n
  · simp
  · intro x xs hx hxs y hy
    rcases List.mem_cons.mp hy with rfl | hy
    · exact hx
    · exact hxs y hy
  · simp
  · intro e es he hes f hf
    rcases List.mem_cons.mp hf with rfl | hf
    · exact he
    · exact hes f hf
  · exact fun _ _ h => h

/-- The name of a Boolean. -/
def booleanName (b : Bool) : List UInt8 := if b then ascii "true" else ascii "false"

mutual
/-- The bytes of a tree. -/
def bytes : Node → List UInt8
  | .boolean gap attrs b none => gap.bytes ++ startTag (booleanName b) attrs true
  | .boolean gap attrs b (some trail) => gap.bytes ++ (startTag (booleanName b) attrs false ++
      (CloseTag.ofText trail).bytes (booleanName b))
  | .empty gap name attrs => gap.bytes ++ startTag name attrs true
  | .text kind gap attrs content trail => gap.bytes ++ (startTag kind.name attrs false ++
      (content.bytes ++ (CloseTag.ofText trail).bytes kind.name))
  | .array gap attrs items inner trail => gap.bytes ++ (startTag (ascii "array") attrs false ++
      (bytesItems items ++ inner.bytes ++ (CloseTag.ofText trail).bytes (ascii "array")))
  | .dict gap attrs entries inner trail => gap.bytes ++ (startTag (ascii "dict") attrs false ++
      (bytesEntries entries ++ inner.bytes ++ (CloseTag.ofText trail).bytes (ascii "dict")))
  | .other gap name body => gap.bytes ++ byte '<' :: (name ++ body)

/-- The bytes of the values of an array. -/
def bytesItems : List Node → List UInt8
  | [] => []
  | n :: ns => bytes n ++ bytesItems ns

/-- The bytes of the keys and values of a dictionary. -/
def bytesEntries : List (KeyNode × Node) → List UInt8
  | [] => []
  | (k, n) :: es => k.bytes ++ bytes n ++ bytesEntries es
end

mutual
/-- The parts of a tree are what they have to be. -/
def WellFormed : Node → Prop
  | .boolean gap attrs _ close => gap.IsGap ∧ IsAttrs attrs ∧ ∀ trail ∈ close, Blank trail
  | .empty gap name attrs => gap.IsGap ∧ name ∈ valueNames ∧ IsAttrs attrs
  | .text _ gap attrs content trail =>
    gap.IsGap ∧ IsAttrs attrs ∧ content.IsContent ∧ Blank trail
  | .array gap attrs items inner trail =>
    gap.IsGap ∧ IsAttrs attrs ∧ WellFormedItems items ∧ inner.IsGap ∧ Blank trail
  | .dict gap attrs entries inner trail =>
    gap.IsGap ∧ IsAttrs attrs ∧ WellFormedEntries entries ∧ inner.IsGap ∧ Blank trail
  | .other gap name body => gap.IsGap ∧ name ≠ [] ∧ name ∉ tagNames ∧
      (∀ b ∈ name, isNameChar b = true ∧ b ≠ byte '\r' ∧ b ≠ 0) ∧
      ∃ b ∈ body.head?, b = byte '>' ∨ b = byte '/' ∨ isWs b = true

/-- The values of an array are well-formed. -/
def WellFormedItems : List Node → Prop
  | [] => True
  | n :: ns => WellFormed n ∧ WellFormedItems ns

/-- The keys and values of a dictionary are well-formed. -/
def WellFormedEntries : List (KeyNode × Node) → Prop
  | [] => True
  | (k, n) :: es => k.WellFormed ∧ WellFormed n ∧ WellFormedEntries es
end

mutual
/-- Nothing between tags but whitespace and text, no unsupported element, and self-closing tags
for Booleans only. -/
def Plain : Node → Prop
  | .boolean gap attrs _ close => gap.markup = none ∧ PlainAttrs attrs ∧ close = none
  | .empty _ _ _ => False
  | .text _ gap attrs content _ =>
    gap.markup = none ∧ PlainAttrs attrs ∧ content.markup = none
  | .array gap attrs items inner _ =>
    gap.markup = none ∧ PlainAttrs attrs ∧ PlainItems items ∧ inner.markup = none
  | .dict gap attrs entries inner _ =>
    gap.markup = none ∧ PlainAttrs attrs ∧ PlainEntries entries ∧ inner.markup = none
  | .other _ _ _ => False

/-- The values of an array are plain. -/
def PlainItems : List Node → Prop
  | [] => True
  | n :: ns => Plain n ∧ PlainItems ns

/-- The keys and values of a dictionary are plain. -/
def PlainEntries : List (KeyNode × Node) → Prop
  | [] => True
  | (k, n) :: es => k.Plain ∧ Plain n ∧ PlainEntries es
end

/-- One empty element, `<dict></dict>`, `<array></array>`, `<string></string>` or `<data></data>`,
is replaced by its self-closing form. -/
inductive Shortens : Node → Node → Prop
  | dict (gap : Stretch) :
    Shortens (.dict gap [] [] Stretch.empty []) (.empty gap (ascii "dict") [])
  | array (gap : Stretch) :
    Shortens (.array gap [] [] Stretch.empty []) (.empty gap (ascii "array") [])
  | string (gap : Stretch) :
    Shortens (.text .string gap [] Stretch.empty []) (.empty gap (ascii "string") [])
  | data (gap : Stretch) :
    Shortens (.text .data gap [] Stretch.empty []) (.empty gap (ascii "data") [])
  | item (gap : Stretch) (attrs : List UInt8) (before after : List Node) (inner : Stretch)
      (trail : List UInt8) {n n' : Node} (h : Shortens n n') :
    Shortens (.array gap attrs (before ++ n :: after) inner trail)
      (.array gap attrs (before ++ n' :: after) inner trail)
  | value (gap : Stretch) (attrs : List UInt8) (before after : List (KeyNode × Node))
      (k : KeyNode) (inner : Stretch) (trail : List UInt8) {n n' : Node} (h : Shortens n n') :
    Shortens (.dict gap attrs (before ++ (k, n) :: after) inner trail)
      (.dict gap attrs (before ++ (k, n') :: after) inner trail)

/-- The values of an array are well-formed one by one. -/
lemma wellFormedItems_iff (ns : List Node) : WellFormedItems ns ↔ ∀ n ∈ ns, WellFormed n := by
  induction ns with
  | nil => simp [WellFormedItems]
  | cons n ns ih => simp [WellFormedItems, ih]

/-- The entries of a dictionary are well-formed one by one. -/
lemma wellFormedEntries_iff (es : List (KeyNode × Node)) :
    WellFormedEntries es ↔ ∀ e ∈ es, e.1.WellFormed ∧ WellFormed e.2 := by
  induction es with
  | nil => simp [WellFormedEntries]
  | cons e es ih =>
    obtain ⟨k, n⟩ := e
    simp [WellFormedEntries, ih, and_assoc]

/-- The values of an array are plain one by one. -/
lemma plainItems_iff (ns : List Node) : PlainItems ns ↔ ∀ n ∈ ns, Plain n := by
  induction ns with
  | nil => simp [PlainItems]
  | cons n ns ih => simp [PlainItems, ih]

/-- The entries of a dictionary are plain one by one. -/
lemma plainEntries_iff (es : List (KeyNode × Node)) :
    PlainEntries es ↔ ∀ e ∈ es, e.1.Plain ∧ Plain e.2 := by
  induction es with
  | nil => simp [PlainEntries]
  | cons e es ih =>
    obtain ⟨k, n⟩ := e
    simp [PlainEntries, ih, and_assoc]

/-- A shortened tree is well-formed. -/
lemma Shortens.wellFormed {n n' : Node} (h : Shortens n n') (hn : n.WellFormed) :
    n'.WellFormed := by
  induction h with
  | dict gap => exact ⟨hn.1, by decide, hn.2.1⟩
  | array gap => exact ⟨hn.1, by decide, hn.2.1⟩
  | string gap => exact ⟨hn.1, by decide, hn.2.1⟩
  | data gap => exact ⟨hn.1, by decide, hn.2.1⟩
  | item gap attrs before after inner trail h ih =>
    obtain ⟨hgap, hattrs, hitems, hrest⟩ := hn
    refine ⟨hgap, hattrs, (wellFormedItems_iff _).mpr fun x hx => ?_, hrest⟩
    rw [wellFormedItems_iff] at hitems
    rcases List.mem_append.mp hx with hx | hx
    · exact hitems x (List.mem_append_left _ hx)
    · rcases List.mem_cons.mp hx with rfl | hx
      · exact ih (hitems _ (by simp))
      · exact hitems x (by simp [hx])
  | @value gap attrs before after k inner trail m m' h ih =>
    obtain ⟨hgap, hattrs, hentries, hrest⟩ := hn
    refine ⟨hgap, hattrs, (wellFormedEntries_iff _).mpr fun x hx => ?_, hrest⟩
    rw [wellFormedEntries_iff] at hentries
    rcases List.mem_append.mp hx with hx | hx
    · exact hentries x (List.mem_append_left _ hx)
    · rcases List.mem_cons.mp hx with rfl | hx
      · obtain ⟨hk, hm⟩ := hentries (k, m) (by simp)
        exact ⟨hk, ih hm⟩
      · exact hentries x (by simp [hx])

/-- A shortened tree is not plain. -/
lemma Shortens.not_plain {n n' : Node} (h : Shortens n n') : ¬n'.Plain := by
  induction h with
  | dict gap => exact id
  | array gap => exact id
  | string gap => exact id
  | data gap => exact id
  | item gap attrs before after inner trail h ih =>
    rintro ⟨-, -, hitems, -⟩
    exact ih ((plainItems_iff _).mp hitems _ (by simp))
  | value gap attrs before after k inner trail h ih =>
    rintro ⟨-, -, hentries, -⟩
    exact ih ((plainEntries_iff _).mp hentries (k, _) (by simp)).2

end Node

/-! ## Plain trees -/

/-- A stretch without markup is its text. -/
lemma Stretch.bytes_of_plain {s : Stretch} (h : s.markup = none) : s.bytes = s.text := by
  rw [Stretch.bytes, h, List.append_nil]

/-- The start tag of a supported element, with what the reader makes of it. -/
lemma exists_openTag_startTag {name attrs : List UInt8} (hname : name ∈ tagNames)
    (hattrs : IsAttrs attrs) (hplain : PlainAttrs attrs) (selfClosing : Bool) :
    ∃ t : OpenTag, t.Valid ∧ t.Named name ∧ t.bytes = startTag name attrs selfClosing := by
  have hchars : name.all isNameChar = true ∧ 0 ∉ name := by
    have hall : ∀ n ∈ tagNames, n.all isNameChar = true ∧ 0 ∉ n := by decide
    exact hall name hname
  refine ⟨⟨name, attrs ++ if selfClosing then [byte '/'] else []⟩, ⟨?_, ?_, ?_⟩,
    CString.bytes_ofBytes_of_nulFree hchars.2, rfl⟩
  · exact List.all_eq_true.mp hchars.1
  · have hslash : byte '>' ∉ if selfClosing then [byte '/'] else [] := by
      cases selfClosing <;> decide
    exact fun hmem => (List.mem_append.mp hmem).elim hattrs.gt hslash
  · cases hcase : attrs with
    | nil =>
      cases selfClosing
      · simp
      · simp [isNameChar]
    | cons b attrs =>
      intro b' hb'
      obtain rfl : b = b' := by simpa using hb'
      have hws : isWs b = true := hattrs.delimited b (by rw [hcase]; rfl)
      have hcr : b ≠ byte '\r' := fun h => hplain (by rw [hcase, h]; rfl)
      simp only [isWs, Bool.or_eq_true, beq_iff_eq] at hws
      rcases hws with ((rfl | rfl) | rfl) | rfl
      · rfl
      · rfl
      · rfl
      · exact absurd rfl hcr

/-- A plain key is the image of a key. -/
lemma KeyNode.exists_keyElement {k : KeyNode} (hk : k.WellFormed) (hp : k.Plain) :
    ∃ e : KeyElement, e.Valid ∧ e.bytes = k.bytes := by
  obtain ⟨hgap, hattrs, content, trail, hbody, hcontent⟩ := hp
  obtain ⟨t, ht, hn, hbytes⟩ :=
    exists_openTag_startTag (show ascii "key" ∈ tagNames by decide) hk.attrs hattrs false
  obtain ⟨hc, htrail⟩ := hk.body _ hbody
  refine ⟨⟨k.gap.text, t, content.text, trail⟩, ⟨hk.gap.1, ht, hn, hc.1, htrail⟩, ?_⟩
  rw [KeyElement.bytes, KeyNode.bytes, hbody, hbytes, Stretch.bytes_of_plain hgap]
  simp only [Stretch.bytes_of_plain hcontent, List.append_assoc]

namespace Node

/-- The values of a plain array are images of elements. -/
private lemma exists_items {ns : List Node}
    (h : ∀ n ∈ ns, ∃ e : Element, e.Valid ∧ e.bytes = n.bytes) :
    ∃ es : List Element, Element.ValidItems es ∧ Element.bytesItems es = bytesItems ns := by
  induction ns with
  | nil => exact ⟨[], trivial, rfl⟩
  | cons n ns ih =>
    obtain ⟨e, he, hbytes⟩ := h n List.mem_cons_self
    obtain ⟨es, hes, hbytes'⟩ := ih fun x hx => h x (List.mem_cons_of_mem _ hx)
    exact ⟨e :: es, ⟨he, hes⟩, by rw [Element.bytesItems, bytesItems, hbytes, hbytes']⟩

/-- The entries of a plain dictionary are images of entries. -/
private lemma exists_entries {ns : List (KeyNode × Node)}
    (h : ∀ n ∈ ns, (∃ k : KeyElement, k.Valid ∧ k.bytes = n.1.bytes) ∧
      ∃ e : Element, e.Valid ∧ e.bytes = n.2.bytes) :
    ∃ es : List (KeyElement × Element), Element.ValidEntries es ∧
      Element.bytesEntries es = bytesEntries ns := by
  induction ns with
  | nil => exact ⟨[], trivial, rfl⟩
  | cons n ns ih =>
    obtain ⟨⟨k, hk, hkey⟩, e, he, hbytes⟩ := h n List.mem_cons_self
    obtain ⟨es, hes, hbytes'⟩ := ih fun x hx => h x (List.mem_cons_of_mem _ hx)
    exact ⟨(k, e) :: es, ⟨hk, he, hes⟩,
      by rw [Element.bytesEntries, bytesEntries, hkey, hbytes, hbytes']⟩

/-- **A plain tree is the image of an element that the reader takes.** -/
lemma exists_element {n : Node} (hn : n.WellFormed) (hp : n.Plain) :
    ∃ e : Element, e.Valid ∧ e.bytes = n.bytes := by
  induction n using Node.induct with
  | boolean gap attrs b close =>
    obtain ⟨hgap, hattrs, -⟩ := hn
    obtain ⟨hmark, hplain, rfl⟩ := hp
    obtain ⟨t, ht, hnamed, hbytes⟩ := exists_openTag_startTag
      (show booleanName b ∈ tagNames by cases b <;> decide) hattrs hplain true
    refine ⟨.boolean gap.text t b, ⟨hgap.1, ht, hnamed⟩, ?_⟩
    rw [Element.bytes, bytes, hbytes, Stretch.bytes_of_plain hmark]
  | empty gap name attrs => exact hp.elim
  | text kind gap attrs content trail =>
    obtain ⟨hgap, hattrs, hcontent, htrail⟩ := hn
    obtain ⟨hmark, hplain, hc⟩ := hp
    obtain ⟨t, ht, hnamed, hbytes⟩ := exists_openTag_startTag
      (show kind.name ∈ tagNames by cases kind <;> decide) hattrs hplain false
    refine ⟨.text kind gap.text t content.text trail,
      ⟨hgap.1, ht, hnamed, hcontent.1, htrail⟩, ?_⟩
    rw [Element.bytes, bytes, hbytes, Stretch.bytes_of_plain hmark, Stretch.bytes_of_plain hc,
      List.append_assoc]
  | array gap attrs items inner trail ih =>
    obtain ⟨hgap, hattrs, hitems, hinner, htrail⟩ := hn
    obtain ⟨hmark, hplain, hpitems, hpinner⟩ := hp
    rw [wellFormedItems_iff] at hitems
    rw [plainItems_iff] at hpitems
    obtain ⟨t, ht, hnamed, hbytes⟩ := exists_openTag_startTag
      (show ascii "array" ∈ tagNames by decide) hattrs hplain false
    obtain ⟨es, hes, hbytes'⟩ := exists_items fun n h => ih n h (hitems n h) (hpitems n h)
    refine ⟨.array gap.text t es ⟨inner.text, trail⟩,
      ⟨hgap.1, ht, hnamed, hes, ⟨hinner.1, htrail⟩⟩, ?_⟩
    rw [Element.bytes, bytes, hbytes, hbytes', Stretch.bytes_of_plain hmark,
      Stretch.bytes_of_plain hpinner]
    simp [CloseTag.bytes, CloseTag.ofText]
  | dict gap attrs entries inner trail ih =>
    obtain ⟨hgap, hattrs, hentries, hinner, htrail⟩ := hn
    obtain ⟨hmark, hplain, hpentries, hpinner⟩ := hp
    rw [wellFormedEntries_iff] at hentries
    rw [plainEntries_iff] at hpentries
    obtain ⟨t, ht, hnamed, hbytes⟩ := exists_openTag_startTag
      (show ascii "dict" ∈ tagNames by decide) hattrs hplain false
    obtain ⟨es, hes, hbytes'⟩ := exists_entries fun e h =>
      ⟨KeyNode.exists_keyElement (hentries e h).1 (hpentries e h).1,
        ih e h (hentries e h).2 (hpentries e h).2⟩
    refine ⟨.dict gap.text t es ⟨inner.text, trail⟩,
      ⟨hgap.1, ht, hnamed, hes, ⟨hinner.1, htrail⟩⟩, ?_⟩
    rw [Element.bytes, bytes, hbytes, hbytes', Stretch.bytes_of_plain hmark,
      Stretch.bytes_of_plain hpinner]
    simp [CloseTag.bytes, CloseTag.ofText]
  | other gap name body => exact hp.elim

end Node

/-! ## The tags of a tree -/

/-- The first tag that is unknown is not the end of the document. -/
def Breaks (s : List UInt8) : Prop := ∀ c, ∃ A t B, tags (s ++ c) = A ++ t :: B ∧
  (∀ a ∈ A, Known a) ∧ ¬Known t ∧ ¬PlistClose t

/-- Either an unknown tag comes up, or the tags open at least as much as they close, and only
under the condition no more. -/
def Tracks (s : List UInt8) (p : Prop) : Prop :=
  Breaks s ∨ ∃ A, Closed s A ∧ (∀ a ∈ A, Known a) ∧ 0 ≤ balance A ∧ (balance A = 0 → p)

/-- What follows an unknown tag does not matter. -/
lemma Breaks.append {s : List UInt8} (h : Breaks s) (s' : List UInt8) : Breaks (s ++ s') :=
  fun c => by
    rw [List.append_assoc]
    exact h (s' ++ c)

/-- Known tags may come first. -/
lemma Breaks.after {s s' : List UInt8} {A : List (List UInt8)} (hs : Closed s A)
    (hA : ∀ a ∈ A, Known a) (h : Breaks s') : Breaks (s ++ s') := fun c => by
  obtain ⟨A', t, B, htags, hA', ht⟩ := h c
  refine ⟨A ++ A', t, B, ?_, ?_, ht⟩
  · rw [List.append_assoc, hs, htags, List.append_assoc]
  · exact fun a ha => (List.mem_append.mp ha).elim (hA a) (hA' a)

/-- A piece whose first tag is unknown. -/
lemma breaks_of_tag {s t : List UInt8} (h : Closed s [t]) (ht : ¬Known t) (hp : ¬PlistClose t) :
    Breaks s := fun c => ⟨[], t, tags c, by rw [h c]; rfl, by simp, ht, hp⟩

/-- A piece with one known tag. -/
lemma tracks_of_tag {s t : List UInt8} {p : Prop} (h : Closed s [t]) (ht : Known t)
    (hw : 0 ≤ weight t) (hp : weight t = 0 → p) : Tracks s p := by
  refine Or.inr ⟨[t], h, fun a ha => ?_, by rwa [balance_singleton], by rwa [balance_singleton]⟩
  rwa [List.mem_singleton.mp ha]

/-- A piece with no tags. -/
lemma tracks_of_closed {s : List UInt8} {p : Prop} (h : Closed s []) (hp : p) : Tracks s p :=
  Or.inr ⟨[], h, by simp, le_rfl, fun _ => hp⟩

/-- Two pieces, one after the other. -/
lemma Tracks.append {s s' : List UInt8} {p p' : Prop} (h : Tracks s p) (h' : Tracks s' p') :
    Tracks (s ++ s') (p ∧ p') := by
  rcases h with h | ⟨A, hs, hA, hle, hp⟩
  · exact Or.inl (h.append s')
  · rcases h' with h' | ⟨A', hs', hA', hle', hp'⟩
    · exact Or.inl (h'.after hs hA)
    · refine Or.inr ⟨A ++ A', hs.append hs', ?_, ?_, ?_⟩
      · exact fun a ha => (List.mem_append.mp ha).elim (hA a) (hA' a)
      · rw [balance_append]
        omega
      · rw [balance_append]
        exact fun h0 => ⟨hp (by omega), hp' (by omega)⟩

/-- A weaker condition. -/
lemma Tracks.imp {s : List UInt8} {p p' : Prop} (h : Tracks s p) (hpp : p → p') :
    Tracks s p' := by
  rcases h with h | ⟨A, hs, hA, hle, hp⟩
  · exact Or.inl h
  · exact Or.inr ⟨A, hs, hA, hle, fun h0 => hpp (hp h0)⟩

/-- A tag without a supported name is unknown. -/
lemma not_known {t : List UInt8} (hhead : t.head? ≠ some (byte '/')) (h : tagName t ∉ tagNames) :
    ¬Known t ∧ ¬PlistClose t := by
  constructor
  · rintro (⟨name, -, trail, -, rfl⟩ | hname)
    · exact hhead rfl
    · exact h hname
  · rintro ⟨trail, -, rfl⟩
    exact hhead rfl

/-- A name is read up to the first character that cannot be in one. -/
lemma tagName_append {name x : List UInt8} (hname : ∀ b ∈ name, isNameChar b = true ∧ b ≠ 0)
    (hx : ∀ b ∈ x.head?, isNameChar b = false) : tagName (name ++ x) = name := by
  rw [tagName, (takeWhile_run (fun b hb => (hname b hb).1) hx).1,
    CString.bytes_ofBytes_of_nulFree fun h => (hname 0 h).2 rfl]

/-- A carriage return is read as part of the name. -/
lemma mem_tagName_cr {name : List UInt8} (hname : ∀ b ∈ name, isNameChar b = true ∧ b ≠ 0)
    (x : List UInt8) : byte '\r' ∈ tagName (name ++ byte '\r' :: x) := by
  have hrun : ∀ b ∈ name ++ [byte '\r'], isNameChar b = true ∧ b ≠ 0 := by
    intro b hb
    rcases List.mem_append.mp hb with hb | hb
    · exact hname b hb
    · rw [List.mem_singleton.mp hb]
      exact ⟨by rfl, by decide⟩
  have hcat : name ++ byte '\r' :: x = (name ++ [byte '\r']) ++ x := by simp
  rw [tagName, hcat, List.takeWhile_append_of_pos fun b hb => (hrun b hb).1]
  show byte '\r' ∈ (name ++ [byte '\r'] ++ x.takeWhile isNameChar).takeWhile (· ≠ 0)
  rw [List.takeWhile_append_of_pos fun b hb => by simpa using (hrun b hb).2]
  simp

/-- A name with a carriage return is not supported. -/
lemma not_mem_tagNames {name : List UInt8} (h : byte '\r' ∈ name) : name ∉ tagNames := by
  have hall : ∀ n ∈ tagNames, byte '\r' ∉ n := by decide
  exact fun hname => hall name hname h

/-- The characters of a supported name. -/
lemma isNameChar_of_mem_tagNames {name : List UInt8} (h : name ∈ tagNames) :
    ∀ b ∈ name, isNameChar b = true ∧ b ≠ 0 := by
  have hall : ∀ n ∈ tagNames, (n.all fun b => isNameChar b && b != 0) = true := by decide
  intro b hb
  simpa using List.all_eq_true.mp (hall name h) b hb

/-- A stretch is followed by a known tag only if it has no markup. -/
lemma Stretch.IsContent.tracks {s : Stretch} (h : s.IsContent) :
    Tracks s.bytes (s.markup = none) := by
  obtain ⟨htext, hmark⟩ := h
  cases hm : s.markup with
  | none =>
    rw [Stretch.bytes_of_plain hm]
    exact tracks_of_closed (closed_text htext) rfl
  | some m =>
    obtain ⟨mark, body⟩ := m
    have hq : mark = byte '!' ∨ mark = byte '?' := hmark (mark, body) hm
    have hbreaks : Breaks (byte '<' :: mark :: body) := by
      intro c
      obtain ⟨ts, hts⟩ := exists_tags (mark :: (body ++ c))
      have hgt : (mark != byte '>') = true := by rcases hq with rfl | rfl <;> rfl
      rw [List.takeWhile_cons_of_pos (p := (· != byte '>')) hgt] at hts
      refine ⟨[], _, ts, hts, by simp, not_known ?_ ?_⟩
      · rcases hq with rfl | rfl <;> simp [byte]
      · intro hmem
        have hall : ∀ n ∈ tagNames, n.head? ≠ some (byte '!') ∧ n.head? ≠ some (byte '?') := by
          decide
        have hhead : ∀ u : List UInt8, (tagName (mark :: u)).head? = some mark := by
          intro u
          rcases hq with rfl | rfl
          · simp [tagName, CString.ofBytes, isNameChar, byte]
          · simp [tagName, CString.ofBytes, isNameChar, byte]
        rcases hq with rfl | rfl
        · exact (hall _ hmem).1 (hhead _)
        · exact (hall _ hmem).2 (hhead _)
    rw [Stretch.bytes, hm]
    exact Or.inl (hbreaks.after (closed_text htext) (by simp))

/-- A start tag is one tag. Its name is the one it has, or it is unknown. -/
lemma startTag_tracks {name attrs : List UInt8} (hname : name ∈ tagNames)
    (hattrs : IsAttrs attrs) (selfClosing : Bool) : Breaks (startTag name attrs selfClosing) ∨
      PlainAttrs attrs ∧ ∃ t, Closed (startTag name attrs selfClosing) [t] ∧ tagName t = name := by
  by_cases hplain : PlainAttrs attrs
  · obtain ⟨t, ht, hn, hbytes⟩ := exists_openTag_startTag hname hattrs hplain selfClosing
    rw [← hbytes]
    exact Or.inr ⟨hplain, _, ht.closed, by rw [ht.tagName]; exact hn⟩
  · have hchars := isNameChar_of_mem_tagNames hname
    obtain ⟨attrs', hcr⟩ : ∃ attrs', attrs = byte '\r' :: attrs' := by
      cases attrs with
      | nil => exact absurd (by simp [PlainAttrs]) hplain
      | cons b attrs' =>
        refine ⟨attrs', ?_⟩
        rw [show b = byte '\r' from Option.some.inj (not_not.mp hplain)]
    have hgt : byte '>' ∉ name ++ (attrs ++ if selfClosing then [byte '/'] else []) := by
      simp only [List.mem_append, not_or]
      refine ⟨fun h => absurd (hchars _ h).1 (by decide), hattrs.gt, ?_⟩
      cases selfClosing <;> decide
    have hmem : byte '\r' ∈ tagName (name ++ (attrs ++ if selfClosing then [byte '/'] else [])) := by
      rw [hcr]
      exact mem_tagName_cr hchars _
    obtain ⟨hknown, hclose⟩ := not_known
      (head_ne_slash (List.ne_nil_of_mem hmem)) (not_mem_tagNames hmem)
    exact Or.inl (breaks_of_tag (closed_tag hgt) hknown hclose)

/-- A self-closing element with text or children is not closed for the reader. -/
lemma selfClosing_tracks {name attrs : List UInt8} (hname : name ∈ closableNames)
    (hattrs : IsAttrs attrs) : Tracks (startTag name attrs true) False := by
  rcases startTag_tracks (List.mem_append_left _ hname) hattrs true with h | ⟨-, t, hc, ht⟩
  · exact Or.inl h
  · obtain ⟨hknown, hweight⟩ := opens_of_tagName ht hname
    exact tracks_of_tag hc hknown (by omega) (by omega)

/-- An element with text or children. -/
lemma Tracks.between {name attrs body trail : List UInt8} {p : Prop}
    (hname : name ∈ closableNames) (hattrs : IsAttrs attrs) (hbody : Tracks body p)
    (htrail : Blank trail) : Tracks (startTag name attrs false ++
      (body ++ (CloseTag.ofText trail).bytes name)) (PlainAttrs attrs ∧ p) := by
  rcases startTag_tracks (List.mem_append_left _ hname) hattrs false with h | ⟨hplain, t, hc, ht⟩
  · exact Or.inl (h.append _)
  · obtain ⟨hknown, hweight⟩ := opens_of_tagName ht hname
    have hA : ∀ a ∈ [t], Known a := fun a ha => by rwa [List.mem_singleton.mp ha]
    rcases hbody with h | ⟨A, hb, hk, hle, hp⟩
    · exact Or.inl ((h.append _).after hc hA)
    · have hgt : byte '>' ∉ name := fun h => absurd
        (isNameChar_of_mem_tagNames (List.mem_append_left _ hname) _ h).1 (by decide)
      have hclosed := (CloseTag.valid_ofText htrail).closed hgt
      obtain ⟨hkc, hwc⟩ := IsClose.closes
        (show IsClose name (byte '/' :: (name ++ trail)) from ⟨trail, htrail, rfl⟩) hname
      have hbal : balance ([t] ++ (A ++ [byte '/' :: (name ++ trail)])) = balance A := by
        simp only [balance_append, balance_singleton, hweight, hwc]
        omega
      refine Or.inr ⟨_, hc.append (hb.append hclosed), fun a ha => ?_, ?_, fun h0 => ?_⟩
      · rcases List.mem_append.mp ha with ha | ha
        · exact hA a ha
        · rcases List.mem_append.mp ha with ha | ha
          · exact hk a ha
          · rw [List.mem_singleton.mp ha]
            exact hkc
      · exact hbal.symm ▸ hle
      · exact ⟨hplain, hp (hbal.symm.trans h0)⟩

/-- The tags of a key. -/
lemma KeyNode.tracks {k : KeyNode} (hk : k.WellFormed) : Tracks k.bytes k.Plain := by
  obtain ⟨hgap, hattrs, hbody⟩ := hk
  have hgap' := hgap.isContent.tracks
  have hname : ascii "key" ∈ closableNames := by decide
  cases hb : k.body with
  | none =>
    rw [KeyNode.bytes, hb]
    exact (hgap'.append (selfClosing_tracks hname hattrs)).imp fun h => h.2.elim
  | some body =>
    obtain ⟨content, trail⟩ := body
    obtain ⟨hcontent, htrail⟩ := hbody (content, trail) hb
    rw [KeyNode.bytes, hb]
    refine (hgap'.append (Tracks.between hname hattrs hcontent.tracks htrail)).imp ?_
    rintro ⟨hmark, hplain, hc⟩
    exact ⟨hmark, hplain, content, trail, hb, hc⟩

namespace Node

/-- The tags of a Boolean. -/
private lemma boolean_tracks {gap : Stretch} {attrs : List UInt8} {b : Bool}
    {close : Option (List UInt8)} (hgap : gap.IsGap) (hattrs : IsAttrs attrs)
    (hclose : ∀ trail ∈ close, Blank trail) :
    Tracks (bytes (.boolean gap attrs b close)) (Plain (.boolean gap attrs b close)) := by
  have hname : booleanName b ∈ tagNames := by cases b <;> decide
  have hgap' := hgap.isContent.tracks
  cases close with
  | none =>
    have htag : Tracks (startTag (booleanName b) attrs true) (PlainAttrs attrs) := by
      rcases startTag_tracks hname hattrs true with h | ⟨hplain, t, hc, ht⟩
      · exact Or.inl h
      · obtain ⟨hknown, hweight⟩ := boolean_of_tagName ht
        exact tracks_of_tag hc hknown hweight.ge fun _ => hplain
    rw [bytes]
    exact (hgap'.append htag).imp fun ⟨hmark, hplain⟩ => ⟨hmark, hplain, rfl⟩
  | some trail =>
    -- the tag that closes a Boolean is unknown
    have hend : Breaks ((CloseTag.ofText trail).bytes (booleanName b)) := by
      have hgt : byte '>' ∉ booleanName b := by cases b <;> decide
      refine breaks_of_tag ((CloseTag.valid_ofText (hclose trail rfl)).closed hgt) ?_ ?_
      · cases b
        · exact IsClose.not_known (b := byte 'f') (n := ascii "alse")
            ⟨trail, hclose trail rfl, rfl⟩ (by decide)
        · exact IsClose.not_known (b := byte 't') (n := ascii "rue")
            ⟨trail, hclose trail rfl, rfl⟩ (by decide)
      · intro hp
        have hhead := IsClose.head (b := byte 'p') (n := ascii "list") hp
        cases b
        · exact absurd hhead (by simp [booleanName, CloseTag.ofText, ascii, byte])
        · exact absurd hhead (by simp [booleanName, CloseTag.ofText, ascii, byte])
    have htag : Tracks (startTag (booleanName b) attrs false ++
        (CloseTag.ofText trail).bytes (booleanName b)) False := by
      rcases startTag_tracks hname hattrs false with h | ⟨-, t, hc, ht⟩
      · exact Or.inl (h.append _)
      · obtain ⟨hknown, -⟩ := boolean_of_tagName ht
        exact Or.inl (hend.after hc fun a ha => by rwa [List.mem_singleton.mp ha])
    rw [bytes]
    exact (hgap'.append htag).imp fun h => h.2.elim

/-- The tags of an element that the reader does not support. -/
private lemma other_tracks {gap : Stretch} {name body : List UInt8} (hgap : gap.IsGap)
    (hne : name ≠ []) (hname : name ∉ tagNames)
    (hchars : ∀ b ∈ name, isNameChar b = true ∧ b ≠ byte '\r' ∧ b ≠ 0)
    (hbody : ∃ b ∈ body.head?, b = byte '>' ∨ b = byte '/' ∨ isWs b = true) :
    Tracks (bytes (.other gap name body)) False := by
  have hrun : ∀ b ∈ name, isNameChar b = true ∧ b ≠ 0 := fun b hb =>
    ⟨(hchars b hb).1, (hchars b hb).2.2⟩
  have hgt : ∀ b ∈ name, (b != byte '>') = true := fun b hb => by
    have := (hchars b hb).1
    simp only [isNameChar, Bool.and_eq_true] at this
    exact this.1.2
  have hbreaks : Breaks (byte '<' :: (name ++ body)) := by
    intro c
    obtain ⟨ts, hts⟩ := exists_tags (name ++ (body ++ c))
    rw [List.takeWhile_append_of_pos hgt] at hts
    refine ⟨[], _, ts, by rw [List.cons_append, List.append_assoc, hts]; rfl, by simp,
      not_known ?_ ?_⟩
    · cases name with
      | nil => exact absurd rfl hne
      | cons b name =>
        intro hb
        obtain rfl : b = byte '/' := Option.some.inj hb
        exact absurd (hchars _ List.mem_cons_self).1 (by decide)
    · obtain ⟨b, hb, hcase⟩ := hbody
      obtain ⟨body', rfl⟩ : ∃ body', body = b :: body' := by
        cases body with
        | nil => exact absurd hb (by simp)
        | cons b' body' => exact ⟨body', by rw [Option.some.inj hb]⟩
      by_cases hcr : b = byte '\r'
      · rw [hcr, List.cons_append, List.takeWhile_cons_of_pos (by rfl)]
        exact not_mem_tagNames (mem_tagName_cr hrun _)
      · rw [tagName_append hrun]
        · exact hname
        · intro b' hb'
          rw [List.cons_append, List.takeWhile_cons] at hb'
          split_ifs at hb' with hb0
          · obtain rfl : b = b' := by simpa using hb'
            rcases hcase with rfl | rfl | hws
            · exact absurd hb0 (by decide)
            · rfl
            · simp only [isWs, Bool.or_eq_true, beq_iff_eq] at hws
              rcases hws with ((rfl | rfl) | rfl) | rfl
              · rfl
              · rfl
              · rfl
              · exact absurd rfl hcr
          · exact absurd hb' (by simp)
  have hrest : Tracks (byte '<' :: (name ++ body)) False := Or.inl hbreaks
  rw [bytes]
  exact (hgap.isContent.tracks.append hrest).imp fun h => h.2

/-- The tags of the values of an array. -/
private lemma items_tracks {ns : List Node} (h : ∀ n ∈ ns, Tracks n.bytes n.Plain) :
    Tracks (bytesItems ns) (PlainItems ns) := by
  induction ns with
  | nil => exact tracks_of_closed closed_nil trivial
  | cons n ns ih =>
    exact (h n List.mem_cons_self).append (ih fun x hx => h x (List.mem_cons_of_mem _ hx))

/-- The tags of the entries of a dictionary. -/
private lemma entries_tracks {es : List (KeyNode × Node)}
    (h : ∀ e ∈ es, Tracks e.1.bytes e.1.Plain ∧ Tracks e.2.bytes e.2.Plain) :
    Tracks (bytesEntries es) (PlainEntries es) := by
  induction es with
  | nil => exact tracks_of_closed closed_nil trivial
  | cons e es ih =>
    obtain ⟨hk, hn⟩ := h e List.mem_cons_self
    exact ((hk.append hn).append (ih fun x hx => h x (List.mem_cons_of_mem _ hx))).imp and_assoc.mp

/-- **If no tag of a tree is unknown to the reader, then its tags open at least as much as they
close, and more unless the tree is plain.**

**Proof sketch.** Induction over the tree. Markup and unsupported elements bring an unknown tag,
and a self-closing element with text or children opens without closing; nothing ever closes more
than it opens, so no other part makes up for it. -/
lemma tracks {n : Node} (hn : n.WellFormed) : Tracks n.bytes n.Plain := by
  induction n using Node.induct with
  | boolean gap attrs b close => exact boolean_tracks hn.1 hn.2.1 hn.2.2
  | empty gap name attrs =>
    obtain ⟨hgap, hname, hattrs⟩ := hn
    have hclosable : name ∈ closableNames := by
      have hall : ∀ n ∈ valueNames, n ∈ closableNames := by decide
      exact hall name hname
    rw [bytes]
    exact (hgap.isContent.tracks.append (selfClosing_tracks hclosable hattrs)).imp fun h => h.2
  | text kind gap attrs content trail =>
    obtain ⟨hgap, hattrs, hcontent, htrail⟩ := hn
    have hname : kind.name ∈ closableNames := by cases kind <;> decide
    rw [bytes]
    exact hgap.isContent.tracks.append (Tracks.between hname hattrs hcontent.tracks htrail)
  | array gap attrs items inner trail ih =>
    obtain ⟨hgap, hattrs, hitems, hinner, htrail⟩ := hn
    rw [wellFormedItems_iff] at hitems
    have hbody := (items_tracks fun n h => ih n h (hitems n h)).append hinner.isContent.tracks
    rw [bytes]
    exact hgap.isContent.tracks.append (Tracks.between (by decide) hattrs hbody htrail)
  | dict gap attrs entries inner trail ih =>
    obtain ⟨hgap, hattrs, hentries, hinner, htrail⟩ := hn
    rw [wellFormedEntries_iff] at hentries
    have hbody := (entries_tracks fun e h => ⟨KeyNode.tracks (hentries e h).1,
      ih e h (hentries e h).2⟩).append hinner.isContent.tracks
    rw [bytes]
    exact hgap.isContent.tracks.append (Tracks.between (by decide) hattrs hbody htrail)
  | other gap name body =>
    obtain ⟨hgap, hne, hname, hchars, hbody⟩ := hn
    exact other_tracks hgap hne hname hchars hbody

end Node

end Asteros.CoreFoundation
