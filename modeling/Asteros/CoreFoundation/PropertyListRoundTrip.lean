import Asteros.CoreFoundation.PropertyListDocument
import Asteros.CoreFoundation.Spelling

set_option autoImplicit false

/-!
# The property list round trip

What `CFPropertyListCreateXMLData` writes is the image of the document whose root is spelled its
way, as long as every integer has a decimal text of at most eleven characters; the reader gives
the value of that root, which is the property list. A longer integer makes the writer store
outside its array.

## Main definitions

* `cfSpelling` — how this writer spells strings and data.
* `CFObject.ShortIntegers` — every integer fits its array.
* `XmlRoundTrips` — a property list survives being written and read.

## Main results

* `createXMLData_eq` — what the writer produces, and when.
* `xmlRoundTrips_iff` — which property lists survive.
-/

namespace Asteros.CoreFoundation

open Asteros.Libc

variable {δ : Type}

/-! ## The spelling of the writer -/

/-- The escaping is read back. -/
lemma escapesByte_escapeByte : EscapesByte escapeByte := by
  refine ⟨fun b => ?_, fun b hb => ?_, fun b raw => ?_⟩
  · unfold escapeByte
    split_ifs with h₁ h₂
    · decide
    · decide
    · decide
    · decide
    · decide
    · simpa using Ne.symm h₂
  · unfold escapeByte
    split_ifs
    · decide
    · decide
    · decide
    · decide
    · decide
    · simpa using Ne.symm hb
  · unfold escapeByte
    split_ifs with h₁ h₂ h₃ h₄ h₅
    · rw [h₁]; exact unescape_entity (by simp) raw
    · rw [h₂]; exact unescape_entity (by simp) raw
    · rw [h₃]; exact unescape_entity (by simp) raw
    · rw [h₄]; exact unescape_entity (by simp) raw
    · rw [h₅]; exact unescape_entity (by simp) raw
    · exact unescape_cons h₁ raw

/-- Base64 text between line breaks and tabs is read as it stands. -/
lemma plainText_of_isB64Char {text : List UInt8}
    (h : ∀ c ∈ text, IsB64Char c ∨ c = byte '\t') : PlainText text text := by
  have hnot : ∀ b, ¬IsB64Char b → b ≠ byte '\t' → b ∉ text := fun b hb ht hmem =>
    (h b hmem).elim hb ht
  have hsext : ∀ b, Base64.sextet b = none → b ≠ byte '=' → b ≠ byte '\n' → ¬IsB64Char b := by
    rintro b hb heq hline (h | h | h)
    · exact h hb
    · exact heq h
    · exact hline h
  exact ⟨hnot _ (hsext _ (by decide) (by decide) (by decide)) (by decide),
    hnot _ (hsext _ (by decide) (by decide) (by decide)) (by decide),
    unescape_of_notMem (hnot _ (hsext _ (by decide) (by decide) (by decide)) (by decide))⟩

/-- The text between the tags of a data element. -/
def dataText (depth : ℕ) (d : List UInt8) : List UInt8 :=
  ascii "\n" ++ b64Encode 0 d ++ ascii "\n" ++ appendIndent depth

/-- The text consists of base64 characters, line breaks and tabs. -/
lemma dataText_plain (depth : ℕ) (d : List UInt8) :
    PlainText (dataText depth d) (dataText depth d) := by
  refine plainText_of_isB64Char fun c hc => ?_
  have hline : c ∈ ascii "\n" → IsB64Char c ∨ c = byte '\t' := fun h =>
    Or.inl (Or.inr (Or.inr (List.mem_singleton.mp h)))
  simp only [dataText, List.mem_append] at hc
  rcases hc with ((hc | hc) | hc) | hc
  · exact hline hc
  · exact Or.inl (isB64Char_b64Encode 0 d c hc)
  · exact hline hc
  · exact Or.inr (List.eq_of_mem_replicate hc)

/-- The text is decoded to the data. -/
lemma b64Decode_dataText (depth : ℕ) (d : List UInt8) : b64Decode (dataText depth d) = d := by
  refine Base64.decode_of_sextets ?_
  have hindent : (appendIndent depth).filterMap Base64.sextet = [] := by
    rw [List.filterMap_eq_nil_iff]
    intro c hc
    rw [List.eq_of_mem_replicate hc]
    decide
  have hline : (ascii "\n").filterMap Base64.sextet = [] := by decide
  simp only [dataText, List.filterMap_append, hindent, hline, filterMap_b64Encode,
    List.nil_append, List.append_nil]

/-- How this writer spells strings and data. -/
def cfSpelling : Spelling where
  escape s := s.flatMap escapeByte
  encode := dataText
  escape_plain _ hs := (escapesByte_escapeByte).plainText hs
  encode_plain := dataText_plain
  encode_decode := b64Decode_dataText

/-! ## What the writer produces -/

namespace CFObject

/-- The text of the integer fits its array; other objects are unconstrained. -/
def ShortIntegerAt : CFObject δ → Prop
  | .integer v => ShortInteger v
  | _ => True

/-- Every integer of the graph has at most eleven characters. -/
def ShortIntegers : CFObject δ → Prop := Everywhere ShortIntegerAt

end CFObject

/-- A step that succeeds is followed by the rest. -/
@[simp] private lemma ok_bind' {α β : Type} (a : α) (f : α → Except WriteFailure β) :
    (Except.ok a >>= f) = f a := rfl

/-- A step that fails ends the run. -/
@[simp] private lemma error_bind {α β : Type} (e : WriteFailure) (f : α → Except WriteFailure β) :
    (Except.error e >>= f) = .error e := rfl

/-- What the writer does with a value: it appends its lines if the integers are short, and stores
outside an array if they are not. -/
def WritesText (o : CFObject δ) : Prop := ∀ depth,
  (o.ShortIntegers → writeValue depth o = .ok (cfSpelling.text depth o)) ∧
  (¬o.ShortIntegers → writeValue depth o = .error .outOfBounds)

/-- The values of an array, one after the other. -/
private lemma writeArray_eq {xs : List (CFObject δ)} (h : ∀ x ∈ xs, WritesText x) (depth : ℕ) :
    ((∀ x ∈ xs, x.ShortIntegers) → writeArray depth xs = .ok (cfSpelling.textValues depth xs)) ∧
    (¬(∀ x ∈ xs, x.ShortIntegers) → writeArray depth xs = .error .outOfBounds) := by
  induction xs with
  | nil => exact ⟨fun _ => rfl, fun h => absurd (by simp) h⟩
  | cons x xs ih =>
    obtain ⟨ihs, ihl⟩ := ih fun y hy => h y (List.mem_cons_of_mem _ hy)
    obtain ⟨hs, hl⟩ := h x List.mem_cons_self depth
    rw [List.forall_mem_cons]
    constructor
    · rintro ⟨hx, hxs⟩
      rw [writeArray, hs hx, ok_bind', ihs hxs, ok_bind', Spelling.textValues]
    · intro hnot
      by_cases hx : x.ShortIntegers
      · obtain hxs : ¬∀ y ∈ xs, y.ShortIntegers := fun hxs => hnot ⟨hx, hxs⟩
        rw [writeArray, hs hx, ok_bind', ihl hxs, error_bind]
      · rw [writeArray, hl hx, error_bind]

/-- The entries of a dictionary, one after the other. -/
private lemma writeEntries_eq {es : Entries δ} (hk : ∀ k ∈ keys es, 0 ∉ k)
    (h : ∀ e ∈ es, WritesText e.2) (depth : ℕ) :
    ((∀ e ∈ es, e.2.ShortIntegers) →
      writeEntries depth es = .ok (cfSpelling.textEntries depth es)) ∧
    (¬(∀ e ∈ es, e.2.ShortIntegers) → writeEntries depth es = .error .outOfBounds) := by
  induction es with
  | nil => exact ⟨fun _ => rfl, fun h => absurd (by simp) h⟩
  | cons e es ih =>
    obtain ⟨k, v⟩ := e
    obtain ⟨ihs, ihl⟩ := ih (fun l hl => hk l (List.mem_cons_of_mem _ hl))
      fun f hf => h f (List.mem_cons_of_mem _ hf)
    obtain ⟨hs, hl⟩ := h (k, v) List.mem_cons_self depth
    have hnul : 0 ∉ k := hk k List.mem_cons_self
    rw [List.forall_mem_cons]
    constructor
    · rintro ⟨hv, hes⟩
      rw [writeEntries, hs hv, ok_bind', ihs hes, ok_bind', Spelling.textEntries]
      simp [appendString, appendEscaped, CString.bytes_ofBytes_of_nulFree hnul, cfSpelling, ascii,
        byte]
    · intro hnot
      by_cases hv : v.ShortIntegers
      · obtain hes : ¬∀ f ∈ es, f.2.ShortIntegers := fun hes => hnot ⟨hv, hes⟩
        rw [writeEntries, hs hv, ok_bind', ihl hes, error_bind]
      · rw [writeEntries, hl hv, error_bind]

/-- **What the writer appends for a property list.**

**Proof sketch.** Induction over the property list. Only an integer can fail
(`appendFormatted_integer`). -/
lemma writesText {o : CFObject δ} (ho : o.IsPlist) : WritesText o := by
  refine Spelling.plistInduction (P := WritesText) ?boolean ?integer ?string ?data ?array
    ?dictionary ho
  case boolean =>
    exact fun b depth => ⟨fun _ => rfl, fun h => absurd trivial h⟩
  case integer =>
    refine fun v depth => ⟨fun h => ?_, fun h => ?_⟩
    · have hv : ShortInteger v := h
      rw [writeValue, appendFormatted_integer, if_pos hv, ok_bind', Spelling.text, integerElement]
      simp only [List.append_assoc]
    · have hv : ¬ShortInteger v := h
      rw [writeValue, appendFormatted_integer, if_neg hv, error_bind]
  case string =>
    refine fun s hs depth => ⟨fun _ => ?_, fun h => absurd trivial h⟩
    simp [writeValue, appendString, appendEscaped, CString.bytes_ofBytes_of_nulFree hs,
      Spelling.text, cfSpelling, ascii, byte]
  case data =>
    refine fun d depth => ⟨fun _ => ?_, fun h => absurd trivial h⟩
    simp [writeValue, Spelling.text, cfSpelling, dataText, ascii, byte]
  case array =>
    intro xs ih depth
    obtain ⟨hs, hl⟩ := writeArray_eq ih (depth + 1)
    rw [CFObject.ShortIntegers, CFObject.Everywhere, CFObject.everywhereValues_iff]
    refine ⟨fun h => ?_, fun h => ?_⟩
    · rw [writeValue, hs h.2, ok_bind', Spelling.text]
    · rw [writeValue, hl fun h' => h ⟨trivial, h'⟩, error_bind]
  case dictionary =>
    intro es _ hnul ih depth
    obtain ⟨hs, hl⟩ := writeEntries_eq hnul ih (depth + 1)
    rw [CFObject.ShortIntegers, CFObject.Everywhere, CFObject.everywhereEntries_iff]
    refine ⟨fun h => ?_, fun h => ?_⟩
    · rw [writeValue, hs h.2, ok_bind', Spelling.text]
    · rw [writeValue, hl fun h' => h ⟨trivial, h'⟩, error_bind]

/-! ## The document -/

/-- The XML declaration and the document type that both writers produce. -/
def writtenProlog : List Directive :=
  [⟨[], byte '?', ascii "xml version=\"1.0\" encoding=\"UTF-8\"?"⟩,
    ⟨ascii "\n", byte '!', ascii "DOCTYPE plist PUBLIC \"-//Apple//DTD PLIST 1.0//EN\" \"http://www.apple.com/DTDs/PropertyList-1.0.dtd\""⟩]

/-- The `<plist>` tag that both writers produce. -/
def writtenTag : OpenTag := ⟨ascii "plist", ascii " version=\"1.0\""⟩

/-- The document with the given root that both writers produce. -/
def writtenDocument (root : Element) : Document where
  prolog := writtenProlog
  lead := ascii "\n"
  tag := writtenTag
  root := root
  close := ⟨ascii "\n", []⟩
  tail := ascii "\n"

/-- The document is valid. -/
lemma valid_writtenDocument {root : Element} (h : root.Valid) : (writtenDocument root).Valid := by
  have hline : Blank (ascii "\n") := Spelling.blank_lineLead 0
  have htag : writtenTag.Valid :=
    Spelling.valid_openTag (by decide) (by decide) (by decide)
  refine ⟨?_, hline, htag, @CString.bytes_ofBytes_of_nulFree (ascii "plist") (by decide), h,
    hline, Spelling.blank_nil⟩
  intro p hp
  simp only [writtenDocument, writtenProlog, List.mem_cons, List.not_mem_nil, or_false] at hp
  rcases hp with rfl | rfl
  · refine ⟨Spelling.blank_nil, Or.inl rfl, ?_⟩
    rw [ascii_ofList]
    decide
  · refine ⟨hline, Or.inr rfl, ?_⟩
    rw [ascii_ofList]
    decide

/-- The header is the image of the prolog and the tag, up to the line break after it. -/
lemma xmlHeader_eq : xmlHeader =
    writtenProlog.flatMap Directive.bytes ++ (ascii "\n" ++ writtenTag.bytes) ++ ascii "\n" := by
  rw [xmlHeader, writtenProlog, writtenTag]
  repeat rw [ascii_ofList]
  rfl

/-- The image of the document: the header, the lines of the root and the end. -/
lemma bytes_writtenDocument (sp : Spelling) {o : CFObject δ} (ho : o.IsPlist) :
    (writtenDocument (sp.element (Spelling.lineLead 0) 0 o)).bytes =
      xmlHeader ++ sp.text 0 o ++ ascii "</plist>\n" := by
  have hclose : (CloseTag.mk (ascii "\n") []).bytes (ascii "plist") ++ ascii "\n" =
      ascii "\n" ++ ascii "</plist>\n" := by decide
  calc (writtenDocument (sp.element (Spelling.lineLead 0) 0 o)).bytes
      = writtenProlog.flatMap Directive.bytes ++ (ascii "\n" ++ writtenTag.bytes ++
          ((sp.element (Spelling.lineLead 0) 0 o).bytes ++
            ((CloseTag.mk (ascii "\n") []).bytes (ascii "plist") ++ ascii "\n"))) := rfl
    _ = _ := by
        rw [hclose, Spelling.bytes_element_lineLead, xmlHeader_eq, sp.text_eq ho]
        simp only [List.append_assoc]

/-- **What the writer produces**: the document spelled its way, or a store outside an array. -/
lemma createXMLData_eq {p : CFObject δ} (hp : p.IsPlist) :
    (p.ShortIntegers → cfPropertyListCreateXMLData p =
      .ok (writtenDocument (cfSpelling.element (Spelling.lineLead 0) 0 p)).bytes) ∧
    (¬p.ShortIntegers → cfPropertyListCreateXMLData p = .error .outOfBounds) := by
  obtain ⟨hs, hl⟩ := writesText hp 0
  constructor
  · intro h
    rw [cfPropertyListCreateXMLData, hs h, ok_bind', bytes_writtenDocument _ hp]
  · intro h
    rw [cfPropertyListCreateXMLData, hl h, error_bind]

/-- Reading a document that spells a property list gives it back, for every mutability option
and without an error. -/
lemma read_writtenDocument (sp : Spelling) (strtod : CString → δ) (mutability : MutabilityOptions)
    {p : CFObject δ} (hp : p.IsPlist) : ∃ st, cfPropertyListCreateFromXMLData strtod mutability
      (writtenDocument (sp.element (Spelling.lineLead 0) 0 p)).bytes = .ok (some p, st) ∧
        st.errors = [] := by
  have hvalid := valid_writtenDocument (sp.valid_element hp (Spelling.blank_lineLead 0) 0)
  obtain ⟨st, hst⟩ := (createFromXMLData_eq_some_iff strtod mutability _ p).mpr
    ⟨_, hvalid, rfl, sp.value_element strtod hp (Spelling.lineLead 0) 0⟩
  obtain ⟨result, st', hsafe, -, hnull, -⟩ := createFromXMLData_safe (δ := δ) strtod mutability
    (writtenDocument (sp.element (Spelling.lineLead 0) 0 p)).bytes
  have hsame := hsafe _ le_rfl
  rw [cfPropertyListCreateFromXMLData] at hst
  rw [hst] at hsame
  cases hsame
  refine ⟨st, hst, ?_⟩
  by_contra herr
  exact absurd (hnull.mpr herr) (Option.some_ne_none p)

/-- The property list `p` survives: it is written without a fault, and reading what was written
gives `p` and sets no error, for every mutability option. -/
def XmlRoundTrips (strtod : CString → δ) (p : CFObject δ) : Prop :=
  ∃ xmlData, cfPropertyListCreateXMLData p = .ok xmlData ∧ ∀ mutability, ∃ st,
    cfPropertyListCreateFromXMLData strtod mutability xmlData = .ok (some p, st) ∧ st.errors = []

/-- **A property list survives exactly when its integers are short**: at most eleven characters,
the sign included.

**Proof sketch.** With short integers the writer produces the document that spells the property
list its way (`createXMLData_eq`), which is read back (`read_writtenDocument`). A longer integer
makes `snprintf` store its terminator outside the array. -/
theorem xmlRoundTrips_iff (strtod : CString → δ) {p : CFObject δ} (hp : p.IsPlist) :
    XmlRoundTrips strtod p ↔ p.ShortIntegers := by
  obtain ⟨hs, hl⟩ := createXMLData_eq hp
  constructor
  · rintro ⟨xmlData, hdata, -⟩
    by_contra hnot
    rw [hl hnot] at hdata
    cases hdata
  · exact fun h => ⟨_, hs h, fun mutability => read_writtenDocument cfSpelling strtod mutability hp⟩

/-- A property list with an integer of eleven characters in a nested dictionary survives. -/
theorem xmlRoundTrips_nested : XmlRoundTrips (fun _ : CString => ())
    (.array [.boolean true, .dictionary [(ascii "a<b", .integer 99999999999),
      (ascii "", .data [1, 2])]]) :=
  (xmlRoundTrips_iff (fun _ => ())
    (by simp [CFObject.IsPlist, CFObject.Everywhere, CFObject.EverywhereValues,
      CFObject.EverywhereEntries, CFObject.PlistAt, keys, ascii, byte])).mpr
    (by simp [CFObject.ShortIntegers, CFObject.Everywhere, CFObject.EverywhereValues,
      CFObject.EverywhereEntries, CFObject.ShortIntegerAt, ShortInteger])

/-- **The least `int64` does not survive**: its text has twenty characters. -/
theorem not_xmlRoundTrips_intMin :
    (CFObject.integer (δ := Unit) (BitVec.intMin 64)).IsPlist ∧
      ¬XmlRoundTrips (fun _ : CString => ()) (.integer (BitVec.intMin 64)) := by
  have hplist : (CFObject.integer (δ := Unit) (BitVec.intMin 64)).IsPlist := trivial
  refine ⟨hplist, fun ⟨xmlData, hdata, _⟩ => ?_⟩
  have hlong : ¬(CFObject.integer (δ := Unit) (BitVec.intMin 64)).ShortIntegers :=
    show ¬ShortInteger (BitVec.intMin 64) by decide
  rw [(createXMLData_eq hplist).2 hlong] at hdata
  cases hdata

end Asteros.CoreFoundation
